import Dolorem.Programs.Language

/-!
# Parts of forms

What can be read off a form without running it: whether it has a part of some
kind, and that its check asks for nothing but the variables that occur in it.
-/

namespace Dolorem.Programs

open Codegen Words

namespace Form

mutual

/-- `p` holds of the form or of a part of it. -/
def any (p : Form → Bool) : Form → Bool
  | e@(varInit _ _ a) | e@(not a) => p e || a.any p
  | e@(assign a b) | e@(arith _ a b) | e@(cmp _ a b) | e@(cond a b) | e@(while_ a b) =>
    p e || (a.any p || b.any p)
  | e@(if_ a b c) => p e || (a.any p || (b.any p || c.any p))
  | e@(progn es) | e@(scope es) | e@(Form.call _ es) => p e || anyOf p es
  | e => p e

def anyOf (p : Form → Bool) : List Form → Bool
  | [] => false
  | e :: es => e.any p || anyOf p es

end

def isIdent (x : String) : Form → Bool
  | ident y _ => y = x
  | _ => false

/-- What need not be defined: a division, a remainder or a shift, and a variable
that is not set when it is declared, or is set to something it occurs in. -/
def mayFail : Form → Bool
  | arith .div _ _ | arith .mod _ _ | arith .shl _ _ | arith .shr _ _ | var _ _ => true
  | varInit x _ e => e.any (isIdent x)
  | _ => false

def isLoop : Form → Bool
  | while_ _ _ => true
  | _ => false

end Form

/-- The contexts agree on the variables in `p`, and on all else. -/
structure Agree (p : String → Prop) (Γ Γ' : Ctx) : Prop where
  find : ∀ y, p y → Γ'.find y = Γ.find y
  funs : Γ'.funs = Γ.funs
  inLoop : Γ'.inLoop = Γ.inLoop

namespace Agree

variable {p q : String → Prop} {Γ Γ' : Ctx}

theorem mono (h : Agree p Γ Γ') (hq : ∀ y, q y → p y) : Agree q Γ Γ' :=
  ⟨fun y hy => h.find y (hq y hy), h.funs, h.inLoop⟩

theorem add (h : Agree p Γ Γ') (xs : List (String × Option IntTy)) :
    Agree p (Γ.add xs) (Γ'.add xs) where
  find y hy := by
    have hfind := h.find y hy
    unfold Ctx.find Ctx.add at *
    rw [List.lookup_append, List.lookup_append]
    cases xs.lookup y with
    | some t => rfl
    | none => exact hfind
  funs := h.funs
  inLoop := h.inLoop

theorem loop (h : Agree p Γ Γ') : Agree p Γ.loop Γ'.loop := ⟨h.find, h.funs, rfl⟩

end Agree

namespace Form

section

attribute [local simp] any anyOf ok allOk

/-- The contexts agree on what occurs in `e`. -/
abbrev AgreeOn (e : Form) (Γ Γ' : Ctx) : Prop := Agree (fun y => e.any (isIdent y) = true) Γ Γ'

mutual

/-- The check of a form asks for the variables that occur in it. -/
theorem ok_congr (e : Form) {Γ Γ' : Ctx} (h : AgreeOn e Γ Γ') (hok : e.ok Γ = true) :
    e.ok Γ' = true := by
  cases e with
  | int _ | char _ => simpa only [ok] using hok
  | var _ _ => rw [ok]
  | ident x t =>
    have hfind := h.find x (by simp [isIdent])
    simpa [hfind] using hok
  | varInit x t e =>
    have he : AgreeOn e Γ Γ' := h.mono fun y hy => by simp [hy]
    simp only [ok, Bool.and_eq_true] at hok ⊢
    exact ⟨e.ok_congr (he.add _) hok.1, hok.2⟩
  | not a =>
    have ha : AgreeOn a Γ Γ' := h.mono fun y hy => by simp [hy]
    simp only [ok, Bool.and_eq_true] at hok ⊢
    exact ⟨a.ok_congr ha hok.1, hok.2⟩
  | assign a b | arith _ a b | cmp _ a b =>
    have ha : AgreeOn a Γ Γ' := h.mono fun y hy => by simp [hy]
    have hb : AgreeOn b Γ Γ' := h.mono fun y hy => by simp [hy]
    simp only [ok, Bool.and_eq_true, and_assoc] at hok ⊢
    exact ⟨a.ok_congr ha hok.1, b.ok_congr (hb.add _) hok.2.1, hok.2.2⟩
  | cond c b =>
    have hc : AgreeOn c Γ Γ' := h.mono fun y hy => by simp [hy]
    have hb : AgreeOn b Γ Γ' := h.mono fun y hy => by simp [hy]
    simp only [ok, Bool.and_eq_true, and_assoc] at hok ⊢
    exact ⟨c.ok_congr hc hok.1, b.ok_congr (hb.add _) hok.2.1, hok.2.2⟩
  | while_ c b =>
    have hc : AgreeOn c Γ Γ' := h.mono fun y hy => by simp [hy]
    have hb : AgreeOn b Γ Γ' := h.mono fun y hy => by simp [hy]
    simp only [ok, Bool.and_eq_true, and_assoc] at hok ⊢
    exact ⟨c.ok_congr hc hok.1, b.ok_congr (hb.add _).loop hok.2.1, hok.2.2⟩
  | if_ c a b =>
    have hc : AgreeOn c Γ Γ' := h.mono fun y hy => by simp [hy]
    have ha : AgreeOn a Γ Γ' := h.mono fun y hy => by simp [hy]
    have hb : AgreeOn b Γ Γ' := h.mono fun y hy => by simp [hy]
    simp only [ok, Bool.and_eq_true, and_assoc] at hok ⊢
    exact ⟨c.ok_congr hc hok.1, a.ok_congr (ha.add _) hok.2.1, b.ok_congr (hb.add _) hok.2.2.1,
      hok.2.2.2⟩
  | break_ | continue_ => simpa only [ok, h.inLoop] using hok
  | progn es | scope es =>
    simp only [ok] at hok ⊢
    exact allOk_congr es (h.mono fun y hy => by simp [hy]) hok
  | call f es =>
    simp only [ok, Bool.and_eq_true, and_assoc, h.funs] at hok ⊢
    exact ⟨hok.1, allOk_congr es (h.mono fun y hy => by simp [hy]) hok.2.1, hok.2.2⟩

theorem allOk_congr (es : List Form) {Γ Γ' : Ctx}
    (h : Agree (fun y => anyOf (isIdent y) es = true) Γ Γ') (hok : allOk es Γ = true) :
    allOk es Γ' = true := by
  cases es with
  | nil => rw [allOk]
  | cons e es =>
    have he : AgreeOn e Γ Γ' := h.mono fun y hy => by simp [hy]
    simp only [allOk, Bool.and_eq_true] at hok ⊢
    exact ⟨e.ok_congr he hok.1, allOk_congr es ((h.mono fun y hy => by simp [hy]).add _) hok.2⟩

end

end

end Form

end Dolorem.Programs
