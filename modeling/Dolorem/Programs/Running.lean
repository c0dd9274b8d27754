import Dolorem.Programs.Machine
import Dolorem.Programs.Semantics
import Dolorem.Programs.States

/-!
# Running what a form was compiled to

`At I Γ s σ c`: in the configuration `c` the code that was emitted up to the
state `s` has been run, and memory and variables are as in the store `σ`.
`Leads` says that the machine gets from one such point to another one, and
`Follows` that it does what the interpreter does, on the way to another such
point. Neither changes a register that was known before (`Same`).
-/

namespace Dolorem.Programs

open Codegen CodeGraph Words Interp

/-- The linked code contains the code emitted so far. -/
structure Image.Covers (I : Image) (s : St) : Prop where
  graph : s.graph.Sub I.graph
  fns : s.fns <+: I.fns

/-- What is known in `s` has not changed. -/
structure Same (s : St) (c c' : Config) : Prop where
  stack : c'.stack = c.stack
  val : ∀ x, Known s x → c'.m.val x = c.m.val x

/-- The registers of the variables in use hold the places of the variables. -/
inductive Places (s : St) (m : Core) :
    List (String × Option IntTy) → List FunVar → List (String × Int) → Prop
  | nil : Places s m [] [] []
  | cons {x : String} {t : Option IntTy} {v : FunVar} {a : Int}
      {Γ : List (String × Option IntTy)} {vs : List FunVar} {env : List (String × Int)} :
      v.name = x → (t.isSome → Known s v.v.ref ∧ m.read v.v = some a) → Places s m Γ vs env →
      Places s m ((x, t) :: Γ) (v :: vs) ((x, a) :: env)

structure At (I : Image) (Γ : Ctx) (s : St) (σ : Store) (c : Config) : Prop where
  pos : c.pos = s.here
  cells : c.m.mem = σ.mem.cells
  next : c.next = σ.mem.next
  places : Places s c.m Γ.vars (vars s) σ.env
  globals : ∀ m x, c.m.val (.global m x) = some (I.addr x)

/-- The result of a form at compile time. -/
structure HasTy (s : St) (t : IntTy) (l : Bool) (r : Rtv) : Prop where
  type : r.t = .integer t.width t.flag
  lval : r.lval = l
  ty : r.v.ty = if l then .ptr (.int t.width) else .int t.width
  known : Known s r.v.ref

/-- The result of a form when it has run. -/
def Holds (c : Config) (t : IntTy) (r : Rtv) : Operand → Prop
  | .val x => r.lval = false ∧ c.m.read r.v = some x ∧ Fits t.width x
  | .place a w => r.lval = true ∧ c.m.read r.v = some a ∧ w = t.width

/-- After a `break` or a `continue`. -/
def Leaves (s : St) (c : Config) (e : Exit) (c' : Config) : Prop :=
  s.whileInLoop = true ∧ Same s c c' ∧
    match e with
    | .break_ m =>
      c'.pos = ⟨s.whileLastAfterBlock.getD 0, 0⟩ ∧ c'.m.mem = m.cells ∧ c'.next = m.next
    | .continue_ m =>
      c'.pos = ⟨s.whileLastCondBlock.getD 0, 0⟩ ∧ c'.m.mem = m.cells ∧ c'.next = m.next

def Leads (I : Image) (s : St) (c : Config) (Γ : Ctx) (s' : St) (σ : Store)
    (Q : Config → Prop) : Prop :=
  ∃ c', Reaches I.step c c' ∧ At I Γ s' σ c' ∧ Same s c c' ∧ Q c'

def Follows (I : Image) (fuel : Nat) (s : St) (c : Config) {α : Type} (o : Res (α × Store))
    (Γ : Ctx) (s' : St) (Q : α → Config → Prop) : Prop :=
  Sim I.step I.Stuck fuel c o (fun r c' => At I Γ s' r.2 c' ∧ Same s c c' ∧ Q r.1 c') (Leaves s c)

variable {I : Image} {Γ Γ' Γ₁ Γ₂ : Ctx} {s s' s₁ s₂ : St} {σ σ' σ₁ : Store} {c c' c₁ c₂ : Config}
variable {t : IntTy} {r : Rtv} {v : Value} {x a : Int} {i : Instr} {fuel : Nat} {o : Operand}

theorem Image.Covers.of_extends (h : I.Covers s') (k : Extends s s') : I.Covers s :=
  ⟨k.sub.trans h.graph, k.fns_le.trans h.fns⟩

namespace Same

theorem refl (s : St) (c : Config) : Same s c c := ⟨rfl, fun _ _ => rfl⟩

theorem trans (h : Same s c c₁) (hk : Later s s₁) (k : Same s₁ c₁ c₂) : Same s c c₂ :=
  ⟨k.stack.trans h.stack, fun x hx => (k.val x (hk.known hx)).trans (h.val x hx)⟩

theorem read (h : Same s c c') (hv : Known s v.ref) : c'.m.read v = c.m.read v := by
  obtain ⟨x, l⟩ := v
  cases x with
  | const i => rfl
  | _ => exact h.val _ hv

theorem known_global (s : St) (m : Nat) (x : String) : Known s (.global m x) := by
  rintro p ⟨⟩

end Same

theorem Holds.same (hr : HasTy s t r.lval r) (h : Holds c t r o) (k : Same s c c') :
    Holds c' t r o := by
  cases o with
  | val x => exact ⟨h.1, (k.read hr.known).trans h.2.1, h.2.2⟩
  | place a w => exact ⟨h.1, (k.read hr.known).trans h.2.1, h.2.2⟩

theorem HasTy.mono {l : Bool} (h : HasTy s t l r) (k : Later s s') : HasTy s' t l r :=
  ⟨h.type, h.lval, h.ty, k.known h.known⟩

theorem Leaves.mono {e : Exit} (hk : Extends s s₁) (h : Same s c c₁) (k : Leaves s₁ c₁ e c') :
    Leaves s c e c' := by
  refine ⟨hk.whileInLoop ▸ k.1, h.trans hk.later k.2.1, ?_⟩
  have hexit := k.2.2
  rw [hk.afterBlock, hk.condBlock] at hexit
  exact hexit

namespace Places

variable {m m' : Core} {G : List (String × Option IntTy)} {vs new : List FunVar}
variable {env : List (String × Int)} {xs : List (String × Option IntTy)}

theorem mono (h : Places s m G vs env) (hk : ∀ x, Known s x → Known s' x)
    (hread : ∀ v : Value, Known s v.ref → m'.read v = m.read v) : Places s' m' G vs env := by
  induction h with
  | nil => exact .nil
  | cons hx hlive _ ih =>
    refine .cons hx (fun ht => ?_) ih
    obtain ⟨hknown, ha⟩ := hlive ht
    exact ⟨hk _ hknown, (hread _ hknown).trans ha⟩

/-- The compiler and the interpreter find the same variable. -/
theorem find {y : String} (h : Places s m G vs env) (hy : G.lookup y = some (some t)) :
    ∃ v a, vs.find? (·.name = y) = some v ∧ env.lookup y = some a ∧ m.read v.v = some a := by
  induction h with
  | nil => cases hy
  | @cons x t' v a Γ vs env hx hlive _ ih =>
    rw [List.lookup_cons] at hy
    by_cases hxy : y == x
    · rw [hxy] at hy
      cases hy
      obtain rfl := beq_iff_eq.1 hxy
      exact ⟨v, a, by rw [List.find?_cons_of_pos (by simpa using hx)], by simp, (hlive rfl).2⟩
    · rw [Bool.not_eq_true] at hxy
      rw [hxy] at hy
      obtain ⟨w, b, hw, hb, hread⟩ := ih hy
      have hne : v.name ≠ y := by
        rintro rfl
        rw [hx, beq_self_eq_true] at hxy
        cases hxy
      exact ⟨w, b, by rw [List.find?_cons_of_neg (by simpa using hne), hw],
        by rw [List.lookup_cons, hxy]; exact hb, hread⟩

theorem not_find {y : String} (h : Places s m G vs env) (hy : G.lookup y = none) :
    env.lookup y = none := by
  induction h with
  | nil => rfl
  | @cons x t' v a Γ vs env hx hlive _ ih =>
    rw [List.lookup_cons] at hy ⊢
    cases hxy : y == x with
    | true =>
      rw [hxy] at hy
      cases hy
    | false =>
      rw [hxy] at hy
      exact ih hy

/-- Variables that may have no places. -/
theorem append_hidden (h : Places s m G vs env) (hnew : List.Forall₂ (Slot s') xs new) :
    Places s m (Form.hide xs ++ G) (new ++ vs) (nowhere xs ++ env) := by
  induction hnew with
  | nil => exact h
  | cons hp _ ih =>
    refine .cons hp.name (fun ht => ?_) ih
    cases ht

end Places

end Dolorem.Programs
