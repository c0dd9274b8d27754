import Mathlib.Algebra.Group.Int.Defs
import Mathlib.Algebra.Group.Nat.Defs
import Dolorem.Codegen.Results
import Dolorem.Codegen.Staying
import Dolorem.Codegen.Syntax

/-!
# Quotations, compiled and run

A quotation is code that builds a tree when it runs. `lowerTree` is
`lower_quote` on the tree it is given, and `World.step` runs the code: a call of
a function of `list.h` makes a node, a call of a function of another module
cannot be run, and any other instruction does what the parameter `other` says.
`Means` is what a quotation stands for: the quoted tree, with every unquoted
expression run once, in order, and its value in the place of the expression.

`quote_rebuilds_iff` says that the code builds this tree exactly as long as the
functions it calls are those of the current module.
-/

namespace Dolorem.Codegen

open CodeGraph
open Reader (Sexp)

/-! ## `lower_quote` on trees -/

/-- The test for an unquoted expression, on the `car` of a cell. -/
def isUnquote (quasi : Bool) (f : Sexp) : Prop :=
  quasi = true ∧ f = .ident "quasiunquote".toList

instance (quasi : Bool) (f : Sexp) : Decidable (isUnquote quasi f) :=
  inferInstanceAs (Decidable (_ ∧ _))

section

variable (run : Nat → Bool) (read : Sexp → Except Halt Expr) (quasi : Bool)

/-- The expression in a cell that starts with `quasiunquote` is evaluated and converted. `read`
says which expression a tree is, and `d` is the `cdr` of the cell. -/
def lowerUnquote (d : Sexp) (s : St) : Except Halt (Value × St) := do
  let a ← car d
  let e ← read a
  let (res, s) ← eval run e s
  unquoteResult res s

/-- `lower_quote`. -/
def lowerTree : Sexp → St → Except Halt (Value × St)
  | .nil, s => .ok (s.buildQuote s.quoteFuns.nil [])
  | .cons f d, s =>
    if isUnquote quasi f then lowerUnquote run read d s
    else do
      let (a, s) ← lowerTree f s
      let (d, s) ← lowerTree d s
      .ok (s.buildQuote s.quoteFuns.cons [a, d])
  | .int i, s => .ok (s.buildQuote s.quoteFuns.int [⟨.const i, .int 64⟩])
  | .ident x, s => .ok (s.buildQuote s.quoteFuns.ident [⟨.str x, .ptr (.int 8)⟩])
  | .string x, s => .ok (s.buildQuote s.quoteFuns.string [⟨.str x, .ptr (.int 8)⟩])
  | .char c, s => .ok (s.buildQuote s.quoteFuns.char [⟨.const c, .int 8⟩])
  | .float _, _ => .error (.error "invalid type in lower_quote: %i")

/-- The quotation of a tree: the expressions that are unquoted in it are read. -/
def quoted : Sexp → Except Halt Quoted
  | .nil => .ok .nil
  | .cons f d =>
    if isUnquote quasi f then do
      let a ← car d
      let e ← read a
      .ok (.unquote e)
    else do
      let a ← quoted f
      let d ← quoted d
      .ok (.cons a d)
  | .int i => .ok (.int i)
  | .ident x => .ok (.ident x)
  | .string x => .ok (.string x)
  | .char c => .ok (.char c)
  | .float tok => .ok (.float tok)

/-- A float that is quoted, not unquoted. -/
def hasFloat : Sexp → Prop
  | .cons f d => ¬ isUnquote quasi f ∧ (hasFloat f ∨ hasFloat d)
  | .float _ => True
  | _ => False

/-- Lowering a tree from `s` comes to an unquoted expression, in a cell with the `cdr` `d`, in the
state `t`. -/
inductive Reaches : Sexp → St → Sexp → St → Prop
  | here {f d : Sexp} (s : St) : isUnquote quasi f → Reaches (.cons f d) s d s
  | car {f d d' : Sexp} {s t : St} :
      ¬ isUnquote quasi f → Reaches f s d' t → Reaches (.cons f d) s d' t
  | cdr {f d d' : Sexp} {s s₁ t : St} {v : Value} :
      ¬ isUnquote quasi f → lowerTree run read quasi f s = .ok (v, s₁) → Reaches d s₁ d' t →
      Reaches (.cons f d) s d' t

end

variable {run : Nat → Bool} {read : Sexp → Except Halt Expr} {quasi : Bool} {e f d : Sexp}
variable {s s' s₀ s₁ s₂ : St} {q : Quoted} {v : Value} {m : Mark} {x : Ref}

theorem lowerTree_quoted (h : quoted read quasi e = .ok q) :
    lowerTree run read quasi e s = lowerQuote run q s := by
  induction e generalizing s q with
  | nil | int _ | ident _ | string _ | char _ | float _ =>
    cases h
    rw [lowerTree, lowerQuote]
  | cons f d ihf ihd =>
    rw [quoted] at h
    rw [lowerTree]
    split at h
    · next hu =>
      obtain ⟨a, ha, h⟩ := bind_ok.1 h
      obtain ⟨e, he, h⟩ := bind_ok.1 h
      cases h
      rw [if_pos hu, lowerUnquote, ha, ok_bind, he, ok_bind, lowerQuote]
    · next hu =>
      obtain ⟨a, ha, h⟩ := bind_ok.1 h
      obtain ⟨b, hb, h⟩ := bind_ok.1 h
      cases h
      rw [if_neg hu, lowerQuote]
      simp only [ihf ha, ihd hb]

/-- Lowering reads all unquoted expressions. -/
theorem exists_quoted (h : lowerTree run read quasi e s = .ok (v, s')) :
    ∃ q, quoted read quasi e = .ok q := by
  induction e generalizing s v s' with
  | nil | int _ | ident _ | string _ | char _ | float _ => exact ⟨_, rfl⟩
  | cons f d ihf ihd =>
    rw [lowerTree] at h
    rw [quoted]
    split at h
    · next hu =>
      obtain ⟨a, ha, h⟩ := bind_ok.1 h
      obtain ⟨e, he, h⟩ := bind_ok.1 h
      rw [if_pos hu, ha, ok_bind, he]
      exact ⟨_, rfl⟩
    · next hu =>
      obtain ⟨⟨va, s₁⟩, ha, h⟩ := bind_ok.1 h
      obtain ⟨⟨vd, s₂⟩, hd, h⟩ := bind_ok.1 h
      obtain ⟨a, ha⟩ := ihf ha
      obtain ⟨b, hb⟩ := ihd hd
      rw [if_neg hu, ha, ok_bind, hb]
      exact ⟨_, rfl⟩

/-- Lowering fails at a quoted float, or at an unquoted expression, and nowhere else. -/
theorem lowerTree_error_iff : (∃ x, lowerTree run read quasi e s = .error x) ↔
    hasFloat quasi e ∨
      ∃ d t x, Reaches run read quasi e s d t ∧ lowerUnquote run read d t = .error x := by
  induction e generalizing s with
  | nil | int _ | ident _ | string _ | char _ =>
    refine iff_of_false (fun ⟨_, h⟩ => nomatch h) ?_
    rintro (h | ⟨_, _, _, h, -⟩)
    · exact h
    · cases h
  | float tok => exact iff_of_true ⟨_, rfl⟩ (.inl trivial)
  | cons f d ihf ihd =>
    rw [lowerTree]
    by_cases hu : isUnquote quasi f
    · rw [if_pos hu]
      constructor
      · rintro ⟨x, h⟩
        exact .inr ⟨d, s, x, .here s hu, h⟩
      · rintro (⟨h, -⟩ | ⟨d', t, x, h, hx⟩)
        · exact absurd hu h
        · cases h with
          | here => exact ⟨x, hx⟩
          | car h | cdr h => exact absurd hu h
    · rw [if_neg hu]
      cases hf : lowerTree run read quasi f s with
      | error x =>
        refine iff_of_true ⟨x, rfl⟩ ?_
        rcases (ihf (s := s)).1 ⟨x, hf⟩ with h | ⟨d', t, y, h, hy⟩
        · exact .inl ⟨hu, .inl h⟩
        · exact .inr ⟨d', t, y, .car hu h, hy⟩
      | ok p =>
        obtain ⟨va, s₁⟩ := p
        have hok : ¬ ∃ x, lowerTree run read quasi f s = .error x := by
          rintro ⟨x, h⟩
          rw [hf] at h
          cases h
        -- the first element is not to blame
        have hclear := mt (ihf (s := s)).2 hok
        rw [ok_bind]
        constructor
        · rintro ⟨x, h⟩
          rcases bind_error.1 h with h | ⟨p, -, h⟩
          · rcases ihd.1 ⟨x, h⟩ with h | ⟨d', t, y, h, hy⟩
            · exact .inl ⟨hu, .inr h⟩
            · exact .inr ⟨d', t, y, .cdr hu hf h, hy⟩
          · cases h
        · rintro (⟨-, h | h⟩ | ⟨d', t, x, h, hx⟩)
          · exact absurd (.inl h) hclear
          · obtain ⟨x, hx⟩ := ihd.2 (.inl h)
            exact ⟨x, bind_error.2 (.inl hx)⟩
          · cases h with
            | here _ h => exact absurd h hu
            | car _ h => exact absurd (.inr ⟨d', t, x, h, hx⟩) hclear
            | cdr _ h₁ h =>
              rw [hf] at h₁
              cases h₁
              obtain ⟨y, hy⟩ := ihd.2 (.inr ⟨d', t, x, h, hx⟩)
              exact ⟨y, bind_error.2 (.inl hy)⟩

/-! ## Running the code -/

/-- A tree in memory. The code does not look into what it did not build itself: `value` is a
value of type `val` it has got from somewhere. -/
inductive Tree (P : Type) where
  | nil
  | cons (a d : Tree P)
  | int (i : Int)
  | float (tok : List Char)
  | string (s : List Char)
  | ident (x : List Char)
  | char (c : Int)
  | value (p : P)
deriving DecidableEq, Repr

/-- The tree that is equal to `e`. -/
def Tree.ofSexp {P : Type} : Sexp → Tree P
  | .nil => .nil
  | .cons a d => .cons (ofSexp a) (ofSexp d)
  | .int i => .int i
  | .float tok => .float tok
  | .string s => .string s
  | .ident x => .ident x
  | .char c => .char c

/-- What running code sees: the next instruction, the trees its values point to, and everything
else. -/
structure World (P M : Type) where
  pos : Pos
  tree : Ref → Option (Tree P)
  rest : M

/-- The functions of `list.h` that the code of a quotation calls. -/
inductive ListFun where
  | cons
  | nil
  | int
  | string
  | ident
  | char
deriving DecidableEq, Repr

def ListFun.name : ListFun → String
  | cons => "cons"
  | nil => "make_nil_val"
  | int => "make_int_val"
  | string => "make_string_val"
  | ident => "make_ident_val"
  | char => "make_char_val"

/-- The static variable for a function. -/
def QuoteFuns.get (q : QuoteFuns) : ListFun → Value
  | .cons => q.cons
  | .nil => q.nil
  | .int => q.int
  | .string => q.string
  | .ident => q.ident
  | .char => q.char

section

variable {P M : Type}

/-- What a function of `list.h` returns. An argument of type `char` has 8 bits. -/
def ListFun.result (tree : Ref → Option (Tree P)) : ListFun → List Ref → Option (Tree P)
  | cons, [a, d] => (tree a).bind fun a => (tree d).map fun d => .cons a d
  | nil, [] => some .nil
  | int, [.const i] => some (.int i)
  | string, [.str s] => some (.string s)
  | ident, [.str x] => some (.ident x)
  | char, [.const c] => some (.char (c.bmod (2 ^ 8)))
  | _, _ => none

namespace World

/-- The result of the next instruction, and on to the instruction after it. -/
def put (w : World P M) (t : Tree P) : World P M :=
  { w with
    pos := w.pos.skip 1
    tree := fun x => if x = .inst w.pos then some t else w.tree x }

/-- What an instruction does that is not a call of a function of `list.h`: where control goes, its
result, if that is a tree, and everything else. Without a result it cannot be run. -/
abbrev Other (P M : Type) : Type := Instr → World P M → Option (Pos × Option (Tree P) × M)

/-- The other instructions have no other results than their own. -/
def goOn (other : Other P M) (i : Instr) (w : World P M) : Option (World P M) :=
  (other i w).map fun r => ⟨r.1, fun x => if x = .inst w.pos then r.2.1 else w.tree x, r.2.2⟩

/-- The instruction `i` is executed, in a function of the current module. -/
def exec (other : Other P M) (s : St) (i : Instr) (w : World P M) : Option (World P M) :=
  match i with
  | .call ⟨.fn id, ty⟩ args =>
    match s.fns[id]? with
    | none => none
    | some lf =>
      if lf.mod ≠ s.mod then none
      else
        match [ListFun.cons, .nil, .int, .string, .ident, .char].find?
            fun g => lf.name = some g.name with
        | none => goOn other (.call ⟨.fn id, ty⟩ args) w
        | some g =>
          match g.result w.tree (args.map (·.ref)) with
          | none => goOn other (.call ⟨.fn id, ty⟩ args) w
          | some t => some (w.put t)
  | i => goOn other i w

/-- The next instruction is executed. -/
def step (other : Other P M) (s : St) (w : World P M) : Option (World P M) :=
  (s.graph.at? w.pos).bind fun i => w.exec other s i

end World

/-- Running the code that was emitted from `s` to `s'` leads from `w` to `w'`. -/
def Proceeds (other : World.Other P M) (s s' : St) : World P M → World P M → Prop :=
  Relation.ReflTransGen fun w w' => s.graph.at? w.pos = none ∧ w.step other s' = some w'

/-- What a quotation stands for that is lowered from `s`: the code starts with the world `w`, its
result is `t`, and then the world is `w'`. Each node takes one instruction. -/
inductive Means (run : Nat → Bool) (other : World.Other P M) :
    Quoted → St → World P M → Tree P → World P M → Prop
  | nil {s : St} {w : World P M} : w.pos = s.here → Means run other .nil s w .nil (w.put .nil)
  | int {i : Int} {s : St} {w : World P M} :
      w.pos = s.here → Means run other (.int i) s w (.int i) (w.put (.int i))
  | string {x : List Char} {s : St} {w : World P M} :
      w.pos = s.here → Means run other (.string x) s w (.string x) (w.put (.string x))
  | ident {x : List Char} {s : St} {w : World P M} :
      w.pos = s.here → Means run other (.ident x) s w (.ident x) (w.put (.ident x))
  | char {c : Int} {s : St} {w : World P M} :
      w.pos = s.here → Means run other (.char c) s w (.char c) (w.put (.char c))
  | cons {a d : Quoted} {s s₁ : St} {v : Value} {w w₁ w₂ : World P M} {ta td : Tree P} :
      Means run other a s w ta w₁ → lowerQuote run a s = .ok (v, s₁) →
      Means run other d s₁ w₁ td w₂ →
      Means run other (.cons a d) s w (.cons ta td) (w₂.put (.cons ta td))
  | unquote {e : Expr} {s s' : St} {v : Value} {w w' : World P M} {t : Tree P} :
      lowerQuote run (.unquote e) s = .ok (v, s') → w.pos = s.here →
      Proceeds other s s' w w' → w'.pos = s'.here → w'.tree v.ref = some t →
      Means run other (.unquote e) s w t w'

variable {other : World.Other P M} {w w' w₁ w₂ u : World P M} {t ta td : Tree P} {i : Instr}
variable {g : ListFun} {args : List Value} {k : Nat}

/-! ### Steps -/

theorem at?_here (s : St) : s.graph.at? s.here = none :=
  List.getElem?_eq_none le_rfl

theorem at?_none_of_sub {p : Pos} (hsub : s.graph.Sub s'.graph) (h : s'.graph.at? p = none) :
    s.graph.at? p = none := by
  cases hp : s.graph.at? p with
  | none => rfl
  | some i =>
    rw [hsub p i hp] at h
    cases h

/-- A call of a function of the current module makes a node. -/
theorem exec_here (hf : Names s s.mod g.name v)
    (ht : g.result w.tree (args.map (·.ref)) = some t) :
    w.exec other s (.call v args) = some (w.put t) := by
  obtain ⟨id, ty, href, hid⟩ := hf
  obtain ⟨ref, lty⟩ := v
  cases href
  have hfind : [ListFun.cons, .nil, .int, .string, .ident, .char].find?
      (fun h => some g.name = some h.name) = some g := by
    cases g <;> decide
  simp only [World.exec, hid, ne_eq, not_true_eq_false, if_false, hfind, ht]

/-- A function of another module cannot be called. -/
theorem exec_away {name : String} (hf : Names s k name v) (hk : k ≠ s.mod) :
    w.exec other s (.call v args) = none := by
  obtain ⟨id, ty, href, hid⟩ := hf
  obtain ⟨ref, lty⟩ := v
  cases href
  simp only [World.exec, hid, ne_eq, hk, not_false_eq_true, if_true]

theorem goOn_tree (h : World.goOn other i w = some w') (hx : x ≠ .inst w.pos) :
    w'.tree x = w.tree x := by
  obtain ⟨r, -, rfl⟩ := Option.map_eq_some_iff.1 h
  exact if_neg hx

theorem put_tree (w : World P M) (t : Tree P) (hx : x ≠ .inst w.pos) :
    (w.put t).tree x = w.tree x :=
  if_neg hx

/-- An instruction has no other result than its own. -/
theorem step_tree (h : w.step other s = some w') (hx : x ≠ .inst w.pos) :
    w'.tree x = w.tree x := by
  obtain ⟨i, -, h⟩ := Option.bind_eq_some_iff.1 h
  unfold World.exec at h
  split at h
  · split at h
    · cases h
    · split at h
      · cases h
      · split at h
        · exact goOn_tree h hx
        · split at h
          · exact goOn_tree h hx
          · cases h
            exact put_tree w _ hx
  · exact goOn_tree h hx

/-- Code that is emitted later does not change a step. -/
theorem step_mono (h : w.step other s = some w') (hs : Evolves s s') :
    w.step other s' = some w' := by
  obtain ⟨i, hi, h⟩ := Option.bind_eq_some_iff.1 h
  refine Option.bind_eq_some_iff.2 ⟨i, hs.grows.sub _ i hi, ?_⟩
  unfold World.exec at h ⊢
  split at h
  · next id ty args =>
    split at h
    · cases h
    · next lf hid =>
      obtain ⟨more, hmore⟩ := hs.fns
      have hid' : s'.fns[id]? = some lf := by
        rw [← hmore, List.getElem?_append_left (List.getElem?_eq_some_iff.1 hid).1, hid]
      simp only [hid', hs.mod]
      exact h
  · exact h

namespace Proceeds

theorem trans (h : Proceeds other s s' w w₁) (k : Proceeds other s s' w₁ w₂) :
    Proceeds other s s' w w₂ :=
  Relation.ReflTransGen.trans h k

theorem mono (h : Proceeds other s s₁ w w') (hs : Evolves s₁ s') : Proceeds other s s' w w' :=
  Relation.ReflTransGen.mono (fun _ _ k => ⟨k.1, step_mono k.2 hs⟩) _ _ h

theorem from_earlier (h : Proceeds other s₁ s' w w') (hs : Evolves s s₁) :
    Proceeds other s s' w w' :=
  Relation.ReflTransGen.mono (fun _ _ k => ⟨at?_none_of_sub hs.grows.sub k.1, k.2⟩) _ _ h

/-- What was computed before stays. -/
theorem tree (h : Proceeds other s s' w w') (hx : Emitted s x) : w'.tree x = w.tree x := by
  induction h with
  | refl => rfl
  | @tail u w' _ k ih =>
    refine (step_tree k.2 ?_).trans ih
    rintro rfl
    obtain ⟨i, hi⟩ := hx _ rfl
    rw [k.1] at hi
    cases hi

end Proceeds

/-! ### What the code of a quotation leaves -/

theorem Emitted.ne_here (hx : Emitted s x) : x ≠ .inst s.here := by
  rintro rfl
  obtain ⟨i, hi⟩ := hx _ rfl
  rw [at?_here] at hi
  cases hi

namespace Means

theorem put_here (hs : Building s) (hw : w.pos = s.here) (f : Value) (args : List Value)
    (t : Tree P) : (w.put t).pos = (s.buildQuote f args).2.here := by
  show w.pos.skip 1 = (s.emitAll [.call f args]).here
  rw [hw, here_emitAll hs]
  rfl

theorem arrives (h : Means run other q s w t w') (hs : Building s)
    (hr : lowerQuote run q s = .ok (v, s')) : w'.pos = s'.here := by
  induction h generalizing v s' with
  | nil h | int h | string h | ident h | char h =>
    rw [lowerQuote] at hr
    cases hr
    exact put_here hs h _ _ _
  | @cons a d s s₁ va w w₁ w₂ ta td _ ha _ _ ihd =>
    rw [lowerQuote, ha, ok_bind] at hr
    obtain ⟨⟨vd, s₂⟩, hd, hr⟩ := bind_ok.1 hr
    cases hr
    have hs₁ := lowerQuote_evolves run a hs ha
    exact put_here (lowerQuote_evolves run d hs₁.building hd).building
      (ihd hs₁.building hd) _ _ _
  | unquote h₁ _ _ h₂ _ =>
    rw [h₁] at hr
    cases hr
    exact h₂

/-- The value of the quotation. -/
theorem value (h : Means run other q s w t w') (hs : Building s)
    (hr : lowerQuote run q s = .ok (v, s')) : w'.tree v.ref = some t := by
  cases h with
  | nil h | int h | string h | ident h | char h =>
    rw [lowerQuote] at hr
    cases hr
    exact if_pos (congrArg Ref.inst h.symm)
  | cons _ ha hd =>
    rw [lowerQuote, ha, ok_bind] at hr
    obtain ⟨⟨vd, s₂⟩, hvd, hr⟩ := bind_ok.1 hr
    cases hr
    have hs₁ := lowerQuote_evolves run _ hs ha
    exact if_pos (congrArg Ref.inst (hd.arrives hs₁.building hvd).symm)
  | unquote h₁ _ _ _ ht =>
    rw [h₁] at hr
    cases hr
    exact ht

/-- What was computed before stays. -/
theorem tree (h : Means run other q s w t w') (hs : Building s)
    (hr : lowerQuote run q s = .ok (v, s')) (hx : Emitted s x) : w'.tree x = w.tree x := by
  induction h generalizing v s' with
  | nil h | int h | string h | ident h | char h => exact put_tree _ _ (h ▸ hx.ne_here)
  | @cons a d s s₁ va w w₁ w₂ ta td _ ha hd iha ihd =>
    rw [lowerQuote, ha, ok_bind] at hr
    obtain ⟨⟨vd, s₂⟩, hvd, hr⟩ := bind_ok.1 hr
    have hs₁ := lowerQuote_evolves run a hs ha
    have hs₂ := hs₁.trans (lowerQuote_evolves run d hs₁.building hvd)
    have hlast : x ≠ .inst w₂.pos :=
      hd.arrives hs₁.building hvd ▸ (hx.sub hs₂.grows.sub).ne_here
    exact (put_tree w₂ _ hlast).trans
      ((ihd hs₁.building hvd (hx.sub hs₁.grows.sub)).trans (iha hs ha hx))
  | unquote _ _ h _ _ => exact h.tree hx

end Means

/-! ### Which functions the code calls -/

/-- `Steady` in the middle of a quotation, with the mark `m` so far. -/
def SteadyFrom (run : Nat → Bool) (q : Quoted) (s : St) (m : Mark) : Prop :=
  ∀ m', Emits run q s m m' → m'.cache = .here

theorem steadyFrom_cons {a d : Quoted} {va vd : Value} (ha : lowerQuote run a s = .ok (va, s₁))
    (hd : lowerQuote run d s₁ = .ok (vd, s₂)) : SteadyFrom run (.cons a d) s m ↔
      SteadyFrom run a s m ∧ SteadyFrom run d s₁ (a.mark run s.precompiled m) ∧
        (d.mark run s.precompiled (a.mark run s.precompiled m)).cache = .here := by
  constructor
  · intro h
    exact ⟨fun m' hm => h m' (.car hm), fun m' hm => h m' (.cdr ha hm), h _ (.cons ha hd)⟩
  · rintro ⟨hcar, hcdr, hcons⟩ m' hm
    cases hm with
    | car hm => exact hcar m' hm
    | cdr h₁ hm =>
      rw [ha] at h₁
      cases h₁
      exact hcdr m' hm
    | cons => exact hcons

theorem CachedIn.get (h : CachedIn s k) (g : ListFun) : Names s k g.name (s.quoteFuns.get g) := by
  cases g
  exacts [h.cons, h.nil, h.int, h.string, h.ident, h.char]

/-- The next instruction calls a function of another module. -/
def Stuck (s : St) (w : World P M) : Prop :=
  ∃ f args name k, s.graph.at? w.pos = some (.call f args) ∧ Names s k name f ∧ k ≠ s.mod

namespace Stuck

theorem mono (h : Stuck s w) (hs : Evolves s s') : Stuck s' w := by
  obtain ⟨f, args, name, k, hat, hf, hk⟩ := h
  exact ⟨f, args, name, k, hs.grows.sub _ _ hat, hf.mono hs.fns, hs.mod ▸ hk⟩

theorem step_eq_none (h : Stuck s w) : w.step other s = none := by
  obtain ⟨f, args, name, k, hat, hf, hk⟩ := h
  rw [World.step, hat, Option.bind_some, exec_away hf hk]

theorem ne_here (h : Stuck s w) : w.pos ≠ s.here := by
  obtain ⟨f, args, name, k, hat, -, -⟩ := h
  intro hw
  rw [hw, at?_here] at hat
  cases hat

end Stuck

variable (other) in
/-- A call that is just emitted runs if the static variables are functions of the current module,
and only then. -/
theorem call_runs (hs : Building s) (hw : w.pos = s.here) (hm : Marks s₀ m s)
    (hkept : m.cache ≠ .kept) (hmod : s₀.mod < s₀.mods)
    (ht : g.result w.tree (args.map (·.ref)) = some t) :
    (m.cache = .here → Proceeds other s (s.buildQuote (s.quoteFuns.get g) args).2 w (w.put t)) ∧
      (m.cache ≠ .here → Stuck (s.buildQuote (s.quoteFuns.get g) args).2 w) := by
  have hat : (s.buildQuote (s.quoteFuns.get g) args).2.graph.at? w.pos =
      some (.call (s.quoteFuns.get g) args) :=
    hw ▸ Cfg.at?_append_endOf s.graph hs.lt _ []
  constructor
  · intro hhere
    have hf : Names s s.mod g.name (s.quoteFuns.get g) := by
      have hsays := hm.cache
      rw [hhere] at hsays
      exact CachedIn.get hsays g
    refine .single ⟨hw ▸ at?_here s, ?_⟩
    rw [World.step, hat, Option.bind_some]
    exact exec_here hf ht
  · intro hhere
    have haway : ∃ k, s₀.mods ≤ k ∧ CachedIn s k := by
      have hsays := hm.cache
      cases hc : m.cache with
      | kept => exact absurd hc hkept
      | here => exact absurd hc hhere
      | away =>
        rw [hc] at hsays
        exact hsays
    obtain ⟨k, hk, hin⟩ := haway
    refine ⟨_, args, g.name, k, hat, hin.get g, ?_⟩
    exact Nat.ne_of_gt (hm.mod ▸ hmod.trans_le hk)

/-- The characters in a quotation are of type `char`. -/
def Quoted.Fits : Quoted → Prop
  | .cons a d => a.Fits ∧ d.Fits
  | .char c => -128 ≤ c ∧ c < 128
  | _ => True

theorem bmod_char {c : Int} (h : -128 ≤ c ∧ c < 128) : c.bmod (2 ^ 8) = c :=
  Int.bmod_eq_of_le (by omega) (by omega)

/-- A node without parts. -/
theorem atom_runs (hs : Building s) (hw : w.pos = s.here) (hm : Marks s₀ m s)
    (hkept : m.cache ≠ .kept) (hmod : s₀.mod < s₀.mods)
    (hemits : ∀ m', Emits run q s m m' ↔ m' = m)
    (ht : g.result w.tree (args.map (·.ref)) = some t) :
    (SteadyFrom run q s m →
        Proceeds other s (s.buildQuote (s.quoteFuns.get g) args).2 w (w.put t)) ∧
      (¬ SteadyFrom run q s m →
        ∃ u, Proceeds other s (s.buildQuote (s.quoteFuns.get g) args).2 w u ∧
          Stuck (s.buildQuote (s.quoteFuns.get g) args).2 u) := by
  obtain ⟨hgo, hstuck⟩ := call_runs other hs hw hm hkept hmod ht
  have hsteady : SteadyFrom run q s m ↔ m.cache = .here :=
    ⟨fun h => h m ((hemits m).2 rfl), fun h m' hm' => (hemits m').1 hm' ▸ h⟩
  rw [hsteady]
  exact ⟨hgo, fun h => ⟨w, .refl, hstuck h⟩⟩

/-- The code of a quotation does what the quotation means if it calls functions of the current
module only; otherwise it comes to a call that cannot be run. -/
theorem Means.runs (h : Means run other q s w t w') (hs : Settled s)
    (hf : ∀ e t, Unquotes run q s e t → Formed run e t) (hm : Marks s₀ m s)
    (hkept : m.cache ≠ .kept) (hmod : s₀.mod < s₀.mods) (hfit : q.Fits)
    (hr : lowerQuote run q s = .ok (v, s')) :
    (SteadyFrom run q s m → Proceeds other s s' w w') ∧
      (¬ SteadyFrom run q s m → ∃ u, Proceeds other s s' w u ∧ Stuck s' u) := by
  induction h generalizing v s' m with
  | nil hw =>
    rw [lowerQuote] at hr
    cases hr
    exact atom_runs (g := .nil) hs.building hw hm hkept hmod
      (fun m' => ⟨fun h => by cases h; rfl, by rintro rfl; exact .nil _ _⟩) rfl
  | int hw =>
    rw [lowerQuote] at hr
    cases hr
    exact atom_runs (g := .int) hs.building hw hm hkept hmod
      (fun m' => ⟨fun h => by cases h; rfl, by rintro rfl; exact .int _ _ _⟩) rfl
  | string hw =>
    rw [lowerQuote] at hr
    cases hr
    exact atom_runs (g := .string) hs.building hw hm hkept hmod
      (fun m' => ⟨fun h => by cases h; rfl, by rintro rfl; exact .string _ _ _⟩) rfl
  | ident hw =>
    rw [lowerQuote] at hr
    cases hr
    exact atom_runs (g := .ident) hs.building hw hm hkept hmod
      (fun m' => ⟨fun h => by cases h; rfl, by rintro rfl; exact .ident _ _ _⟩) rfl
  | char hw =>
    rw [lowerQuote] at hr
    cases hr
    refine atom_runs (g := .char) hs.building hw hm hkept hmod
      (fun m' => ⟨fun h => by cases h; rfl, by rintro rfl; exact .char _ _ _⟩) ?_
    exact congrArg (fun c => some (Tree.char c)) (bmod_char hfit)
  | @cons a d s s₁ va w w₁ w₂ ta td ha hva hd iha ihd =>
    rw [lowerQuote, hva, ok_bind] at hr
    obtain ⟨⟨vd, s₂⟩, hvd, hr⟩ := bind_ok.1 hr
    cases hr
    obtain ⟨hs₁, hemitted⟩ := lowerQuote_settles run a hs (fun e t k => hf e t (.car k)) hva
    have hs₂ := (lowerQuote_evolves run d hs₁.building hvd)
    have hcall : Evolves s₂ (s₂.buildQuote s₂.quoteFuns.cons [va, vd]).2 :=
      .emitAll hs₂.building _
    have hm₁ := lowerQuote_marks run a hm hva
    have hm₂ := lowerQuote_marks run d hm₁ hvd
    rw [← hm.precompiled] at hm₁ hm₂
    have hkept₁ : (a.mark run s.precompiled m).cache ≠ .kept :=
      Quoted.mark_ne_kept run _ a hkept
    have hkept₂ := Quoted.mark_ne_kept run s.precompiled d hkept₁
    have hcar := iha hs (fun e t k => hf e t (.car k)) hm hkept hfit.1 hva
    have hcdr := ihd hs₁ (fun e t k => hf e t (.cdr hva k)) hm₁ hkept₁ hfit.2 hvd
    -- the first operand was computed before the code of the second one ran
    have hva' := (hd.tree hs₁.building hvd hemitted).trans (ha.value hs.building hva)
    have hnode : ListFun.cons.result w₂.tree ([va, vd].map (·.ref)) = some (.cons ta td) := by
      show (w₂.tree va.ref).bind _ = _
      rw [hva', Option.bind_some, hd.value hs₁.building hvd, Option.map_some]
    have hcons := call_runs other hs₂.building (hd.arrives hs₁.building hvd) hm₂ hkept₂ hmod hnode
    have hs₀₁ := lowerQuote_evolves run a hs.building hva
    rw [steadyFrom_cons hva hvd]
    -- the first of the three steps that is not steady is where the run gets stuck
    by_cases h₁ : SteadyFrom run a s m
    · have hgo₁ := (hcar.1 h₁).mono (hs₂.trans hcall)
      by_cases h₂ : SteadyFrom run d s₁ (a.mark run s.precompiled m)
      · have hgo₂ := hgo₁.trans (((hcdr.1 h₂).mono hcall).from_earlier hs₀₁)
        by_cases h₃ : (d.mark run s.precompiled (a.mark run s.precompiled m)).cache = .here
        · have hgo₃ := (hcons.1 h₃).from_earlier (hs₀₁.trans hs₂)
          exact ⟨fun _ => hgo₂.trans hgo₃, fun h => absurd ⟨h₁, h₂, h₃⟩ h⟩
        · exact ⟨fun h => absurd h.2.2 h₃, fun _ => ⟨w₂, hgo₂, hcons.2 h₃⟩⟩
      · obtain ⟨u, hu, hstuck⟩ := hcdr.2 h₂
        have hgo := hgo₁.trans ((hu.mono hcall).from_earlier hs₀₁)
        exact ⟨fun h => absurd h.2.1 h₂, fun _ => ⟨u, hgo, hstuck.mono hcall⟩⟩
    · obtain ⟨u, hu, hstuck⟩ := hcar.2 h₁
      have hlater := hs₂.trans hcall
      exact ⟨fun h => absurd h.1 h₁, fun _ => ⟨u, hu.mono hlater, hstuck.mono hlater⟩⟩
  | unquote h₁ _ hrun _ _ =>
    rw [h₁] at hr
    cases hr
    exact ⟨fun _ => hrun, fun h => absurd (fun m' hm' => nomatch hm') h⟩

/-- Code that gets stuck does not come to its end. -/
theorem Stuck.not_proceeds (hstuck : Stuck s' u) (hu : Proceeds other s s' w u)
    (h : Proceeds other s s' w w') : w'.pos ≠ s'.here := by
  intro hw
  have hend : w'.step other s' = none := by
    rw [World.step, hw, at?_here, Option.bind_none]
  rcases Relation.ReflTransGen.total_of_right_unique
    (fun _ _ _ h k => Option.some_inj.1 (h.2.symm.trans k.2)) h hu with k | k
  · rcases Relation.ReflTransGen.cases_head k with rfl | ⟨_, hstep, -⟩
    · exact hstuck.ne_here hw
    · rw [hend] at hstep
      exact nomatch hstep.2
  · rcases Relation.ReflTransGen.cases_head k with rfl | ⟨_, hstep, -⟩
    · exact hstuck.ne_here hw
    · rw [hstuck.step_eq_none] at hstep
      exact nomatch hstep.2

/-! ### `quote` -/

/-- Nothing is unquoted in a `quote`. -/
theorem not_isUnquote (f : Sexp) : ¬ isUnquote false f := fun h => nomatch h.1

/-- The parts of a cell are quoted one by one. -/
theorem quoted_cons (h : quoted read false (.cons f d) = .ok q) :
    ∃ a b, quoted read false f = .ok a ∧ quoted read false d = .ok b ∧ q = .cons a b := by
  rw [quoted, if_neg (not_isUnquote f)] at h
  obtain ⟨a, ha, h⟩ := bind_ok.1 h
  obtain ⟨b, hb, h⟩ := bind_ok.1 h
  cases h
  exact ⟨a, b, ha, hb, rfl⟩

/-- A tree without floats means itself. -/
theorem exists_means (h : quoted read false e = .ok q) (hf : ¬ hasFloat false e) (hs : Building s)
    (hw : w.pos = s.here) :
    ∃ v s' w', lowerQuote run q s = .ok (v, s') ∧ Means run other q s w (.ofSexp e) w' := by
  induction e generalizing s w q with
  | nil =>
    cases h
    exact ⟨_, _, _, by rw [lowerQuote], .nil hw⟩
  | int i =>
    cases h
    exact ⟨_, _, _, by rw [lowerQuote], .int hw⟩
  | ident x =>
    cases h
    exact ⟨_, _, _, by rw [lowerQuote], .ident hw⟩
  | string x =>
    cases h
    exact ⟨_, _, _, by rw [lowerQuote], .string hw⟩
  | char c =>
    cases h
    exact ⟨_, _, _, by rw [lowerQuote], .char hw⟩
  | float tok => exact absurd trivial hf
  | cons f d ihf ihd =>
    obtain ⟨a, b, ha, hb, rfl⟩ := quoted_cons h
    obtain ⟨va, s₁, w₁, hva, hcar⟩ :=
      ihf ha (fun h => hf ⟨not_isUnquote f, .inl h⟩) hs hw
    have hs₁ := (lowerQuote_evolves run a hs hva).building
    obtain ⟨vd, s₂, w₂, hvd, hcdr⟩ :=
      ihd hb (fun h => hf ⟨not_isUnquote f, .inr h⟩) hs₁ (hcar.arrives hs hva)
    have hr : lowerQuote run (.cons a b) s =
        .ok (s₂.buildQuote s₂.quoteFuns.cons [va, vd]) := by
      simp only [lowerQuote, hva, hvd, ok_bind]
    exact ⟨_, _, _, hr, .cons hcar hva hcdr⟩

/-- Nothing happens to the static variables. -/
theorem quoted_mark (h : quoted read false e = .ok q) (b : Bool) (m : Mark) :
    q.mark run b m = m := by
  induction e generalizing q m with
  | nil | int _ | ident _ | string _ | char _ | float _ =>
    cases h
    rw [Quoted.mark]
  | cons f d ihf ihd =>
    obtain ⟨a, c, ha, hc, rfl⟩ := quoted_cons h
    rw [Quoted.mark, ihf ha, ihd hc]

theorem steadyFrom_quoted (h : quoted read false e = .ok q) (hm : m.cache = .here) :
    SteadyFrom run q s m := by
  induction e generalizing q s with
  | nil | int _ | ident _ | string _ | char _ =>
    cases h
    intro m' k
    cases k
    exact hm
  | float _ =>
    cases h
    intro m' k
    cases k
  | cons f d ihf ihd =>
    obtain ⟨a, c, ha, hc, rfl⟩ := quoted_cons h
    intro m' k
    cases k with
    | car k => exact ihf ha m' k
    | cdr _ k =>
      rw [quoted_mark ha] at k
      exact ihd hc m' k
    | cons =>
      rw [quoted_mark ha, quoted_mark hc]
      exact hm

/-- What `lower_quote` is for. It fails at a quoted float, or where an unquoted expression does;
otherwise its code builds the tree the quotation means exactly as long as it calls functions of the
current module. -/
theorem quote_rebuilds_iff (run : Nat → Bool) (read : Sexp → Except Halt Expr) (quasi : Bool)
    (other : World.Other P M) (e : Sexp) (s : St) (hs : Settled s) (hmod : s.mod < s.mods) :
    ((∃ x, lowerTree run read quasi e s.setupQuote = .error x) ↔ hasFloat quasi e ∨
      ∃ d t x, Reaches run read quasi e s.setupQuote d t ∧ lowerUnquote run read d t = .error x) ∧
    ∀ v s', lowerTree run read quasi e s.setupQuote = .ok (v, s') →
      ∃ q, quoted read quasi e = .ok q ∧ (q.Fits →
        (∀ a t, Unquotes run q s.setupQuote a t → Formed run a t) →
        (∀ w t w', Means run other q s.setupQuote w t w' →
          (Proceeds other s.setupQuote s' w w' ∧ w'.pos = s'.here ∧ w'.tree v.ref = some t ↔
            Steady run q s)) ∧
        (quasi = false → Steady run q s ∧ ∀ w, w.pos = s.setupQuote.here →
          ∃ w', Means run other q s.setupQuote w (.ofSexp e) w')) := by
  refine ⟨lowerTree_error_iff, fun v s' hr => ?_⟩
  obtain ⟨q, hq⟩ := exists_quoted hr
  refine ⟨q, hq, fun hfit hf => ⟨fun w t w' h => ?_, ?_⟩⟩
  · rw [lowerTree_quoted hq] at hr
    have hset := hs.setupQuote
    have hend := h.arrives hset.building hr
    obtain ⟨hgo, hstuck⟩ := h.runs hset hf (Marks.start s).setupQuote (fun hc => nomatch hc)
      hmod hfit hr
    refine ⟨fun hprop => ?_, fun k => ⟨hgo k, hend, h.value hset.building hr⟩⟩
    by_contra hsteady
    obtain ⟨u, hu, hstuck⟩ := hstuck hsteady
    exact hstuck.not_proceeds hu hprop.1 hend
  · rintro rfl
    have hclear : ¬ hasFloat false e := by
      intro hfloat
      have hfails : ∃ x, lowerTree run read false e s.setupQuote = .error x :=
        lowerTree_error_iff.2 (.inl hfloat)
      obtain ⟨x, hx⟩ := hfails
      rw [hx] at hr
      cases hr
    refine ⟨steadyFrom_quoted hq rfl, fun w hw => ?_⟩
    obtain ⟨-, -, w', -, h⟩ : ∃ v s' w', lowerQuote run q s.setupQuote = .ok (v, s') ∧
        Means run other q s.setupQuote w (.ofSexp e) w' :=
      exists_means hq hclear hs.setupQuote.building hw
    exact ⟨w', h⟩

end

/-! ### Two quotations -/

/-- The tree `(progn (defun g ((val x)) val (quote)) x)`. -/
def defineG : Sexp :=
  let x := Sexp.ident ['x']
  let val := Sexp.ident "val".toList
  .ofList [.ident "progn".toList,
    .ofList [.ident "defun".toList, .ident ['g'], .ofList [.ofList [val, x]], val,
      .ofList [.ident "quote".toList]], x]

/-- What `eval` takes identifiers and `defineG` for. -/
def readForm : Sexp → Except Halt Expr
  | .ident x => .ok (.ident (String.ofList x))
  | e =>
    if e = defineG then .ok (.progn [.defun (valFun "g") (.quote .nil), .ident "x"])
    else .error (.error "unknown function \"%s\"")

/-- The cell of an unquoted expression. -/
def unquoting (e : Sexp) : Sexp := .ofList [.ident "quasiunquote".toList, e]

/-- Variables can be read; they have one value. -/
def loads : World.Other Unit Unit
  | .load _, w => some (w.pos.skip 1, some (.value ()), ())
  | _, _ => none

/-- A function with the parameter `x` is begun. -/
def inF : St := enterFunction (valFun "f") false (emptyUnit.register (valFun "f"))

/-- Nothing was computed yet. -/
def atStart : World Unit Unit := ⟨inF.setupQuote.here, fun _ => none, ()⟩

theorem formed_ident (x : String) (s : St) : Formed run (.ident x) s := by
  intro ks r t hv
  rcases Relation.ReflTransGen.cases_head hv with h | ⟨_, hsub, -⟩
  · cases h
  · cases hsub

/-- The code of `(quasiquote a (quasiunquote x))` makes a list of two. -/
theorem quote_rebuilds_iff_example : ∃ v s' w',
    lowerTree (fun _ => true) readForm true (.ofList [.ident ['a'], unquoting (.ident ['x'])])
        inF.setupQuote = .ok (v, s') ∧
      Proceeds loads inF.setupQuote s' atStart w' ∧
      w'.tree v.ref = some (.cons (.ident ['a']) (.cons (.value ()) .nil)) := by
  obtain ⟨v, s', hr⟩ : ∃ v s', lowerTree (fun _ => true) readForm true
      (.ofList [.ident ['a'], unquoting (.ident ['x'])]) inF.setupQuote = .ok (v, s') :=
    ⟨_, _, rfl⟩
  have hq : quoted readForm true (.ofList [.ident ['a'], unquoting (.ident ['x'])]) =
      .ok (.cons (.ident ['a']) (.cons (.unquote (.ident "x")) .nil)) := rfl
  obtain ⟨w', hw⟩ : ∃ w', Means (fun _ => true) loads
      (.cons (.ident ['a']) (.cons (.unquote (.ident "x")) .nil)) inF.setupQuote atStart
      (.cons (.ident ['a']) (.cons (.value ()) .nil)) w' :=
    ⟨_, .cons (.ident rfl) rfl
      (.cons (.unquote rfl rfl (.single ⟨rfl, rfl⟩) rfl rfl) rfl (.nil rfl))⟩
  have hforms : ∀ a t, Unquotes (fun _ => true)
      (.cons (.ident ['a']) (.cons (.unquote (.ident "x")) .nil)) inF.setupQuote a t →
      Formed (fun _ => true) a t := by
    intro a t h
    obtain _ | h | ⟨-, h⟩ := h
    · cases h
    · obtain _ | h | ⟨-, h⟩ := h
      · cases h
        exact formed_ident _ _
      · cases h
  obtain ⟨q, hq', hprop⟩ := (quote_rebuilds_iff _ readForm true loads _ inF
    (enterFunction_settled _ _ _) (by decide)).2 v s' hr
  obtain rfl := Except.ok.inj (hq.symm.trans hq')
  have hrun := ((hprop ⟨trivial, trivial, trivial⟩ hforms).1 atStart _ w' hw).2 (steady_listX inF)
  exact ⟨v, s', w', hr, hrun.1, hrun.2.2⟩

/-- The code of `(quasiquote (quasiunquote (progn (defun g ((val x)) val (quote)) x)))` comes to
the end of the list, where it calls a function of the module of `g`. -/
theorem quote_gets_stuck : ∃ v s' q t w',
    lowerTree (fun _ => true) readForm true (.ofList [unquoting defineG]) inF.setupQuote =
        .ok (v, s') ∧
      quoted readForm true (.ofList [unquoting defineG]) = .ok q ∧
      Means (fun _ => true) loads q inF.setupQuote atStart t w' ∧
      ¬ Proceeds loads inF.setupQuote s' atStart w' := by
  obtain ⟨v, s', q, hr, hq, w, w', hsteps, hmeans, hend, f, k, hat, hname, hk⟩ : ∃ v s' q,
      lowerTree (fun _ => true) readForm true (.ofList [unquoting defineG]) inF.setupQuote =
          .ok (v, s') ∧
        quoted readForm true (.ofList [unquoting defineG]) = .ok q ∧
        ∃ w w', (inF.setupQuote.graph.at? atStart.pos = none ∧
            atStart.step loads s' = some w) ∧
          Means (fun _ => true) loads q inF.setupQuote atStart (.cons (.value ()) .nil) w' ∧
          w'.pos = s'.here ∧
          ∃ f k, s'.graph.at? w.pos = some (.call f []) ∧ Names s' k "make_nil_val" f ∧
            k ≠ s'.mod :=
    ⟨_, _, _, rfl, rfl, _, _, ⟨rfl, rfl⟩,
      .cons (.unquote rfl rfl (.single ⟨rfl, rfl⟩) rfl rfl) rfl (.nil rfl), rfl,
      _, _, rfl, ⟨_, _, rfl, rfl⟩, by decide⟩
  have hstuck : Stuck s' w := ⟨f, [], _, k, hat, hname, hk⟩
  exact ⟨v, s', q, _, w', hr, hq, hmeans, fun h => hstuck.not_proceeds (.single hsteps) h hend⟩

end Dolorem.Codegen
