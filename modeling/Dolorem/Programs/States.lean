import Mathlib.Data.List.Forall2
import Dolorem.Codegen.Evolve
import Dolorem.Programs.Language

/-!
# The compiler's states while a function is built

`Extends s s'` is what compiling a form does to the state: code is added at the
builder and in new blocks of the function, functions are declared in the
function's module, variables are added to the innermost scope, and nothing else
changes. `Matches Γ s` says that the state knows what the context `Γ` says.
-/

namespace Dolorem.Programs

open Codegen CodeGraph

/-! ## Extension -/

/-- The variables of the function that is built, the one that is found first in
front. -/
def vars (s : St) : List FunVar := (s.curfn.getD []).flatten

/-- What no form changes. -/
def outer (s : St) : St := { s.rest with curfn := none }

/-- A value that is not an instruction still to come. -/
def Known (s : St) (x : Ref) : Prop := ∀ p, x = .inst p → ∃ i, s.graph.at? p = some i

/-- The code and the variables of `s` are still there. -/
structure Later (s s' : St) : Prop where
  sub : s.graph.Sub s'.graph
  curfn : AddsVars s.curfn s'.curfn

structure Extends (s s' : St) : Prop where
  building : Building s'
  grows : s.graph.Grows s.block s'.graph s'.block
  owner : ∀ b, s.graph.size ≤ b → b < s'.graph.size → s'.graph.owner? b = s.curllvmfn
  fns : ∃ new, s'.fns = s.fns ++ new ∧ ∀ f ∈ new, f.mod = s.mod
  curfn : AddsVars s.curfn s'.curfn
  outer : outer s' = outer s

variable {s s₁ s₂ s' : St} {fn : Nat} {x : Ref}

theorem Later.trans (h : Later s s₁) (k : Later s₁ s₂) : Later s s₂ :=
  ⟨h.sub.trans k.sub, h.curfn.trans k.curfn⟩

theorem Later.known (h : Later s s') (k : Known s x) : Known s' x := by
  intro p hp
  obtain ⟨i, hi⟩ := k p hp
  exact ⟨i, h.sub p i hi⟩

/-- A last instruction, and on in another block. -/
theorem Later.jump (hs : Building s) (i : Instr) (b : Nat) : Later s ((s.emit i).position b) :=
  ⟨sub_emit hs i b, .refl _⟩

namespace Extends

theorem curllvmfn (h : Extends s s') : s'.curllvmfn = s.curllvmfn :=
  (congrArg St.curllvmfn h.outer :)

theorem mod (h : Extends s s') : s'.mod = s.mod := (congrArg St.mod h.outer :)

theorem mods (h : Extends s s') : s'.mods = s.mods := (congrArg St.mods h.outer :)

theorem funs (h : Extends s s') : s'.funs = s.funs := (congrArg St.funs h.outer :)

theorem globals (h : Extends s s') : s'.globals = s.globals := (congrArg St.globals h.outer :)

theorem whileInLoop (h : Extends s s') : s'.whileInLoop = s.whileInLoop :=
  (congrArg St.whileInLoop h.outer :)

theorem condBlock (h : Extends s s') : s'.whileLastCondBlock = s.whileLastCondBlock :=
  (congrArg St.whileLastCondBlock h.outer :)

theorem afterBlock (h : Extends s s') : s'.whileLastAfterBlock = s.whileLastAfterBlock :=
  (congrArg St.whileLastAfterBlock h.outer :)

theorem precompiled (h : Extends s s') : s'.precompiled = s.precompiled :=
  (congrArg St.precompiled h.outer :)

theorem sub (h : Extends s s') : s.graph.Sub s'.graph := h.grows.sub

theorem size_le (h : Extends s s') : s.graph.size ≤ s'.graph.size := h.grows.size_le

theorem fns_le (h : Extends s s') : s.fns <+: s'.fns := by
  obtain ⟨new, hfns, -⟩ := h.fns
  exact ⟨new, hfns.symm⟩

theorem later (h : Extends s s') : Later s s' := ⟨h.sub, h.curfn⟩

theorem known (h : Extends s s') (k : Known s x) : Known s' x := h.later.known k

theorem refl (hs : Building s) : Extends s s where
  building := hs
  grows := .refl hs.lt
  owner b hb hlt := absurd hb (Nat.not_le.2 hlt)
  fns := ⟨[], (List.append_nil _).symm, by simp⟩
  curfn := .refl _
  outer := rfl

theorem trans (h : Extends s s₁) (k : Extends s₁ s₂) : Extends s s₂ where
  building := k.building
  grows := h.grows.trans k.grows
  owner b hb hlt := by
    rcases Nat.lt_or_ge b s₁.graph.size with hb₁ | hb₁
    · rw [k.grows.owner b hb₁, h.owner b hb hb₁]
    · rw [k.owner b hb₁ hlt, h.curllvmfn]
  fns := by
    obtain ⟨new, hfns, hmod⟩ := h.fns
    obtain ⟨new', hfns', hmod'⟩ := k.fns
    refine ⟨new ++ new', by rw [hfns', hfns, List.append_assoc], fun f hf => ?_⟩
    rcases List.mem_append.1 hf with hf | hf
    · exact hmod f hf
    · rw [hmod' f hf, h.mod]
  curfn := h.curfn.trans k.curfn
  outer := k.outer.trans h.outer

theorem emitAll (hs : Building s) (is : List Instr) : Extends s (s.emitAll is) where
  building := (Moves.emitAll hs is).building
  grows := (Moves.emitAll hs is).grows
  owner b hb hlt := by
    rw [St.emitAll, Cfg.size_append] at hlt
    exact absurd hb (Nat.not_le.2 hlt)
  fns := ⟨[], (List.append_nil _).symm, by simp⟩
  curfn := .refl _
  outer := rfl

/-- Another block. -/
theorem fresh (hs : Building s) (hfn : s.curllvmfn = some fn) :
    Extends s { s with graph := s.graph.fresh fn } where
  building := (Moves.fresh hs fn).building
  grows := (Moves.fresh hs fn).grows
  owner b hb hlt := by
    rw [Cfg.size_fresh] at hlt
    obtain rfl := Nat.le_antisymm (Nat.le_of_lt_succ hlt) hb
    rw [Cfg.owner?_fresh_self, hfn]
  fns := ⟨[], (List.append_nil _).symm, by simp⟩
  curfn := .refl _
  outer := rfl

/-- A last instruction, and on in a block made since `s`. -/
theorem jumpTo (h : Extends s s₁) (i : Instr) {b : Nat} (new : s.graph.size ≤ b)
    (hb : b < s₁.graph.size) : Extends s ((s₁.emit i).position b) where
  building := ⟨rfl, by simpa [St.emit, St.emitAll, St.position, St.block] using hb,
    h.building.fn⟩
  grows := by
    have h₁ := h.grows.trans (.append h.building.lt [i])
    exact h₁.move new (by simpa using hb)
  owner b hb hlt := by
    have hlt' : b < s₁.graph.size := by
      simpa [St.emit, St.emitAll, St.position] using hlt
    have howner := h.owner b hb hlt'
    simpa [St.emit, St.emitAll, St.position] using howner
  fns := h.fns
  curfn := h.curfn
  outer := h.outer

/-- A function is declared. -/
theorem require (hs : Building s) (f : Fun) : Extends s (s.requireFunction f).2 := by
  rcases eq_or_ne (s.getNamedFunction f.name) .null with hv | hv
  · rw [St.requireFunction, if_pos hv]
    exact { Extends.refl hs with
      building := ⟨hs.bldr, hs.lt, hs.fn⟩
      fns := ⟨_, rfl, by simp⟩ }
  · rw [St.requireFunction, if_neg hv]
    exact .refl hs

end Extends

/-! ## The context -/

/-- The compiler's variable `v` is what the context says. -/
structure Slot (s : St) (p : String × Option IntTy) (v : FunVar) : Prop where
  name : v.name = p.1
  shape : ∀ t, p.2 = some t →
    v.t = .integer t.width t.flag ∧ v.v.ty = .ptr (.int t.width) ∧ Known s v.v.ref

structure Matches (Γ : Ctx) (s : St) : Prop where
  building : Building s
  scopes : ∃ vs rest, s.curfn = some (vs :: rest)
  slots : List.Forall₂ (Slot s) Γ.vars (vars s)
  globals : ∀ x t, Γ.globals.lookup x = some t → s.globals.lookup x = some t.rtt
  funs : ∀ f ∈ Γ.funs, s.funs.lookup f.name = some f.fn
  loop : Γ.inLoop = true →
    s.whileInLoop = true ∧ s.whileLastCondBlock.isSome ∧ s.whileLastAfterBlock.isSome

variable {Γ : Ctx} {xs : List (String × Option IntTy)}

theorem Slot.mono (h : Extends s s') {p : String × Option IntTy} {v : FunVar} (k : Slot s p v) :
    Slot s' p v := by
  refine ⟨k.name, fun t ht => ?_⟩
  obtain ⟨h₁, h₂, hk⟩ := k.shape t ht
  exact ⟨h₁, h₂, h.known hk⟩

theorem vars_of_scopes {vs : List FunVar} {rest : List (List FunVar)}
    (h : s.curfn = some (vs :: rest)) : vars s = vs ++ rest.flatten := by
  simp [vars, h]

namespace Matches

/-- Evaluation that adds the variables `new`. -/
theorem extend (h : Matches Γ s) (k : Extends s s') {new : List FunVar}
    (hv : vars s' = new ++ vars s) (hnew : List.Forall₂ (Slot s') xs new) :
    Matches (Γ.add xs) s' where
  building := k.building
  scopes := by
    obtain ⟨vs, rest, hs⟩ := h.scopes
    have hadds := k.curfn
    rw [hs] at hadds
    obtain ⟨new, hnew⟩ := hadds
    exact ⟨_, _, hnew⟩
  slots := by
    rw [hv]
    exact List.rel_append hnew (h.slots.imp fun _ _ => Slot.mono k)
  globals x t hx := by
    rw [k.globals]
    exact h.globals x t hx
  funs f hf := by
    rw [k.funs]
    exact h.funs f hf
  loop hl := by
    rw [k.whileInLoop, k.condBlock, k.afterBlock]
    exact h.loop hl

/-- Evaluation that adds no variables. -/
theorem keep (h : Matches Γ s) (k : Extends s s') (hc : s'.curfn = s.curfn) : Matches Γ s' := by
  have hv : vars s' = [] ++ vars s := by simp [vars, hc]
  have hnil : Matches (Γ.add []) s' := h.extend k hv .nil
  exact hnil

/-- Variables may be forgotten. -/
theorem hide (h : Matches (Γ.add xs) s) : Matches (Γ.add (Form.hide xs)) s where
  building := h.building
  scopes := h.scopes
  slots := by
    have hall : ∀ {xs : List (String × Option IntTy)} {vs : List FunVar},
        List.Forall₂ (Slot s) (xs ++ Γ.vars) vs →
        List.Forall₂ (Slot s) (Form.hide xs ++ Γ.vars) vs := by
      intro xs
      induction xs with
      | nil => exact fun h => h
      | cons p xs ih =>
        rintro _ (_ | ⟨hp, hrest⟩)
        refine .cons ⟨hp.name, ?_⟩ (ih hrest)
        rintro t ⟨⟩
    exact hall h.slots
  globals := h.globals
  funs := h.funs
  loop := h.loop

end Matches

end Dolorem.Programs
