import Dolorem.Codegen.Numbers
import Dolorem.Codegen.WellFormed

/-!
# What evaluation leaves alone

`Evolves s s'` is what evaluating any expression does to the state when a
function is being built, however function definitions, lambdas and quotations
are nested in it: code is added to the block of the builder and to new blocks,
functions are added to modules, variables to the innermost scope; and the same
module and the same function are current again. It is proved construct by
construct, and for all expressions in `eval_evolves`.
-/

namespace Dolorem.Codegen

open CodeGraph

/-- The scope chain, with variables added to the innermost scope. -/
def AddsVars : Option (List (List FunVar)) → Option (List (List FunVar)) → Prop
  | some (vars :: scopes), c => ∃ new, c = some ((new ++ vars) :: scopes)
  | c, c' => c' = c

namespace AddsVars

theorem refl (c : Option (List (List FunVar))) : AddsVars c c := by
  match c with
  | none => exact rfl
  | some [] => exact rfl
  | some (vars :: scopes) => exact ⟨[], rfl⟩

theorem trans {c₁ c₂ c₃ : Option (List (List FunVar))} (h : AddsVars c₁ c₂) (k : AddsVars c₂ c₃) :
    AddsVars c₁ c₃ := by
  match c₁, h with
  | none, h =>
    cases h
    exact k
  | some [], h =>
    cases h
    exact k
  | some (vars :: scopes), ⟨new, h⟩ =>
    cases h
    obtain ⟨new', k⟩ := k
    exact ⟨new' ++ new, k.trans (by rw [List.append_assoc])⟩

end AddsVars

/-- What evaluation does to the state inside a function. -/
structure Evolves (s s' : St) : Prop where
  building : Building s'
  grows : s.graph.Grows s.block s'.graph s'.block
  mod : s'.mod = s.mod
  curllvmfn : s'.curllvmfn = s.curllvmfn
  curfn : AddsVars s.curfn s'.curfn
  fns : s.fns <+: s'.fns
  mods : s.mods ≤ s'.mods
  precompiled : s'.precompiled = s.precompiled

variable {run : Nat → Bool} {s s' s₁ s₂ s₃ : St} {fn : Nat} {r : Rtv} {c t e body : Expr}
variable {es : List Expr}

namespace Evolves

theorem refl (hs : Building s) : Evolves s s :=
  ⟨hs, .refl hs.lt, rfl, rfl, .refl _, List.prefix_rfl, le_rfl, rfl⟩

theorem trans (h : Evolves s s₁) (k : Evolves s₁ s₂) : Evolves s s₂ where
  building := k.building
  grows := h.grows.trans k.grows
  mod := k.mod.trans h.mod
  curllvmfn := k.curllvmfn.trans h.curllvmfn
  curfn := h.curfn.trans k.curfn
  fns := h.fns.trans k.fns
  mods := h.mods.trans k.mods
  precompiled := k.precompiled.trans h.precompiled

/-- The code grows, and nothing else changes. -/
theorem of_moves (h : Moves s s') (hfns : s'.fns = s.fns) : Evolves s s' where
  building := h.building
  grows := h.grows
  mod := (congrArg St.mod h.rest :)
  curllvmfn := h.curllvmfn
  curfn := h.curfn ▸ .refl _
  fns := hfns ▸ List.prefix_rfl
  mods := Nat.le_of_eq (congrArg St.mods h.rest :).symm
  precompiled := (congrArg St.precompiled h.rest :)

theorem emitAll (hs : Building s) (is : List Instr) : Evolves s (s.emitAll is) :=
  of_moves (.emitAll hs is) rfl

/-- A last instruction, and on in a block made since `s`. -/
theorem jumpTo (h : Evolves s s₁) (i : Instr) {b : Nat} (new : s.graph.size ≤ b)
    (hb : b < s₁.graph.size) : Evolves s ((s₁.emit i).position b) where
  building := ⟨rfl, by simpa [St.emit, St.emitAll, St.position, St.block] using hb,
    h.building.fn⟩
  grows := by
    have h₁ := h.grows.trans (.append h.building.lt [i])
    exact h₁.move new (by simpa using hb)
  mod := h.mod
  curllvmfn := h.curllvmfn
  curfn := h.curfn
  fns := h.fns
  mods := h.mods
  precompiled := h.precompiled

theorem lt_size (h : Evolves s s') {b : Nat} (hb : b < s.graph.size) : b < s'.graph.size :=
  hb.trans_le h.grows.size_le

end Evolves

/-- A function is declared in the current module. -/
theorem requireFunction_evolves (hs : Building s) (f : Fun) :
    Evolves s (s.requireFunction f).2 := by
  rcases eq_or_ne (s.getNamedFunction f.name) .null with hv | hv
  · rw [St.requireFunction, if_pos hv]
    exact { Evolves.refl hs with
      building := ⟨hs.bldr, hs.lt, hs.fn⟩
      fns := List.prefix_append _ _ }
  · rw [St.requireFunction, if_neg hv]
    exact .refl hs

/-- Every evaluation of `e` inside a function evolves the state. -/
def Evolving (run : Nat → Bool) (e : Expr) : Prop :=
  ∀ {s r s'}, Building s → eval run e s = .ok (r, s') → Evolves s s'

/-! ## Straight-line code -/

theorem prepareRead_evolves {v : Rtv} (hs : Building s) (h : prepareRead v s = .ok (r, s')) :
    Evolves s s' := by
  obtain ⟨is, rfl, -⟩ := prepareRead_ok h
  exact .emitAll hs is

theorem toCondition_evolves {v : Rtv} (hs : Building s) (h : toCondition v s = .ok (r, s')) :
    Evolves s s' := by
  obtain ⟨is, rfl, -⟩ := toCondition_ok h
  exact .emitAll hs is

theorem convertType_evolves {v κ : Rtv} {dest : Rtt} {flags : Nat} (hs : Building s)
    (h : convertType v dest flags s = .ok (some κ, s')) : Evolves s s' := by
  obtain ⟨is, -, rfl, -⟩ := convertType_ok h
  exact .emitAll hs is

theorem lowerFuncall_evolves {f : Fun} {v : Value} {args : List Rtv} (hs : Building s)
    (h : lowerFuncall v f args s = .ok (r, s')) : Evolves s s' := by
  obtain ⟨is, rfl, -⟩ := lowerFuncall_ok h
  exact .emitAll hs is

theorem convertOrCrash_evolves {v : Rtv} {dest : Rtt} {flags : Nat} (hs : Building s)
    (h : convertOrCrash v dest flags s = .ok (r, s')) : Evolves s s' := by
  obtain ⟨⟨κ, s₁⟩, hκ, h⟩ := bind_ok.1 h
  cases κ with
  | none => cases h
  | some κ =>
    cases h
    exact convertType_evolves hs hκ

theorem expectSameNumber_evolves {a b : Rtv} {p : Rtv × Rtv} (hs : Building s)
    (h : expectSameNumber a b s = .ok (p, s')) : Evolves s s' := by
  have left : ∀ {dest flags}, (convertOrCrash a dest flags s >>= fun q => .ok ((q.1, b), q.2)) =
      .ok (p, s') → Evolves s s' := by
    intro dest flags h
    obtain ⟨⟨v, s₁⟩, hv, h⟩ := bind_ok.1 h
    cases h
    exact convertOrCrash_evolves hs hv
  have right : ∀ {dest flags}, (convertOrCrash b dest flags s >>= fun q => .ok ((a, q.1), q.2)) =
      .ok (p, s') → Evolves s s' := by
    intro dest flags h
    obtain ⟨⟨v, s₁⟩, hv, h⟩ := bind_ok.1 h
    cases h
    exact convertOrCrash_evolves hs hv
  unfold expectSameNumber at h
  split at h
  · split at h
    · cases h
      exact .refl hs
    · split at h
      · exact left h
      · exact right h
  · split at h
    · cases h
      exact .refl hs
    · split at h
      · exact left h
      · exact right h
  · obtain ⟨dest, -, h⟩ := bind_ok.1 h
    exact right h
  · obtain ⟨dest, -, h⟩ := bind_ok.1 h
    exact left h
  · cases h

theorem buildArith_evolves {op : ArithOp} {a b : Rtv} (hs : Building s)
    (h : buildArith op a b s = .ok (r, s')) : Evolves s s' := by
  unfold buildArith at h
  split at h
  · cases h
    exact .emitAll hs _
  · split at h
    · cases h
      exact .emitAll hs _
    · cases h

theorem evalIdent_state {x : String} (h : evalIdent x s = .ok (r, s')) : s' = s := by
  unfold evalIdent at h
  split at h
  · cases h
    rfl
  · split at h
    · cases h
      rfl
    · cases h

theorem lowerAssign_evolves {lhs rhs : Rtv} (hs : Building s)
    (h : lowerAssign lhs rhs s = .ok s') : Evolves s s' := by
  unfold lowerAssign at h
  split at h
  · cases h
  · obtain ⟨⟨v, s₁⟩, hv, h⟩ := bind_ok.1 h
    have h₁ := prepareRead_evolves hs hv
    rcases hl : lhs.v.ty.element with _ | l
    · simp only [hl] at h
      cases h
    · simp only [hl] at h
      obtain ⟨⟨κ, s₂⟩, hκ, h⟩ := bind_ok.1 h
      cases κ with
      | none => cases h
      | some κ =>
        have h₂ := h₁.trans (convertType_evolves h₁.building hκ)
        cases h
        exact h₂.trans (.emitAll h₂.building _)

theorem addVariable_evolves {name : String} {t : Rtt} (hs : Building s)
    (h : addVariable name t s = .ok (r, s')) : Evolves s s' := by
  unfold addVariable at h
  split at h
  · next vars scopes hc =>
    cases h
    exact { Evolves.emitAll hs [.alloca t.l] with
      building := ⟨hs.bldr, (Moves.emitAll hs [.alloca t.l]).building.lt, hs.fn⟩
      curfn := by
        rw [hc]
        exact ⟨[_], rfl⟩ }
  · cases h

/-! ## Lists of expressions -/

theorem evalProgn_evolves (hes : ∀ e ∈ es, Evolving run e) (hs : Building s)
    (h : evalProgn run es s = .ok (r, s')) : Evolves s s' := by
  induction es generalizing s r with
  | nil =>
    rw [evalProgn] at h
    cases h
    exact .refl hs
  | cons e es ih =>
    obtain ⟨r₁, s₁, r₂, h₁, h₂⟩ := evalProgn_cons_ok h
    have hfirst := hes e List.mem_cons_self hs h₁
    exact hfirst.trans (ih (fun e he => hes e (List.mem_cons_of_mem _ he)) hfirst.building h₂)

theorem evalArgs_evolves (hes : ∀ e ∈ es, Evolving run e) {vs : List Rtv} (hs : Building s)
    (h : evalArgs run es s = .ok (vs, s')) : Evolves s s' := by
  induction es generalizing s vs with
  | nil =>
    rw [evalArgs] at h
    cases h
    exact .refl hs
  | cons e es ih =>
    rw [evalArgs] at h
    obtain ⟨⟨v, s₁⟩, h₁, h⟩ := bind_ok.1 h
    obtain ⟨⟨vs', s₂⟩, h₂, h⟩ := bind_ok.1 h
    cases h
    have hfirst := hes e List.mem_cons_self hs h₁
    exact hfirst.trans (ih (fun e he => hes e (List.mem_cons_of_mem _ he)) hfirst.building h₂)

theorem evolving_progn (hes : ∀ e ∈ es, Evolving run e) : Evolving run (.progn es) := by
  intro s r s' hs h
  rw [eval] at h
  exact evalProgn_evolves hes hs h

theorem evolving_call {f : String} (hes : ∀ e ∈ es, Evolving run e) :
    Evolving run (.call f es) := by
  intro s r s' hs h
  rw [eval] at h
  split at h
  · cases h
  · next f hf =>
    have hreq := requireFunction_evolves hs f
    obtain ⟨⟨vs, s₁⟩, h₁, h⟩ := bind_ok.1 h
    have hargs := evalArgs_evolves hes hreq.building h₁
    exact (hreq.trans hargs).trans (lowerFuncall_evolves hargs.building h)

/-- A scope is closed again, with the variables it holds. -/
theorem evolving_scope (hes : ∀ e ∈ es, Evolving run e) : Evolving run (.scope es) := by
  intro s r s' hs h
  rw [eval] at h
  split at h
  · exact evalProgn_evolves hes hs h
  · next scopes hscopes =>
    obtain ⟨⟨r₁, s₁⟩, h₁, h⟩ := bind_ok.1 h
    cases h
    have hb : Building { s with curfn := some ([] :: scopes) } := ⟨hs.bldr, hs.lt, hs.fn⟩
    have hprogn := evalProgn_evolves hes hb h₁
    obtain ⟨new, hnew⟩ := hprogn.curfn
    exact { hprogn with
      building := ⟨hprogn.building.bldr, hprogn.building.lt, hprogn.building.fn⟩
      curfn := by
        rw [hscopes, St.popScope, hnew]
        exact .refl _ }

/-! ## Control structures -/

theorem threeBlocks_evolves (hs : Building s) (fn : Nat) : Evolves s (threeBlocks fn s) :=
  .of_moves (threeBlocks_moves fn hs) rfl

theorem twoBlocks_evolves (hs : Building s) (fn : Nat) : Evolves s (twoBlocks fn s) :=
  .of_moves (twoBlocks_moves fn hs) rfl

namespace IfRun

variable (w : IfRun run fn c t e s)

/-- Up to the first branch. -/
theorem then_evolves (hs : Building s) (hc : Evolving run c) :
    Evolves s w.thenStart ∧ s.graph.size + 2 < w.thenStart.graph.size := by
  have h₀ := threeBlocks_evolves hs fn
  have hsize : s.graph.size + 2 < (threeBlocks fn s).graph.size := by
    rw [threeBlocks_size]
    exact Nat.lt_succ_self _
  have htest := hc h₀.building w.cond
  have hready := htest.trans (toCondition_evolves htest.building w.bit)
  have hsize₂ := hready.lt_size hsize
  exact ⟨(h₀.trans hready).jumpTo _ le_rfl (Nat.lt_of_succ_lt (Nat.lt_of_succ_lt hsize₂)),
    by rwa [thenStart_size]⟩

/-- Up to the second branch. -/
theorem else_evolves (hs : Building s) (hc : Evolving run c) (ht : Evolving run t) :
    Evolves s w.elseStart ∧ s.graph.size + 2 < w.elseStart.graph.size := by
  have hthen := w.then_evolves hs hc
  have hyes := ht hthen.1.building w.yes
  have hsize := hyes.lt_size hthen.2
  exact ⟨(hthen.1.trans hyes).jumpTo _ (Nat.le_succ _) (Nat.lt_of_succ_lt hsize),
    by rwa [elseStart_size]⟩

/-- `if` as a whole, and that the code up to its branch is kept. -/
theorem evolves (hs : Building s) (hc : Evolving run c) (ht : Evolving run t)
    (he : Evolving run e) (hlast : ifEnd s.graph.size w.rt w.re w.afterElse = .ok (r, s')) :
    Evolves s s' ∧ w.thenStart.graph.Sub s'.graph := by
  have hthen := ht (w.then_evolves hs hc).1.building w.yes
  obtain ⟨h₅, hsize₅⟩ := w.else_evolves hs hc ht
  have helse := he h₅.building w.no
  have hsize₆ := helse.lt_size hsize₅
  obtain ⟨dest, κ, s₇, -, hκ, -, -, rfl⟩ := ifEnd_ok hlast hsize₆
  have hconv := convertType_evolves helse.building hκ
  have h₈ := ((h₅.trans helse).trans hconv).jumpTo (.br (s.graph.size + 2))
    (Nat.le_add_right _ 2) (hconv.lt_size hsize₆)
  have hphi := Evolves.emitAll h₈.building [.phi dest.l [(w.rt.v, s.graph.size),
    (κ.v, s.graph.size + 1)]]
  exact ⟨h₈.trans hphi, hthen.grows.sub.trans <| (sub_emit hthen.building _ _).trans <|
    helse.grows.sub.trans <| hconv.grows.sub.trans <| (sub_emit hconv.building _ _).trans
      hphi.grows.sub⟩

end IfRun

theorem evolving_if (hc : Evolving run c) (ht : Evolving run t) (he : Evolving run e) :
    Evolving run (.if_ c t e) := by
  intro s r s' hs h
  obtain ⟨fn, hfn⟩ := Option.isSome_iff_exists.1 hs.fn
  obtain ⟨w, hlast⟩ := eval_if_run hfn h
  exact (w.evolves hs hc ht he hlast).1

/-- Up to the body. -/
theorem CondRun.start_evolves (w : CondRun run fn c body s) (hs : Building s)
    (hc : Evolving run c) : Evolves s w.bodyStart := by
  have h₁ := hc hs w.cond
  have h₂ := h₁.trans (toCondition_evolves h₁.building w.bit)
  have htwo : w.ready.graph.size + 1 < (twoBlocks fn w.ready).graph.size := by
    rw [twoBlocks_size]
    exact Nat.lt_succ_self _
  exact (h₂.trans (twoBlocks_evolves h₂.building fn)).jumpTo _ h₂.grows.size_le
    (Nat.lt_of_succ_lt htwo)

theorem CondRun.evolves (w : CondRun run fn c body s) (hs : Building s) (hc : Evolving run c)
    (hb : Evolving run body) : Evolves s w.last ∧ w.bodyStart.graph.Sub w.last.graph := by
  have h₁ := hc hs w.cond
  have hsize := (h₁.trans (toCondition_evolves h₁.building w.bit)).grows.size_le
  have h₃ := w.start_evolves hs hc
  have hbody := hb h₃.building w.yes
  exact ⟨(h₃.trans hbody).jumpTo (.br (w.ready.graph.size + 1)) (hsize.trans (Nat.le_succ _))
    (hbody.lt_size (by rw [guardStart_size]; exact Nat.lt_succ_self _)),
    hbody.grows.sub.trans (sub_emit hbody.building _ _)⟩

theorem evolving_cond (hc : Evolving run c) (hb : Evolving run body) :
    Evolving run (.cond c body) := by
  intro s r s' hs h
  obtain ⟨fn, hfn⟩ := Option.isSome_iff_exists.1 hs.fn
  obtain ⟨w, rfl, rfl⟩ := eval_cond_run (fun cv s₁ h₁ => (hc hs h₁).curllvmfn.trans hfn) h
  exact (w.evolves hs hc hb).1

theorem testStart_evolves (hs : Building s) (fn : Nat) : Evolves s (testStart fn s) := by
  refine (threeBlocks_evolves hs fn).jumpTo _ le_rfl ?_
  rw [threeBlocks_size]
  exact Nat.lt_add_of_pos_right (Nat.succ_pos 2)

/-- Up to the body. -/
theorem WhileRun.start_evolves (w : WhileRun run fn c body s) (hs : Building s)
    (hc : Evolving run c) :
    Evolves s w.bodyStart ∧ s.graph.size + 2 < w.bodyStart.graph.size := by
  have htest := testStart_evolves hs fn
  have hcond := hc htest.building w.cond
  have hready := hcond.trans (toCondition_evolves hcond.building w.bit)
  have hsize : s.graph.size + 2 < w.ready.graph.size :=
    hready.lt_size (by rw [testStart_size]; exact Nat.lt_succ_self _)
  exact ⟨(htest.trans hready).jumpTo _ (Nat.le_succ _) (Nat.lt_of_succ_lt hsize),
    by rwa [loopStart_size]⟩

theorem WhileRun.evolves (w : WhileRun run fn c body s) (hs : Building s) (hc : Evolving run c)
    (hb : Evolving run body) : Evolves s w.last ∧ w.bodyStart.graph.Sub w.last.graph := by
  obtain ⟨hstart, hsize⟩ := w.start_evolves hs hc
  have hin : Building (w.bodyStart.enterLoop s.graph.size (s.graph.size + 2)) :=
    ⟨hstart.building.bldr, hstart.building.lt, hstart.building.fn⟩
  have hbody := hb hin w.yes
  have hrest : Evolves w.bodyStart (w.bodyStart.restoreLoop w.afterBody) :=
    { hbody with building := ⟨hbody.building.bldr, hbody.building.lt, hbody.building.fn⟩ }
  exact ⟨(hstart.trans hrest).jumpTo (.br s.graph.size) (Nat.le_add_right _ 2)
    (hrest.lt_size hsize), hrest.grows.sub.trans (sub_emit hrest.building _ _)⟩

theorem evolving_while (hc : Evolving run c) (hb : Evolving run body) :
    Evolving run (.while_ c body) := by
  intro s r s' hs h
  obtain ⟨fn, hfn⟩ := Option.isSome_iff_exists.1 hs.fn
  obtain ⟨w, rfl, rfl⟩ := eval_while_run hfn h
  exact (w.evolves hs hc hb).1

theorem jumpOut_evolves {dest : Option Nat} (hs : Building s)
    (h : jumpOut dest s = .ok (r, s')) : Evolves s s' := by
  obtain ⟨fn, hfn⟩ := Option.isSome_iff_exists.1 hs.fn
  cases dest with
  | none => cases h
  | some b =>
    rw [jumpOut_eq hfn] at h
    cases h
    exact .of_moves (jumpState_moves hs fn b) rfl

/-! ## Function bodies -/

/-- The state in which the body of a function is evaluated: the entry block has
got the code for the parameters. -/
theorem enterFunction_eq (f : Fun) (sameMod : Bool) (s : St) :
    ∃ is vars, Ops is ∧ enterFunction f sameMod s =
      { (entryState f sameMod s).emitAll is with
        curfn := some [vars], curllvmfn := some s.fns.length } := by
  obtain ⟨is, hs, ops, -⟩ := bindParms_spec s.fns.length f.parms 0 [] (entryState f sameMod s)
  exact ⟨is, _, ops, enterFunction_of_parms hs⟩

/-- The code generation around a function definition is untouched: whatever was
being built is as it was. -/
structure Leaves (s s' : St) : Prop where
  mod : s'.mod = s.mod
  curfn : s'.curfn = s.curfn
  curllvmfn : s'.curllvmfn = s.curllvmfn
  size_le : s.graph.size ≤ s'.graph.size
  code : ∀ b, b < s.graph.size → s'.graph.code b = s.graph.code b
  owner : ∀ b, b < s.graph.size → s'.graph.owner? b = s.graph.owner? b
  fns : s.fns <+: s'.fns
  mods : s.mods ≤ s'.mods
  precompiled : s'.precompiled = s.precompiled

theorem Leaves.refl (s : St) : Leaves s s :=
  ⟨rfl, rfl, rfl, le_rfl, fun _ _ => rfl, fun _ _ => rfl, List.prefix_rfl, le_rfl, rfl⟩

section Body

variable {f : Fun} {sameMod : Bool}

theorem enterFunction_building (f : Fun) (sameMod : Bool) (s : St) :
    Building (enterFunction f sameMod s) :=
  (enterFunction_spec f sameMod s).1.building

theorem buildReturn_evolves {v : Rtv} (hs : Building s) (h : buildReturn f v s = .ok s') :
    Evolves s s' := by
  unfold buildReturn at h
  split at h
  · cases h
    exact .emitAll hs _
  · obtain ⟨⟨κ, s₁⟩, hκ, h⟩ := bind_ok.1 h
    cases κ with
    | none => cases h
    | some κ =>
      have h₁ := convertType_evolves hs hκ
      cases h
      exact h₁.trans (.emitAll h₁.building _)

/-- Entering a function and evaluating its body. -/
theorem Evolves.leaves (h : Evolves (enterFunction f sameMod s) s₁) (pos : Option Nat) :
    Leaves s { s₁.setBuilderPosition pos with
      curfn := s.curfn, curllvmfn := s.curllvmfn, mod := if sameMod then s₁.mod else s.mod } := by
  obtain ⟨is, vars, -, henter⟩ := enterFunction_eq f sameMod s
  have hgraph : (enterFunction f sameMod s).graph =
      (s.graph.fresh s.fns.length).append s.graph.size is := by
    rw [henter]
    simp only [St.emitAll, entryState_graph, entryState_block]
  have hblock : (enterFunction f sameMod s).block = s.graph.size := by
    rw [henter, ← entryState_block f sameMod s, ← St.block_emitAll _ is]
    rfl
  have hlt : ∀ b, b < s.graph.size → b < (enterFunction f sameMod s).graph.size := by
    intro b hb
    rw [hgraph, Cfg.size_append, Cfg.size_fresh]
    exact Nat.lt_succ_of_lt hb
  -- the position of the builder is all that is set back
  have hset : (s₁.setBuilderPosition pos).graph = s₁.graph := by cases pos <;> rfl
  have hset' : ∀ {α : Type} (g : St → α), (∀ s b, g (s.position b) = g s) →
      g (s₁.setBuilderPosition pos) = g s₁ := by
    intro α g hg
    cases pos with
    | none => rfl
    | some b => exact hg s₁ b
  refine ⟨?_, rfl, rfl, ?_, fun b hb => ?_, fun b hb => ?_, ?_, ?_, ?_⟩
  · show (if sameMod then s₁.mod else s.mod) = s.mod
    split
    · next hsame =>
      rw [h.mod, henter]
      subst hsame
      rfl
    · rfl
  · show s.graph.size ≤ (s₁.setBuilderPosition pos).graph.size
    rw [hset]
    refine Nat.le_trans ?_ h.grows.size_le
    rw [hgraph, Cfg.size_append, Cfg.size_fresh]
    exact Nat.le_succ _
  · show (s₁.setBuilderPosition pos).graph.code b = _
    rw [hset, h.grows.frame b (hlt b hb) (hblock ▸ Nat.ne_of_lt hb), hgraph,
      Cfg.code_append_ne _ (Nat.ne_of_lt hb), Cfg.code_fresh]
  · show (s₁.setBuilderPosition pos).graph.owner? b = _
    rw [hset, h.grows.owner b (hlt b hb), hgraph, Cfg.owner?_append,
      Cfg.owner?_fresh_of_lt _ _ hb]
  · show s.fns <+: (s₁.setBuilderPosition pos).fns
    rw [hset' St.fns fun _ _ => rfl]
    refine List.IsPrefix.trans ?_ h.fns
    rw [henter]
    cases sameMod <;> exact List.prefix_append _ _
  · show s.mods ≤ (s₁.setBuilderPosition pos).mods
    rw [hset' St.mods fun _ _ => rfl]
    refine Nat.le_trans ?_ h.mods
    rw [henter]
    cases sameMod
    · exact Nat.le_succ _
    · exact le_rfl
  · show (s₁.setBuilderPosition pos).precompiled = _
    rw [hset' St.precompiled fun _ _ => rfl, h.precompiled, henter]
    cases sameMod <;> rfl

/-- A function body that is compiled: what its evaluation does, and what `funbody`
puts back. -/
theorem funbody_evolved (hb : Evolving run body)
    (h : funbody (eval run body) f sameMod s = .ok s') (hp : s.precompiled = true) :
    ∃ s₁, Evolves (enterFunction f sameMod s) s₁ ∧ s' = { s₁.setBuilderPosition s.bldr with
      curfn := s.curfn, curllvmfn := s.curllvmfn, mod := if sameMod then s₁.mod else s.mod } := by
  unfold funbody at h
  rw [if_pos hp] at h
  obtain ⟨⟨v, s₁⟩, h₁, h⟩ := bind_ok.1 h
  obtain ⟨⟨w, s₂⟩, h₂, h⟩ := bind_ok.1 h
  obtain ⟨s₃, h₃, h⟩ := bind_ok.1 h
  have hbody := hb (enterFunction_building f sameMod s) h₁
  have hread := hbody.trans (prepareRead_evolves hbody.building h₂)
  have hret := hread.trans (buildReturn_evolves hread.building h₃)
  cases h
  exact ⟨s₃, hret, rfl⟩

/-- `funbody` leaves the surrounding code generation untouched. Its builder goes
back to where it was, if it was anywhere. -/
theorem funbody_leaves (hb : Evolving run body) (h : funbody (eval run body) f sameMod s = .ok s') :
    Leaves s s' ∧ (s.bldr.isSome → s'.bldr = s.bldr) := by
  cases hp : s.precompiled with
  | true =>
    obtain ⟨s₁, hret, rfl⟩ := funbody_evolved hb h hp
    refine ⟨hret.leaves s.bldr, fun hsome => ?_⟩
    obtain ⟨b, hb⟩ := Option.isSome_iff_exists.1 hsome
    simp only [hb, St.setBuilderPosition, St.position]
  | false =>
    unfold funbody at h
    rw [hp] at h
    cases h
    exact ⟨.refl s, fun _ => rfl⟩

/-- Inside a function, a definition is one of the ways to evolve. -/
theorem Leaves.evolves (h : Leaves s s') (hs : Building s) (hb : s'.bldr = s.bldr) :
    Evolves s s' := by
  obtain ⟨b, hbldr⟩ := Option.isSome_iff_exists.1 hs.bldr
  have hblock : s'.block = s.block := by
    unfold St.block
    rw [hb, hbldr]
    rfl
  exact
    { building := ⟨hb ▸ hs.bldr, by rw [hblock]; exact hs.lt.trans_le h.size_le,
        h.curllvmfn ▸ hs.fn⟩
      grows :=
        { size_le := h.size_le
          code_prefix := fun b => by
            rcases Nat.lt_or_ge b s.graph.size with hlt | hge
            · exact (h.code b hlt).symm ▸ List.prefix_rfl
            · rw [Cfg.code_of_size_le _ hge]
              exact List.nil_prefix
          frame := fun b hlt _ => h.code b hlt
          owner := h.owner
          cursor := .inl hblock
          cursor_lt := by rw [hblock]; exact hs.lt.trans_le h.size_le }
      mod := h.mod
      curllvmfn := h.curllvmfn
      curfn := h.curfn ▸ .refl _
      fns := h.fns
      mods := h.mods
      precompiled := h.precompiled }

theorem funbody_evolves (hb : Evolving run body) (hs : Building s)
    (h : funbody (eval run body) f sameMod s = .ok s') : Evolves s s' :=
  have hleave := funbody_leaves hb h
  hleave.1.evolves hs (hleave.2 hs.bldr)

end Body

/-! ## Definitions -/

theorem register_evolves (hs : Building s) (f : Fun) : Evolves s (s.register f) :=
  { Evolves.refl hs with building := ⟨hs.bldr, hs.lt, hs.fn⟩ }

theorem registerNew_ok {f : Fun} (h : registerNew f s = .ok s') : s' = s.register f := by
  unfold registerNew at h
  split at h
  · cases h
  · cases h
    rfl

theorem evolving_defun (f : Fun) (hb : Evolving run body) : Evolving run (.defun f body) := by
  intro s r s' hs h
  rw [eval] at h
  obtain ⟨s₁, h₁, h⟩ := bind_ok.1 h
  obtain ⟨s₂, h₂, h⟩ := bind_ok.1 h
  cases h
  obtain rfl := registerNew_ok h₁
  have hreg := register_evolves hs f
  exact hreg.trans (funbody_evolves hb hreg.building h₂)

/-- `defmacro` and `deftypemacro`. -/
theorem define_evolves (f : Fun) (hb : Evolving run body) (hs : Building s)
    (h : (funbody (eval run body) f false (s.register f) >>= fun s' => .ok (nullRtv, s')) =
      .ok (r, s')) : Evolves s s' := by
  obtain ⟨s₁, h₁, h⟩ := bind_ok.1 h
  cases h
  have hreg := register_evolves hs f
  exact hreg.trans (funbody_evolves hb hreg.building h₁)

theorem evolving_lambda (fileIdx charIdx : Nat) (ret : Rtt) (parms : List (String × Rtt))
    (vaArgs : Bool) (hb : Evolving run body) :
    Evolving run (.lambda fileIdx charIdx ret parms vaArgs body) := by
  intro s r s' hs h
  rw [eval] at h
  obtain ⟨s₁, h₁, h⟩ := bind_ok.1 h
  cases h
  exact funbody_evolves hb hs h₁

theorem evolving_staticCond (hc : Evolving run c) (hb : Evolving run body) :
    Evolving run (.staticCond c body) := by
  intro s r s' hs h
  rw [eval] at h
  obtain ⟨s₁, h₁, h⟩ := bind_ok.1 h
  obtain ⟨s₂, h₂, h⟩ := bind_ok.1 h
  rw [registerNew_ok h₁] at h₂
  have hreg : Evolves s (St.register (condFun (s.staticCondNumber + 1))
      { s with staticCondNumber := s.staticCondNumber + 1 }) :=
    { Evolves.refl hs with building := ⟨hs.bldr, hs.lt, hs.fn⟩ }
  have hfun := hreg.trans (funbody_evolves hc hreg.building h₂)
  split at h
  · obtain ⟨⟨rb, s₃⟩, h₃, h⟩ := bind_ok.1 h
    cases h
    exact hfun.trans (hb hfun.building h₃)
  · cases h
    exact hfun

/-! ## Quotations -/

theorem setupQuote_evolves (hs : Building s) : Evolves s s.setupQuote := by
  have step : ∀ {s₁}, Evolves s s₁ → ∀ f, Evolves s (s₁.requireFunction f).2 :=
    fun h f => h.trans (requireFunction_evolves h.building f)
  have set : ∀ {s₁}, Evolves s s₁ → ∀ q, Evolves s { s₁ with quoteFuns := q } :=
    fun h q => { h with building := ⟨h.building.bldr, h.building.lt, h.building.fn⟩ }
  unfold St.setupQuote
  exact set (step (step (step (step (step (step (.refl hs) _) _) _) _) _) _) _

/-- Every evaluation of the quotation `q` inside a function evolves the state. -/
def Quoting (run : Nat → Bool) (q : Quoted) : Prop :=
  ∀ {s v s'}, Building s → lowerQuote run q s = .ok (v, s') → Evolves s s'

theorem quoting_cons {a d : Quoted} (ha : Quoting run a) (hd : Quoting run d) :
    Quoting run (.cons a d) := by
  intro s v s' hs h
  rw [lowerQuote] at h
  obtain ⟨⟨va, s₁⟩, h₁, h⟩ := bind_ok.1 h
  obtain ⟨⟨vd, s₂⟩, h₂, h⟩ := bind_ok.1 h
  have hcar := ha hs h₁
  have hcdr := hcar.trans (hd hcar.building h₂)
  cases h
  exact hcdr.trans (.emitAll hcdr.building _)

theorem unquoteResult_evolves {v : Value} (hs : Building s)
    (h : unquoteResult r s = .ok (v, s')) : Evolves s s' := by
  obtain ⟨⟨w, s₁⟩, h₁, h⟩ := bind_ok.1 h
  obtain ⟨⟨κ, s₂⟩, h₂, h⟩ := bind_ok.1 h
  cases κ with
  | none => cases h
  | some κ =>
    cases h
    have hread := prepareRead_evolves hs h₁
    exact hread.trans (convertType_evolves hread.building h₂)

theorem quoting_unquote (he : Evolving run e) : Quoting run (.unquote e) := by
  intro s v s' hs h
  rw [lowerQuote] at h
  obtain ⟨⟨r, s₁⟩, h₁, h⟩ := bind_ok.1 h
  have heval := he hs h₁
  exact heval.trans (unquoteResult_evolves heval.building h)

theorem evolving_quote {q : Quoted} (hq : Quoting run q) : Evolving run (.quote q) := by
  intro s r s' hs h
  rw [eval] at h
  obtain ⟨⟨v, s₁⟩, h₁, h⟩ := bind_ok.1 h
  cases h
  have hset := setupQuote_evolves hs
  exact hset.trans (hq hset.building h₁)

/-! ## All expressions -/

/-- Two operands that are evaluated and read, one after the other. -/
theorem operands_evolves {a b : Expr} (ha : Evolving run a) (hb : Evolving run b) {p : Rtv × Rtv}
    (hs : Building s) (h : operands run a b s = .ok (p, s')) : Evolves s s' := by
  obtain ⟨⟨v, s₁⟩, h₁, h⟩ := bind_ok.1 h
  obtain ⟨⟨w, s₂⟩, h₂, h⟩ := bind_ok.1 h
  obtain ⟨⟨v', s₃⟩, h₃, h⟩ := bind_ok.1 h
  obtain ⟨⟨w', s₄⟩, h₄, h⟩ := bind_ok.1 h
  have hleft := ha hs h₁
  have hread := hleft.trans (prepareRead_evolves hleft.building h₂)
  have hright := hread.trans (hb hread.building h₃)
  have hread' := hright.trans (prepareRead_evolves hright.building h₄)
  exact hread'.trans (expectSameNumber_evolves hread'.building h)

theorem evolving_arith (op : ArithOp) {a b : Expr} (ha : Evolving run a) (hb : Evolving run b) :
    Evolving run (.arith op a b) := by
  intro s r s' hs h
  rw [eval_arith] at h
  obtain ⟨⟨p, s₁⟩, h₁, h⟩ := bind_ok.1 h
  have hop := operands_evolves ha hb hs h₁
  exact hop.trans (buildArith_evolves hop.building h)

theorem evolving_cmp (op : CmpOp) {a b : Expr} (ha : Evolving run a) (hb : Evolving run b) :
    Evolving run (.cmp op a b) := by
  intro s r s' hs h
  rw [eval_cmp] at h
  obtain ⟨⟨p, s₁⟩, h₁, h⟩ := bind_ok.1 h
  have hop := operands_evolves ha hb hs h₁
  cases h
  exact hop.trans (.emitAll hop.building _)

theorem evolving_not {a : Expr} (ha : Evolving run a) : Evolving run (.not a) := by
  intro s r s' hs h
  rw [eval] at h
  obtain ⟨⟨v, s₁⟩, h₁, h⟩ := bind_ok.1 h
  obtain ⟨⟨w, s₂⟩, h₂, h⟩ := bind_ok.1 h
  have heval := ha hs h₁
  have hread := heval.trans (prepareRead_evolves heval.building h₂)
  cases h
  exact hread.trans (.emitAll hread.building _)

theorem evolving_assign {a b : Expr} (ha : Evolving run a) (hb : Evolving run b) :
    Evolving run (.assign a b) := by
  intro s r s' hs h
  rw [eval] at h
  obtain ⟨⟨v, s₁⟩, h₁, h⟩ := bind_ok.1 h
  obtain ⟨⟨w, s₂⟩, h₂, h⟩ := bind_ok.1 h
  obtain ⟨s₃, h₃, h⟩ := bind_ok.1 h
  cases h
  have hleft := ha hs h₁
  have hright := hleft.trans (hb hleft.building h₂)
  exact hright.trans (lowerAssign_evolves hright.building h₃)

theorem evolving_funptrTo (f : String) : Evolving run (.funptrTo f) := by
  intro s r s' hs h
  rw [eval] at h
  split at h
  · cases h
  · next g _ =>
    cases h
    exact requireFunction_evolves hs g

mutual

/-- Evaluating any expression inside a function evolves the state. -/
theorem eval_evolves (run : Nat → Bool) : ∀ e, Evolving run e
  | .form ks r => fun hs h => by
    rw [eval] at h
    cases h
    exact .emitAll hs _
  | .int _ | .float _ | .string _ | .char _ => fun hs h => by
    rw [eval] at h
    cases h
    exact .refl hs
  | .ident x => fun hs h => by
    rw [eval] at h
    obtain rfl := evalIdent_state h
    exact .refl hs
  | .call _ args => evolving_call (evals_evolve run args)
  | .progn es => evolving_progn (evals_evolve run es)
  | .scope es => evolving_scope (evals_evolve run es)
  | .cond c body => evolving_cond (eval_evolves run c) (eval_evolves run body)
  | .if_ c t e => evolving_if (eval_evolves run c) (eval_evolves run t) (eval_evolves run e)
  | .while_ c body => evolving_while (eval_evolves run c) (eval_evolves run body)
  | .break_ | .continue_ => fun hs h => by
    rw [eval] at h
    split at h
    · exact jumpOut_evolves hs h
    · cases h
  | .arith op a b => evolving_arith op (eval_evolves run a) (eval_evolves run b)
  | .cmp op a b => evolving_cmp op (eval_evolves run a) (eval_evolves run b)
  | .not a => evolving_not (eval_evolves run a)
  | .defun f body => evolving_defun f (eval_evolves run body)
  | Expr.defmacro name body => fun hs h => by
    rw [eval] at h
    exact define_evolves (macroproto name) (eval_evolves run body) hs h
  | .lambda fileIdx charIdx ret parms vaArgs body =>
    evolving_lambda fileIdx charIdx ret parms vaArgs (eval_evolves run body)
  | .staticCond c body => evolving_staticCond (eval_evolves run c) (eval_evolves run body)
  | Expr.deftypemacro name body => fun hs h => by
    rw [eval] at h
    exact define_evolves (typemacroproto name) (eval_evolves run body) hs h
  | .var name t => fun hs h => by
    rw [eval] at h
    exact addVariable_evolves hs h
  | .assign a b => evolving_assign (eval_evolves run a) (eval_evolves run b)
  | .funptrTo f => evolving_funptrTo f
  | .quote q => evolving_quote (lowerQuote_evolves run q)

theorem lowerQuote_evolves (run : Nat → Bool) : ∀ q, Quoting run q
  | .nil | .int _ | .ident _ | .string _ | .char _ => fun hs h => by
    rw [lowerQuote] at h
    cases h
    exact .emitAll hs _
  | .float _ => fun _ h => by
    rw [lowerQuote] at h
    cases h
  | .cons a d => quoting_cons (lowerQuote_evolves run a) (lowerQuote_evolves run d)
  | .unquote e => quoting_unquote (eval_evolves run e)

theorem evals_evolve (run : Nat → Bool) : ∀ es : List Expr, ∀ e ∈ es, Evolving run e
  | [] => fun _ h => nomatch h
  | e :: es => List.forall_mem_cons.2 ⟨eval_evolves run e, evals_evolve run es⟩

end

/-! ## Definitions, seen from outside -/

/-- The forms that compile a function. -/
inductive IsDefinition : Expr → Prop
  | defun (f : Fun) (body : Expr) : IsDefinition (.defun f body)
  | defmacro (name : String) (body : Expr) : IsDefinition (body |> Expr.defmacro name)
  | deftypemacro (name : String) (body : Expr) : IsDefinition (body |> Expr.deftypemacro name)
  | lambda (fileIdx charIdx : Nat) (ret : Rtt) (parms : List (String × Rtt)) (vaArgs : Bool)
      (body : Expr) : IsDefinition (.lambda fileIdx charIdx ret parms vaArgs body)

theorem Leaves.of_register {f : Fun} (h : Leaves (s.register f) s') : Leaves s s' :=
  ⟨h.mod, h.curfn, h.curllvmfn, h.size_le, h.code, h.owner, h.fns, h.mods, h.precompiled⟩

/-- Whatever is being built when a definition starts, at top level or inside of any function,
goes on when it returns as if nothing had happened. Only a builder without a position does not
lose the one it gets. -/
theorem definition_leaves (he : IsDefinition e) (h : eval run e s = .ok (r, s')) :
    Leaves s s' ∧ ∀ b, s.bldr = some b →
      s'.bldr = some b ∧ (b < s.graph.size → s'.here = s.here) := by
  have key : Leaves s s' ∧ (s.bldr.isSome → s'.bldr = s.bldr) := by
    cases he with
    | defun f body =>
      rw [eval] at h
      obtain ⟨s₁, h₁, h⟩ := bind_ok.1 h
      obtain ⟨s₂, h₂, h⟩ := bind_ok.1 h
      cases h
      obtain rfl := registerNew_ok h₁
      have hbody := funbody_leaves (eval_evolves run body) h₂
      exact ⟨hbody.1.of_register, hbody.2⟩
    | defmacro name body | deftypemacro name body =>
      rw [eval] at h
      obtain ⟨s₁, h₁, h⟩ := bind_ok.1 h
      cases h
      have hbody := funbody_leaves (eval_evolves run body) h₁
      exact ⟨hbody.1.of_register, hbody.2⟩
    | lambda fileIdx charIdx ret parms vaArgs body =>
      rw [eval] at h
      obtain ⟨s₁, h₁, h⟩ := bind_ok.1 h
      cases h
      exact funbody_leaves (eval_evolves run body) h₁
  refine ⟨key.1, fun b hb => ?_⟩
  have hb' : s'.bldr = some b := (key.2 (hb ▸ rfl)).trans hb
  refine ⟨hb', fun hlt => ?_⟩
  simp only [St.here, St.block, hb, hb', Option.getD_some, Cfg.endOf, key.1.code b hlt]

/-- A lambda in a function that is defined by a function. -/
def nestedDefinitions : Expr :=
  .defun ⟨"g", ⟨.void, .void⟩, [], false⟩
    (.progn [.defun ⟨"h", ⟨.void, .void⟩, [], false⟩
      (.lambda 0 3 ⟨.void, .void⟩ [] false (.progn []))])

theorem definition_leaves_example : ∃ r s',
    eval (fun _ => true) nestedDefinitions emptyBody = .ok (r, s') ∧ Leaves emptyBody s' ∧
      s'.bldr = some 0 ∧ s'.here = emptyBody.here := by
  obtain ⟨r, s', h⟩ : ∃ r s', eval (fun _ => true) nestedDefinitions emptyBody = .ok (r, s') :=
    ⟨_, _, rfl⟩
  have hleaves := definition_leaves (.defun _ _) h
  exact ⟨r, s', h, hleaves.1, (hleaves.2 0 rfl).1, (hleaves.2 0 rfl).2 (by decide)⟩

/-- The first function of a program: its code is where the builder stays. -/
theorem builder_stays : emptyUnit.bldr = none ∧ ∃ r s',
    eval (fun _ => true) nestedDefinitions emptyUnit = .ok (r, s') ∧ s'.bldr = some 0 :=
  ⟨rfl, _, _, rfl, rfl⟩

end Dolorem.Codegen
