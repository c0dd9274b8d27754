import Dolorem.Codegen.Phi

/-!
# Well-formed functions

`WellFormed`: every block control can reach ends in exactly one terminator, and
every phi lists its predecessors. When evaluating the body reports no error,
`funbody` makes a well-formed function if and only if `check` accepts the body
(`funbody_wellFormed_iff`). `nested_if` is a body it does not accept.
-/

namespace Dolorem.Codegen

open CodeGraph

variable {run : Nat → Bool} {s s' s₁ s₂ : St} {n fn m : Nat} {open_ : List Nat}
variable {r : Rtv} {c t e body : Expr} {es : List Expr} {Γ : Env}

/-! ## What the check accepts does not crash -/

def Safe (run : Nat → Bool) (Γ : Env) (e : Expr) : Prop :=
  ∀ {n fn open_ s σ}, Frame n fn open_ s → Agrees Γ s → check Γ e = some σ →
    eval run e s ≠ .error .crash

/-- What an expression's value is, if the check accepts it. -/
theorem Judged.shape (j : Judged run Γ e) (h : Frame n fn open_ s) (hΓ : Agrees Γ s)
    (hok : eval run e s = .ok (r, s')) {σ : Shape} (hσ : check Γ e = some σ) : r.shape = σ :=
  ((j h hΓ hok σ).1 hσ).2

theorem toCondition_ne_crash {v : Rtv} {σ : Shape} (h : v.shape.condition = some σ) (s : St) :
    toCondition v s ≠ .error .crash := by
  have hspec := toCondition_spec v s
  simp only [h] at hspec
  obtain ⟨r, is, hr, -⟩ := hspec
  rw [hr]
  exact fun h => nomatch h

theorem safe_cond (hc : Stepped run c) (jc : Judged run Γ c) (sc : Safe run Γ c)
    (sb : Safe run Γ body) : Safe run Γ (.cond c body) := by
  intro n fn open_ s σ h hΓ hσ hcrash
  simp only [check, Option.bind_eq_bind, Option.bind_eq_some_iff] at hσ
  obtain ⟨σc, hσc, τ, hτ, σb, hσb, -⟩ := hσ
  rw [eval_cond fun cv s₁ cb s₂ h₁ h₂ =>
    (toCondition_curllvmfn h₂).trans (hc h h₁).frame.curllvmfn] at hcrash
  rcases bind_error.1 hcrash with hcrash | ⟨⟨cv, s₁⟩, h₁, hcrash⟩
  · exact sc h hΓ hσc hcrash
  rcases bind_error.1 hcrash with hcrash | ⟨⟨cb, s₂⟩, h₂, hcrash⟩
  · rw [← jc.shape h hΓ h₁ hσc] at hτ
    exact toCondition_ne_crash hτ _ hcrash
  rcases bind_error.1 hcrash with hcrash | ⟨p, -, hcrash⟩
  · have hready := (hc h h₁).trans (toCondition_steps (hc h h₁).frame h₂)
    have hΓb : Agrees Γ (guardStart fn cb.v s₂) := (hΓ.moves hready.moves).of_eq rfl rfl rfl
    exact sb (hready.frame.guardStart cb.v) hΓb hσb hcrash
  · cases hcrash

theorem safe_while (hc : Stepped run c) (jc : Judged run Γ c) (sc : Safe run Γ c)
    (sb : Safe run Γ body) : Safe run Γ (.while_ c body) := by
  intro n fn open_ s σ h hΓ hσ hcrash
  simp only [check, Option.bind_eq_bind, Option.bind_eq_some_iff] at hσ
  obtain ⟨σc, hσc, τ, hτ, σb, hσb, -⟩ := hσ
  have hΓc : Agrees Γ (testStart fn s) :=
    hΓ.of_eq rfl rfl rfl
  rw [eval_while h.curllvmfn] at hcrash
  rcases bind_error.1 hcrash with hcrash | ⟨⟨cv, s₁⟩, h₁, hcrash⟩
  · exact sc h.testStart hΓc hσc hcrash
  rcases bind_error.1 hcrash with hcrash | ⟨⟨cb, s₂⟩, h₂, hcrash⟩
  · rw [← jc.shape h.testStart hΓc h₁ hσc] at hτ
    exact toCondition_ne_crash hτ _ hcrash
  rcases bind_error.1 hcrash with hcrash | ⟨p, -, hcrash⟩
  · have hready := (hc h.testStart h₁).trans (toCondition_steps (hc h.testStart h₁).frame h₂)
    have hΓb : Agrees Γ ((loopStart s.graph.size cb.v s₂).enterLoop s.graph.size
        (s.graph.size + 2)) := (hΓc.moves hready.moves).of_eq rfl rfl rfl
    exact sb (hready.frame.loopStart cb.v (h.not_mem (Nat.le_succ _))) hΓb hσb hcrash
  · cases hcrash

/-- The end of an `if` whose branches the check accepts. -/
theorem ifEnd_ne_crash {k : Nat} {rt re : Rtv} {τ κ : Shape} (hτ : re.shape.read = some τ)
    (hκ : τ.convert ⟨rt.v.ty, rt.t⟩ 0 = some κ) (hvoid : rt.t ≠ .void) (hnull : rt.v.ty ≠ .null)
    (hlval : rt.lval = false) (s : St) : ifEnd k rt re s ≠ .error .crash := by
  have hdest : unwrapType rt = .ok ⟨rt.v.ty, rt.t⟩ := by simp [unwrapType, hvoid, hlval]
  have hread := prepareRead_spec re s
  simp only [hτ] at hread
  obtain ⟨v, is, hv, -, rfl⟩ := hread
  have hspec := convertType_spec (v := v) (Shape.read_lval hτ) ⟨rt.v.ty, rt.t⟩ 0 (s.emitAll is)
  simp only [hκ] at hspec
  obtain ⟨u, js, hu, -⟩ := hspec
  have hconv : convertType re ⟨rt.v.ty, rt.t⟩ 0 s = .ok (some u, (s.emitAll is).emitAll js) := by
    rw [convertType_read, hv, ok_bind, hu, St.emitAll_emitAll]
  unfold ifEnd
  simp only [hdest, hconv, ok_bind, St.buildPhi, if_neg hnull]
  intro h
  cases h

theorem safe_if (hc : Stepped run c) (ht : Stepped run t) (jc : Judged run Γ c)
    (jt : Judged run Γ t) (je : Judged run Γ e) (sc : Safe run Γ c) (st : Safe run Γ t)
    (se : Safe run Γ e) : Safe run Γ (.if_ c t e) := by
  intro n fn open_ s σ h hΓ hσ hcrash
  simp only [check, Option.bind_eq_bind, Option.bind_eq_some_iff] at hσ
  obtain ⟨σc, hσc, σb, hσb, σt, hσt, σe, hσe, τ, hτ, κ, hκ, hif⟩ := hσ
  split at hif
  · next hcond =>
    obtain ⟨-, -, hvoid, hnull, hlval, -⟩ := hcond
    have hΓc : Agrees Γ (threeBlocks fn s) := hΓ.of_eq rfl rfl rfl
    rw [eval_if h.curllvmfn] at hcrash
    rcases bind_error.1 hcrash with hcrash | ⟨⟨cv, s₁⟩, h₁, hcrash⟩
    · exact sc h.threeBlocks hΓc hσc hcrash
    have htested := hc h.threeBlocks h₁
    rcases bind_error.1 hcrash with hcrash | ⟨⟨cb, s₂⟩, h₂, hcrash⟩
    · rw [← jc.shape h.threeBlocks hΓc h₁ hσc] at hσb
      exact toCondition_ne_crash hσb _ hcrash
    have hready := htested.trans (toCondition_steps htested.frame h₂)
    have hthen := hready.frame.thenStart cb.v (h.not_mem le_rfl)
    have hΓt : Agrees Γ (thenStart s.graph.size cb.v s₂) := (hΓc.moves hready.moves).of_eq rfl rfl rfl
    rcases bind_error.1 hcrash with hcrash | ⟨⟨rt, s₄⟩, h₄, hcrash⟩
    · exact st hthen hΓt hσt hcrash
    have hafter := ht hthen h₄
    have helse := hafter.frame.elseStart (h.not_mem (Nat.le_succ _))
    have hΓe : Agrees Γ (elseStart s.graph.size s₄) :=
      (hΓt.moves hafter.moves).of_eq rfl rfl rfl
    rcases bind_error.1 hcrash with hcrash | ⟨⟨re, s₆⟩, h₆, hcrash⟩
    · exact se helse hΓe hσe hcrash
    have hrt := jt.shape hthen hΓt h₄ hσt
    have hre := je.shape helse hΓe h₆ hσe
    subst hrt hre
    exact ifEnd_ne_crash hτ hκ hvoid hnull hlval _ hcrash
  · cases hif

theorem safe_evalArgs {args : List Expr} (hargs : ∀ e ∈ args, Stepped run e)
    (sargs : ∀ e ∈ args, Safe run Γ e) (h : Frame n fn open_ s) (hΓ : Agrees Γ s)
    {σs : List Shape} (hσ : checkArgs Γ args = some σs) : evalArgs run args s ≠ .error .crash := by
  induction args generalizing s σs with
  | nil => exact fun h => nomatch h
  | cons e es ih =>
    simp only [checkArgs, Option.bind_eq_bind, Option.bind_eq_some_iff] at hσ
    obtain ⟨σ, hσe, σs', hσs, -⟩ := hσ
    intro hcrash
    rw [evalArgs] at hcrash
    rcases bind_error.1 hcrash with hcrash | ⟨⟨v, s₁⟩, h₁, hcrash⟩
    · exact sargs e List.mem_cons_self h hΓ hσe hcrash
    have hstep := hargs e List.mem_cons_self h h₁
    rcases bind_error.1 hcrash with hcrash | ⟨p, -, hcrash⟩
    · exact ih (fun x hx => hargs x (List.mem_cons_of_mem _ hx))
        (fun x hx => sargs x (List.mem_cons_of_mem _ hx)) hstep.frame (hΓ.moves hstep.moves) hσs
        hcrash
    · cases hcrash

theorem safe_evalProgn (hes : ∀ e ∈ es, Stepped run e) (ses : ∀ e ∈ es, Safe run Γ e)
    (h : Frame n fn open_ s) (hΓ : Agrees Γ s) {σ : Shape} (hσ : checkProgn Γ es = some σ) :
    evalProgn run es s ≠ .error .crash := by
  induction es generalizing s σ with
  | nil => exact fun h => nomatch h
  | cons e es ih =>
    have hhead : ∃ σe, check Γ e = some σe := by
      cases es with
      | nil => exact ⟨σ, by rwa [checkProgn] at hσ⟩
      | cons e' es =>
        simp only [checkProgn, Option.bind_eq_bind, Option.bind_eq_some_iff] at hσ
        exact ⟨hσ.choose, hσ.choose_spec.1⟩
    have htail : ∃ σe, checkProgn Γ es = some σe := by
      cases es with
      | nil => exact ⟨_, by rw [checkProgn]⟩
      | cons e' es =>
        simp only [checkProgn, Option.bind_eq_bind, Option.bind_eq_some_iff] at hσ
        exact ⟨σ, hσ.choose_spec.2⟩
    obtain ⟨σe, hσe⟩ := hhead
    obtain ⟨σs, hσs⟩ := htail
    intro hcrash
    rcases evalProgn_cons_error.1 hcrash with hcrash | ⟨r₁, s₁, h₁, hcrash⟩
    · exact ses e List.mem_cons_self h hΓ hσe hcrash
    · have hstep := hes e List.mem_cons_self h h₁
      exact ih (fun x hx => hes x (List.mem_cons_of_mem _ hx))
        (fun x hx => ses x (List.mem_cons_of_mem _ hx)) hstep.frame (hΓ.moves hstep.moves) hσs
        hcrash

theorem safe_call {f : String} {args : List Expr} (hargs : ∀ e ∈ args, Stepped run e)
    (jargs : ∀ e ∈ args, Judged run Γ e) (sargs : ∀ e ∈ args, Safe run Γ e) :
    Safe run Γ (.call f args) := by
  intro n fn open_ s σ h hΓ hσ hcrash
  rw [eval] at hcrash
  rw [check, ← hΓ.funs] at hσ
  split at hcrash
  · cases hcrash
  · next f hf =>
    simp only [hf, Option.bind_eq_some_iff] at hσ
    obtain ⟨σs, hσs, hcall⟩ := hσ
    obtain ⟨fns, hreq⟩ := requireFunction_eq f s
    rcases hq : s.requireFunction f with ⟨fv, s₀⟩
    rw [hq] at hcrash hreq
    subst hreq
    have h₀ : Frame n fn open_ { s with fns := fns } := h.of_eq rfl rfl rfl
    have hΓ₀ : Agrees Γ { s with fns := fns } := hΓ.of_eq rfl rfl rfl
    rcases bind_error.1 hcrash with hcrash | ⟨⟨vs, s₁⟩, h₁, hcrash⟩
    · exact safe_evalArgs hargs sargs h₀ hΓ₀ hσs hcrash
    · have hshape := ((checkArgs_iff hargs jargs h₀ hΓ₀ h₁ σs).1 hσs).2
      have hspec := lowerFuncall_spec fv f vs s₁
      rw [hshape] at hspec
      simp only [hcall] at hspec
      obtain ⟨r, is, hr, -⟩ := hspec
      simp only [hr] at hcrash
      cases hcrash

theorem safe_scope (hes : ∀ e ∈ es, Stepped run e) (ses : ∀ e ∈ es, Safe run Γ e) :
    Safe run Γ (.scope es) := by
  intro n fn open_ s σ h hΓ hσ hcrash
  rw [eval] at hcrash
  rw [check] at hσ
  split at hcrash
  · exact safe_evalProgn hes ses h hΓ hσ hcrash
  · next scopes hscopes =>
    rcases bind_error.1 hcrash with hcrash | ⟨p, -, hcrash⟩
    · have h' : Frame n fn open_ { s with curfn := some ([] :: scopes) } := h.of_eq rfl rfl rfl
      exact safe_evalProgn hes ses h' (hΓ.scope hscopes) hσ hcrash
    · cases hcrash

theorem Valued.safe (he : Valued e) : Safe run Γ e := by
  have steps : ∀ {es : List Expr}, (∀ e ∈ es, Valued e) → ∀ e ∈ es, Stepped run e :=
    fun h e hm => (h e hm).steps
  have judged : ∀ {es : List Expr}, (∀ e ∈ es, Valued e) → ∀ e ∈ es, Judged run Γ e :=
    fun h e hm => (h e hm).judged
  induction he with
  | int i | float tok | string str | char c =>
    intro n fn open_ s σ h hΓ hσ hcrash
    cases hcrash
  | ident x =>
    intro n fn open_ s σ h hΓ hσ hcrash
    have hspec := evalIdent_spec hΓ x
    rw [check] at hσ
    simp only [hσ] at hspec
    obtain ⟨r, hr, -⟩ := hspec
    rw [eval, hr] at hcrash
    cases hcrash
  | call f h ih => exact safe_call (steps h) (judged h) ih
  | progn h ih => exact fun hf hΓ hσ => safe_evalProgn (steps h) ih hf hΓ (by rwa [check] at hσ)
  | scope h ih => exact safe_scope (steps h) ih
  | cond hc hb sc sb => exact safe_cond hc.steps hc.judged sc sb
  | if_ hc ht he sc st se =>
    exact safe_if hc.steps ht.steps hc.judged ht.judged he.judged sc st se
  | while_ hc hb sc sb => exact safe_while hc.steps hc.judged sc sb

/-! ## Function bodies -/

/-- What is declared at the start of a function's body. -/
def funEnv (f : Fun) (s : St) : Env := ⟨f.parms.reverse, s.globals, s.funs⟩

/-- The function `fn`, whose blocks are those from `entry` on: every reachable
block ends in exactly one terminator, and every phi lists its predecessors. -/
structure WellFormed (g : Cfg Nat Instr) (fn entry : Nat) : Prop where
  owner : ∀ b, entry ≤ b → b < g.size → g.owner? b = some fn
  finished : ∀ b, Relation.ReflTransGen (Edge Instr.flow g) entry b →
    Finished Instr.flow (g.code b)
  phis : ∀ b ty inc, entry ≤ b → .phi ty inc ∈ g.code b → PhiOk entry g b ty inc

theorem bindParms_spec (fn : Nat) (parms : List (String × Rtt)) (i : Nat) (vars : List FunVar)
    (s : St) :
    ∃ is, (bindParms fn parms i vars s).2 = s.emitAll is ∧ Ops is ∧
      ((bindParms fn parms i vars s).1.map fun v => (v.name, v.v.ty, v.t)) =
        (parms.reverse.map fun p => (p.1, .ptr p.2.l, p.2.t)) ++
          vars.map fun v => (v.name, v.v.ty, v.t) := by
  induction parms generalizing i vars s with
  | nil => exact ⟨[], by simp [bindParms], Ops.nil, rfl⟩
  | cons p parms ih =>
    obtain ⟨name, t⟩ := p
    obtain ⟨is, hs, ops, hvars⟩ := ih (i + 1) (⟨name, ⟨.inst s.here, .ptr t.l⟩, t.t⟩ :: vars)
      ((s.emit (.alloca t.l)).emit (.store ⟨.arg fn i, t.l⟩ ⟨.inst s.here, .ptr t.l⟩))
    refine ⟨[.alloca t.l, .store ⟨.arg fn i, t.l⟩ ⟨.inst s.here, .ptr t.l⟩] ++ is, ?_, ?_, ?_⟩
    · calc (bindParms fn ((name, t) :: parms) i vars s).2 = _ := hs
        _ = _ := by simp [St.emit]
    · exact Ops.append (fun j hj => by
        simp only [List.mem_cons, List.not_mem_nil, or_false] at hj
        rcases hj with rfl | rfl <;> rfl) ops
    · calc _ = _ := hvars
        _ = _ := by simp

/-- Variables are found by their names, wherever they are. -/
theorem find_vars (x : String) : ∀ (vars : List FunVar) (ps : List (String × Rtt)),
    (vars.map fun v => (v.name, v.v.ty, v.t)) =
      (ps.map fun p => (p.1, LTy.ptr p.2.l, p.2.t)) →
    ((vars.find? fun v => v.name = x).map fun v => (⟨v.v.ty, v.t, true⟩ : Shape)) =
      (ps.lookup x).map fun t => ⟨.ptr t.l, t.t, true⟩
  | [], [], _ => rfl
  | v :: vars, (y, t) :: ps, h => by
    simp only [List.map_cons, List.cons.injEq, Prod.mk.injEq] at h
    obtain ⟨⟨rfl, hty, ht⟩, hrest⟩ := h
    have ih := find_vars x vars ps hrest
    by_cases hx : v.name = x
    · have hp : (x == v.name) = true := by simp [hx]
      simp [hx, hty, ht]
    · have hp : (x == v.name) = false := by simpa using Ne.symm hx
      simpa [List.lookup_cons, hx, hp] using ih

/-- The state in which `funbody` makes the parameters' variables, with an empty
entry block. -/
def entryState (f : Fun) (sameMod : Bool) (s : St) : St :=
  let s := if sameMod then s else s.beginNewFunction
  let fn := s.fns.length
  let s := (s.addFunction f).2
  { s with graph := s.graph.fresh fn }.position s.graph.size

theorem entryState_graph (f : Fun) (sameMod : Bool) (s : St) :
    (entryState f sameMod s).graph = s.graph.fresh s.fns.length := by
  cases sameMod <;> rfl

theorem entryState_block (f : Fun) (sameMod : Bool) (s : St) :
    (entryState f sameMod s).block = s.graph.size := by
  cases sameMod <;> rfl

/-- Entering a function, when the code for its parameters is `is`. -/
theorem enterFunction_of_parms {f : Fun} {sameMod : Bool} {is : List Instr}
    (h : (bindParms s.fns.length f.parms 0 [] (entryState f sameMod s)).2 =
      (entryState f sameMod s).emitAll is) :
    enterFunction f sameMod s = { (entryState f sameMod s).emitAll is with
      curfn := some [(bindParms s.fns.length f.parms 0 [] (entryState f sameMod s)).1]
      curllvmfn := some s.fns.length } := by
  rw [← h]
  cases sameMod <;> rfl

/-- A function with nothing but an entry block. -/
theorem Frame.entry {g : Cfg Nat Instr} (hg : s.graph = g.fresh fn) (hb : s.bldr = some g.size)
    (hfn : s.curllvmfn = some fn) : Frame g.size fn [] s := by
  have hblock : s.block = g.size := by simp [St.block, hb]
  have hsize : s.graph.size = g.size + 1 := by rw [hg, Cfg.size_fresh]
  have hcode : ∀ b, g.size ≤ b → s.graph.code b = [] := fun b hb => by
    rw [hg, Cfg.code_fresh, Cfg.code_of_size_le _ hb]
  have only : ∀ b, g.size ≤ b → b < s.graph.size → b = g.size := fun b hn hb =>
    Nat.le_antisymm (Nat.le_of_lt_succ (by rwa [hsize] at hb)) hn
  exact
    { building := ⟨by simp [hb], by rw [hblock, hsize]; exact Nat.lt_succ_self _, by simp [hfn]⟩
      curllvmfn := hfn
      tidy :=
        { le := hsize ▸ Nat.le_succ _
          unfinished := fun b hb => by
            rw [List.mem_singleton.1 hb, hblock]
            exact ⟨le_rfl, hsize ▸ Nat.lt_succ_self _, by simp [hcode, Unfinished]⟩
          finished := fun b hn hb hne =>
            absurd (List.mem_singleton.2 ((only b hn hb).trans hblock.symm)) hne
          targets := by
            rintro a b ha ⟨i, hi, -⟩
            rw [hcode a ha] at hi
            cases hi }
      away := List.not_mem_nil
      empty := fun b hb => absurd hb List.not_mem_nil
      owner := fun b hn hb => by
        rw [only b hn hb, hg]
        exact Cfg.owner?_fresh_self _ _ }

theorem enterFunction_spec (f : Fun) (sameMod : Bool) (s : St) :
    Frame s.graph.size s.fns.length [] (enterFunction f sameMod s) ∧
      (enterFunction f sameMod s).graph.size = s.graph.size + 1 ∧
      Sound s.graph.size s.graph.size (enterFunction f sameMod s).graph ∧
      Agrees (funEnv f s) (enterFunction f sameMod s) := by
  obtain ⟨is, hs, ops, hvars⟩ :=
    bindParms_spec s.fns.length f.parms 0 [] (entryState f sameMod s)
  have hgraph := entryState_graph f sameMod s
  have hbldr : (entryState f sameMod s).bldr = some s.graph.size := by
    cases sameMod <;> rfl
  have hbase : Frame s.graph.size s.fns.length [] { entryState f sameMod s with
      curllvmfn := some s.fns.length } := .entry hgraph hbldr rfl
  have hframe := hbase.emitAll ops.unfinished
  rw [enterFunction_of_parms hs]
  refine ⟨hframe.of_eq rfl rfl rfl, ?_, ?_, ?_, ?_, ?_⟩
  · simp [St.emitAll, hgraph]
  · have hsize : s.graph.size ≤ (entryState f sameMod s).graph.size := by simp [hgraph]
    refine (hbase.sound_emitAll ops hsize).2 fun b hb => (bare_of_code_nil ?_).good
    show (entryState f sameMod s).graph.code b = []
    rw [hgraph, Cfg.code_fresh, Cfg.code_of_size_le _ hb]
  · intro x
    rw [List.map_nil, List.append_nil] at hvars
    have hfind := find_vars x _ _ hvars
    simpa [lookupInFunScope, funEnv] using hfind
  · cases sameMod <;> rfl
  · cases sameMod <;> rfl

/-- A value the check accepts can be read. -/
theorem Valued.check_read (he : Valued e) {σ : Shape} (h : check Γ e = some σ) :
    ∃ τ, σ.read = some τ := by
  have rval : ∀ {σ : Shape}, σ.lval = false → ∃ τ, σ.read = some τ :=
    fun hl => ⟨_, Shape.read_of_rval hl⟩
  have progn : ∀ {es : List Expr} {σ : Shape},
      (∀ e ∈ es, ∀ {σ : Shape}, check Γ e = some σ → ∃ τ, σ.read = some τ) →
      checkProgn Γ es = some σ → ∃ τ, σ.read = some τ := by
    intro es
    induction es with
    | nil =>
      intro σ _ h
      rw [checkProgn, Option.some_inj] at h
      exact rval (h ▸ rfl)
    | cons e es ih =>
      intro σ hes h
      cases es with
      | nil => exact hes e List.mem_cons_self (by rwa [checkProgn] at h)
      | cons e' es =>
        simp only [checkProgn, Option.bind_eq_bind, Option.bind_eq_some_iff] at h
        obtain ⟨-, -, h⟩ := h
        exact ih (fun x hx => hes x (List.mem_cons_of_mem _ hx)) h
  induction he generalizing σ with
  | int i | float tok | string str | char c =>
    rw [check, Option.some_inj] at h
    exact rval (h ▸ rfl)
  | ident x =>
    rw [check, Env.ident, Option.map_eq_some_iff] at h
    obtain ⟨t, -, rfl⟩ := h
    exact ⟨_, rfl⟩
  | call f _ _ =>
    rw [check] at h
    split at h
    · cases h
    · next f hf =>
      obtain ⟨σs, -, h⟩ := Option.bind_eq_some_iff.1 h
      unfold callShape at h
      split_ifs at h
      split at h
      · split_ifs at h
        cases h
        exact rval rfl
      · cases h
  | progn _ ih => exact progn (fun e he σ => ih e he) (by rwa [check] at h)
  | scope _ ih => exact progn (fun e he σ => ih e he) (by rwa [check] at h)
  | cond _ _ _ _ =>
    simp only [check, Option.bind_eq_bind, Option.bind_eq_some_iff] at h
    obtain ⟨σc, -, τ, hτ, -, -, h⟩ := h
    obtain ⟨τ', hread, hconv⟩ := Option.bind_eq_some_iff.1 hτ
    exact rval (Option.some_inj.1 h ▸ Shape.convert_lval (Shape.read_lval hread) hconv)
  | if_ _ _ _ _ _ _ =>
    simp only [check, Option.bind_eq_bind, Option.bind_eq_some_iff] at h
    obtain ⟨_, -, _, -, σt, -, _, -, _, -, κ, -, h⟩ := h
    split at h
    · next hcond => exact rval (Option.some_inj.1 h ▸ hcond.2.2.2.2.1)
    · cases h
  | while_ _ _ _ _ =>
    simp only [check, Option.bind_eq_bind, Option.bind_eq_some_iff] at h
    obtain ⟨_, -, _, -, _, -, h⟩ := h
    exact rval (Option.some_inj.1 h ▸ rfl)

theorem buildReturn_ok {f : Fun} (h : buildReturn f r s = .ok s') :
    ∃ is i, s' = (s.emitAll is).emit i ∧ Ops is ∧ i.flow = .stop := by
  unfold buildReturn at h
  split at h
  · cases h
    exact ⟨[], .retVoid, by simp, Ops.nil, rfl⟩
  · obtain ⟨⟨κ, s₁⟩, hκ, h⟩ := bind_ok.1 h
    cases κ with
    | none => cases h
    | some κ =>
      cases h
      obtain ⟨is, -, rfl, ops, -⟩ := convertType_ok hκ
      exact ⟨is, .ret κ.v, rfl, ops, rfl⟩

/-- The return ends the last block. -/
theorem Frame.return (h : Frame n fn [] s) {i : Instr} (hi : i.flow = .stop) :
    Tidy Instr.flow n (s.emit i).graph [] :=
  h.tidy.close h.away (by rw [hi]; rfl) fun t ht => by
    rw [hi] at ht
    cases ht

theorem Frame.sound_return (h : Frame n fn [] s) {i : Instr} (hi : i.flow = .stop)
    (hm : m ≤ s.graph.size) : Sound n m (s.emit i).graph ↔ Sound n m s.graph :=
  h.sound_jumpTo (by rw [hi]; rfl) (fun t ht => by rw [hi] at ht; cases ht) 0 hm

/-- A body that evaluates without an error and to a value that can be returned
makes a function whose phis are those of the body. -/
theorem funbody_ok (f : Fun) (sameMod : Bool) (hb : Valued body) (hp : s.precompiled = true)
    (h : funbody (eval run body) f sameMod s = .ok s') :
    ∃ r s₁, eval run body (enterFunction f sameMod s) = .ok (r, s₁) ∧
      (WellFormed s'.graph s.fns.length s.graph.size ↔
        Sound s.graph.size (enterFunction f sameMod s).graph.size s₁.graph) := by
  obtain ⟨hframe, hsize, hsound, hΓ⟩ := enterFunction_spec f sameMod s
  unfold funbody at h
  rw [if_pos hp] at h
  obtain ⟨⟨r, s₁⟩, h₁, h⟩ := bind_ok.1 h
  obtain ⟨⟨v, s₂⟩, h₂, h⟩ := bind_ok.1 h
  obtain ⟨s₃, h₃, h⟩ := bind_ok.1 h
  refine ⟨r, s₁, h₁, ?_⟩
  have hsteps := hb.steps hframe h₁
  obtain ⟨is, rfl, ops, -⟩ := prepareRead_ok h₂
  obtain ⟨js, i, rfl, ops', hi⟩ := buildReturn_ok h₃
  rw [St.emitAll_emitAll] at h
  have hgraph : s'.graph = ((s₁.emitAll (is ++ js)).emit i).graph := by
    cases h
    cases s.bldr <;> rfl
  have hcode := hsteps.frame.emitAll (ops.append ops').unfinished
  have htidy := hcode.return hi
  have hentry : s.graph.size ≤ s₁.graph.size := by
    have := hsteps.moves.grows.size_le
    omega
  have hcode_le : s.graph.size ≤ (s₁.emitAll (is ++ js)).graph.size := by
    simpa [St.emitAll] using hentry
  have hsound' : Sound s.graph.size s.graph.size ((s₁.emitAll (is ++ js)).emit i).graph ↔
      Sound s.graph.size (enterFunction f sameMod s).graph.size s₁.graph := by
    rw [hcode.sound_return hi hcode_le, hsteps.frame.sound_emitAll (ops.append ops') hentry,
      hsteps.sound (by omega)]
    exact and_iff_right hsound
  rw [hgraph, ← hsound']
  refine ⟨fun hw b hb ty inc hi => hw.phis b ty inc hb hi, fun hs => ⟨fun b hn hb => ?_,
    fun b hb => ?_, fun b ty inc hb hi => hs b hb ty inc hi⟩⟩
  · have hb' : b < (s₁.emitAll (is ++ js)).graph.size := by
      simpa [St.emit, St.emitAll] using hb
    exact (Cfg.owner?_append _ _ _ _).trans (hcode.owner b hn hb')
  · have hlt : s.graph.size < ((s₁.emitAll (is ++ js)).emit i).graph.size := by
      have := hsteps.moves.grows.size_le
      simp only [St.emit, St.emitAll, Cfg.size_append]
      omega
    obtain ⟨hn, hb⟩ := htidy.reaches ⟨le_rfl, hlt⟩ hb
    exact htidy.finished b hn hb List.not_mem_nil

/-- Evaluating a body the check accepts, and returning its value, does not
crash. -/
theorem funbody_ne_crash (f : Fun) (sameMod : Bool) (hb : Valued body) {σ : Shape}
    (hσ : check (funEnv f s) body = some σ) :
    funbody (eval run body) f sameMod s ≠ .error .crash := by
  obtain ⟨hframe, -, -, hΓ⟩ := enterFunction_spec f sameMod s
  intro hcrash
  unfold funbody at hcrash
  split at hcrash
  · rcases bind_error.1 hcrash with hcrash | ⟨⟨r, s₁⟩, h₁, hcrash⟩
    · exact hb.safe hframe hΓ hσ hcrash
    have hr := Judged.shape hb.judged hframe hΓ h₁ hσ
    obtain ⟨τ, hτ⟩ := hb.check_read hσ
    rw [← hr] at hτ
    have hread := prepareRead_spec r s₁
    simp only [hτ] at hread
    obtain ⟨v, is, hv, -, rfl⟩ := hread
    rcases bind_error.1 hcrash with hcrash | ⟨⟨v', s₂⟩, h₂, hcrash⟩
    · rw [hv] at hcrash
      cases hcrash
    rw [hv] at h₂
    cases h₂
    rcases bind_error.1 hcrash with hcrash | ⟨s₃, -, hcrash⟩
    · unfold buildReturn at hcrash
      split at hcrash
      · cases hcrash
      · have hspec := convertType_spec (v := v) (Shape.read_lval hτ) f.ret 0 (s₁.emitAll is)
        rcases bind_error.1 hcrash with hcrash | ⟨⟨κ, s₃⟩, -, hcrash⟩
        · cases hκ : v.shape.convert f.ret 0 with
          | none =>
            simp only [hκ] at hspec
            rw [hspec] at hcrash
            cases hcrash
          | some κ =>
            simp only [hκ] at hspec
            obtain ⟨u, js, hu, -⟩ := hspec
            rw [hu] at hcrash
            cases hcrash
        · cases κ <;> cases hcrash
    · cases hcrash
  · cases hcrash

/-- Where evaluation reports no error, `funbody` makes a well-formed function of
an expression exactly when every `if` in it has branches without control
structures, the first of them an r-value whose LLVM type the second one
converts to. -/
theorem funbody_wellFormed_iff (run : Nat → Bool) (f : Fun) (sameMod : Bool) {body : Expr}
    (hb : Valued body) (s : St) (hp : s.precompiled = true)
    (reports : ∀ msg, funbody (eval run body) f sameMod s ≠ .error (.error msg)) :
    (∃ s', funbody (eval run body) f sameMod s = .ok s' ∧
        WellFormed s'.graph s.fns.length s.graph.size) ↔
      (check (funEnv f s) body).isSome := by
  obtain ⟨hframe, -, -, hΓ⟩ := enterFunction_spec f sameMod s
  constructor
  · rintro ⟨s', hok, hw⟩
    obtain ⟨r, s₁, h₁, hiff⟩ := funbody_ok f sameMod hb hp hok
    rw [(hb.judged hframe hΓ h₁ r.shape).2 ⟨hiff.1 hw, rfl⟩]
    rfl
  · intro hsome
    obtain ⟨σ, hσ⟩ := Option.isSome_iff_exists.1 hsome
    cases hok : funbody (eval run body) f sameMod s with
    | error x =>
      cases x with
      | error msg => exact absurd hok (reports msg)
      | crash => exact absurd hok (funbody_ne_crash f sameMod hb hσ)
    | ok s' =>
      obtain ⟨r, s₁, h₁, hiff⟩ := funbody_ok f sameMod hb hp hok
      exact ⟨s', rfl, hiff.2 ((hb.judged hframe hΓ h₁ σ).1 hσ).1⟩

/-- Before anything is compiled. -/
def emptyUnit : St where
  graph := ⟨[]⟩
  fns := []
  bldr := none
  mod := 0
  mods := 0
  curfn := none
  curllvmfn := none
  funs := []
  globals := []
  whileLastCondBlock := none
  whileLastAfterBlock := none
  whileInLoop := false
  staticCondNumber := 0
  precompiled := true

/-- A function without parameters that returns an integer. -/
def intFun : Fun := ⟨"f", lowerIntegerType 64 true, [], false⟩

theorem funbody_wellFormed_iff_example :
    (∃ s', funbody (eval (fun _ => true) (.if_ (.int 1) (.int 2) (.int 3))) intFun false
        emptyUnit = .ok s' ∧ WellFormed s'.graph 0 0) ↔
      (check (funEnv intFun emptyUnit) (.if_ (.int 1) (.int 2) (.int 3))).isSome :=
  funbody_wellFormed_iff (fun _ => true) intFun false (.if_ (.int 1) (.int 2) (.int 3)) emptyUnit rfl
    fun _ h => nomatch h

/-- An `if` as the first branch of an `if`: the code of the outer one's branch
ends in block 6, where the inner one's branches meet, but its phi lists block 1. -/
def nestedIf : Expr := .if_ (.int 1) (.if_ (.int 1) (.int 2) (.int 3)) (.int 4)

theorem nestedIf_not_wellFormed :
    Valued nestedIf ∧ ∃ s', funbody (eval (fun _ => true) nestedIf) intFun false emptyUnit =
      .ok s' ∧ ¬ WellFormed s'.graph emptyUnit.fns.length emptyUnit.graph.size := by
  refine ⟨.if_ (.int 1) (.if_ (.int 1) (.int 2) (.int 3)) (.int 4), _, rfl, fun hw => ?_⟩
  have hphi := hw.phis 3 _ _ (Nat.zero_le _) (List.mem_cons_self)
  have hedge := ((hphi.preds 1).1 (by decide)).2
  exact absurd hedge (by unfold Edge; decide)

end Dolorem.Codegen
