import Dolorem.Codegen.Staying
import Dolorem.Jit.Linking
import Dolorem.Programs.Correct

/-!
# The names in compiled code

What the code of a function refers to has no name, or is called like a function
the form calls, or like a global. `NamesOnly` says so of a state while a function
is built, and evaluating a form that is checked keeps it.
-/

namespace Dolorem.Programs

open Codegen CodeGraph

/-- A reference to nothing with a name, to a function of a name in `F`, or to a
global of a name in `G`. -/
def MayName (F G : String → Prop) (fns : List LFun) : Ref → Prop
  | .fn k => ∃ lf y, fns[k]? = some lf ∧ lf.name = some y ∧ F y
  | .global _ y => G y
  | _ => True

/-- The blocks from `b₀` on and the variables refer only to names in `F` and `G`,
which are names of functions and of globals. -/
structure NamesOnly (F G : String → Prop) (b₀ : Nat) (s : St) : Prop where
  code : ∀ b, b₀ ≤ b → ∀ i ∈ s.graph.code b, ∀ v ∈ i.values, MayName F G s.fns v.ref
  vars : ∀ v ∈ vars s, MayName F G s.fns v.v.ref
  funs : ∀ y f, F y → s.funs.lookup y = some f → F f.name
  globals : ∀ y, (s.globals.lookup y).isSome → G y

variable {run : Nat → Bool} {F G : String → Prop} {b₀ : Nat} {Γ : Ctx} {s s' s₁ : St} {r v a b : Rtv}
variable {i : Instr} {x : Ref} {c t e body : Form} {es : List Form} {fns fns' : List LFun}

theorem MayName.mono (h : MayName F G fns x) (hf : fns <+: fns') : MayName F G fns' x := by
  cases x with
  | fn k =>
    obtain ⟨lf, y, hlf, hname, hy⟩ := h
    obtain ⟨more, rfl⟩ := hf
    exact ⟨lf, y, by rw [List.getElem?_append_left (List.getElem?_eq_some_iff.1 hlf).1, hlf],
      hname, hy⟩
  | global m y => exact h
  | _ => trivial

/-- A result of the builder has no name. -/
theorem ofBlock_mayName (s₀ s : St) : OfBlock (MayName F G s₀.fns) s := fun _ => trivial

theorem values_of_refers {P : Ref → Prop} (h : i.Refers P P) : ∀ v ∈ i.values, P v.ref := by
  cases i with
  | call f args => exact List.forall_mem_cons.2 h
  | _ => exact h

namespace NamesOnly

theorem writes (h : NamesOnly F G b₀ s)
    (k : Writes (MayName F G s.fns) (MayName F G s.fns) s s') : NamesOnly F G b₀ s' := by
  obtain ⟨is, rfl, his⟩ := k
  refine { h with code := fun b hb i hi => ?_ }
  rcases Cfg.mem_code_append _ hi with hi | hi
  · exact h.code b hb i hi
  · exact values_of_refers (his i hi)

theorem emit (h : NamesOnly F G b₀ s) (hi : i.Refers (MayName F G s.fns) (MayName F G s.fns)) :
    NamesOnly F G b₀ (s.emit i) :=
  h.writes (.emit s hi)

/-- An instruction, and on in another block. -/
theorem jump (h : NamesOnly F G b₀ s) (hi : i.Refers (MayName F G s.fns) (MayName F G s.fns))
    (b : Nat) : NamesOnly F G b₀ ((s.emit i).position b) :=
  { h.emit hi with }

theorem branch (h : NamesOnly F G b₀ s) (b b' : Nat) :
    NamesOnly F G b₀ ((s.emit (.br b)).position b') :=
  h.jump (i := .br b) (fun _ hv => nomatch hv) b'

theorem condBranch {u : Value} (h : NamesOnly F G b₀ s) (hu : MayName F G s.fns u.ref)
    (b b' b'' : Nat) : NamesOnly F G b₀ ((s.emit (.condBr u b b')).position b'') :=
  h.jump (i := .condBr u b b') (List.forall_mem_singleton.2 hu) b''

theorem fresh (h : NamesOnly F G b₀ s) (fn : Nat) :
    NamesOnly F G b₀ { s with graph := s.graph.fresh fn } :=
  { h with
    code := fun b hb i hi => by
      rw [Cfg.code_fresh] at hi
      exact h.code b hb i hi }

theorem threeBlocks (h : NamesOnly F G b₀ s) (fn : Nat) : NamesOnly F G b₀ (threeBlocks fn s) :=
  ((h.fresh fn).fresh fn).fresh fn

theorem require (h : NamesOnly F G b₀ s) {f : Fun} (hf : F f.name) :
    NamesOnly F G b₀ (s.requireFunction f).2 ∧
      MayName F G (s.requireFunction f).2.fns (s.requireFunction f).1.ref := by
  obtain ⟨hfns, id, ty, hid, hget⟩ := requireFunction_names f s
  obtain ⟨fns, heq⟩ := requireFunction_eq f s
  rw [hid]
  refine ⟨?_, _, f.name, hget, rfl, hf⟩
  rw [heq] at hfns ⊢
  exact { h with
    code := fun b hb i hi v hv => (h.code b hb i hi v hv).mono hfns
    vars := fun v hv => (h.vars v hv).mono hfns }

end NamesOnly

/-! ## Evaluation -/

/-- The state after a step that names nothing else, and a result that may be named. -/
def Keeps (F G : String → Prop) (b₀ : Nat) (r : Rtv) (s' : St) : Prop :=
  NamesOnly F G b₀ s' ∧ MayName F G s'.fns r.v.ref

/-- Evaluating a form that is checked against functions in `F` names nothing else. -/
def Naming (run : Nat → Bool) (F G : String → Prop) (b₀ : Nat) (e : Form) : Prop :=
  ∀ {Γ s r s'}, e.ok Γ = true → (∀ f ∈ Γ.funs, F f.name) → Building s → NamesOnly F G b₀ s →
    eval run e.expr s = .ok (r, s') → Keeps F G b₀ r s'

/-- The same for what straight-line code computes. -/
theorem NamesOnly.computes (h : NamesOnly F G b₀ s)
    (k : Writes (MayName F G s.fns) (MayName F G s.fns) s s' ∧ MayName F G s.fns r.v.ref) :
    Keeps F G b₀ r s' := by
  refine ⟨h.writes k.1, ?_⟩
  obtain ⟨⟨is, rfl, -⟩, hr⟩ := k
  exact hr

theorem Keeps.prepareRead (h : Keeps F G b₀ v s) (hr : prepareRead v s = .ok (r, s')) :
    Keeps F G b₀ r s' :=
  h.1.computes (prepareRead_writes (ofBlock_mayName s s) h.2 hr)

theorem Keeps.toCondition (h : Keeps F G b₀ v s) (hr : toCondition v s = .ok (r, s')) :
    Keeps F G b₀ r s' :=
  h.1.computes (toCondition_writes (ofBlock_mayName s s) h.2 hr)

/-- A value that was there before the state changed. -/
theorem mayName_later (h : MayName F G s.fns x) (k : Evolves s s') : MayName F G s'.fns x :=
  h.mono k.fns

theorem int_naming (n : Int) : Naming run F G b₀ (.int n) := by
  intro Γ s r s' _ _ _ h hr
  rw [Form.expr, eval] at hr
  cases hr
  exact ⟨h, trivial⟩

theorem char_naming (n : Int) : Naming run F G b₀ (.char n) := by
  intro Γ s r s' _ _ _ h hr
  rw [Form.expr, eval] at hr
  cases hr
  exact ⟨h, trivial⟩

theorem find_vars {y : String} {w : FunVar}
    (h : (s.curfn.bind fun scopes => lookupInFunScope scopes y) = some w) : w ∈ vars s := by
  obtain ⟨scopes, hs, hw⟩ := Option.bind_eq_some_iff.1 h
  obtain ⟨ws, hws, hw⟩ := List.exists_of_findSome?_eq_some hw
  rw [vars, hs]
  exact List.mem_flatten.2 ⟨ws, hws, List.mem_of_find?_eq_some hw⟩

theorem ident_naming (y : String) (t : IntTy) : Naming run F G b₀ (.ident y t) := by
  intro Γ s r s' _ _ _ h hr
  rw [Form.expr, eval, evalIdent] at hr
  split at hr
  · next w hw =>
    cases hr
    exact ⟨h, h.vars w (find_vars hw)⟩
  · split at hr
    · next g hg =>
      cases hr
      exact ⟨h, h.globals y (by rw [hg]; rfl)⟩
    · cases hr

theorem addVariable_keeps {y : String} {t : Rtt} (h : NamesOnly F G b₀ s)
    (hr : addVariable y t s = .ok (r, s')) : Keeps F G b₀ r s' := by
  unfold addVariable at hr
  split at hr
  · next vs scopes hcur =>
    cases hr
    have halloca := h.emit (i := .alloca t.l) fun _ hv => nomatch hv
    refine ⟨{ halloca with vars := fun w hw => ?_ }, trivial⟩
    rw [vars_of_scopes rfl] at hw
    rcases List.mem_cons.1 hw with rfl | hw
    · trivial
    · exact h.vars w (by rw [vars_of_scopes hcur]; exact hw)
  · cases hr

/-- `(var t x)` is a `progn` with an empty one behind the variable. -/
theorem var_naming (y : String) (t : IntTy) : Naming run F G b₀ (.var y t) := by
  intro Γ s r s' _ _ _ h hr
  rw [Form.expr, eval, evalProgn, eval] at hr
  obtain ⟨⟨r₁, s₁⟩, h₁, hr⟩ := bind_ok.1 hr
  simp only [evalProgn, eval] at hr
  cases hr
  exact ⟨(addVariable_keeps h h₁).1, trivial⟩

theorem assign_keeps (ha : Keeps F G b₀ a s) (hb : Keeps F G b₀ b s₁) (hk : Evolves s s₁)
    (hr : lowerAssign a b s₁ = .ok s') : NamesOnly F G b₀ s' :=
  hb.1.writes (lowerAssign_writes (ofBlock_mayName s₁ s₁) (mayName_later ha.2 hk) hb.2 hr)

theorem varInit_naming (y : String) (t : IntTy) (he : Naming run F G b₀ e) :
    Naming run F G b₀ (.varInit y t e) := by
  intro Γ s r s' hok hF hs h hr
  simp only [Form.ok, Bool.and_eq_true] at hok
  rw [Form.expr, eval, eval] at hr
  obtain ⟨⟨v, s₁⟩, h₁, hr⟩ := bind_ok.1 hr
  obtain ⟨⟨w, s₂⟩, h₂, hr⟩ := bind_ok.1 hr
  obtain ⟨s₃, h₃, hr⟩ := bind_ok.1 hr
  cases hr
  have hvar := addVariable_keeps h h₁
  have hk₁ := addVariable_evolves hs h₁
  have hk₂ := eval_evolves run _ hk₁.building h₂
  exact ⟨assign_keeps hvar (he hok.1 hF hk₁.building hvar.1 h₂) hk₂ h₃, trivial⟩

theorem assign_naming {lhs rhs : Form} (ha : Naming run F G b₀ lhs) (hb : Naming run F G b₀ rhs) :
    Naming run F G b₀ (.assign lhs rhs) := by
  intro Γ s r s' hok hF hs h hr
  simp only [Form.ok, Bool.and_eq_true] at hok
  rw [Form.expr, eval] at hr
  obtain ⟨⟨v, s₁⟩, h₁, hr⟩ := bind_ok.1 hr
  obtain ⟨⟨w, s₂⟩, h₂, hr⟩ := bind_ok.1 hr
  obtain ⟨s₃, h₃, hr⟩ := bind_ok.1 hr
  cases hr
  have hleft := ha hok.1.1.1.1 hF hs h h₁
  have hk₁ := eval_evolves run _ hs h₁
  have hk₂ := eval_evolves run _ hk₁.building h₂
  exact ⟨assign_keeps hleft (hb hok.1.1.1.2 hF hk₁.building hleft.1 h₂) hk₂ h₃, trivial⟩

/-! ## Operators -/

theorem operands_naming {a b : Form} {p : Rtv × Rtv} (ha : Naming run F G b₀ a)
    (hb : Naming run F G b₀ b) (hoka : a.ok Γ = true) (hokb : b.ok (Γ.add a.adds) = true)
    (hF : ∀ f ∈ Γ.funs, F f.name) (hs : Building s) (h : NamesOnly F G b₀ s)
    (hr : operands run a.expr b.expr s = .ok (p, s')) :
    Keeps F G b₀ p.1 s' ∧ Keeps F G b₀ p.2 s' := by
  obtain ⟨⟨v, s₁⟩, h₁, hr⟩ := bind_ok.1 hr
  obtain ⟨⟨v', s₂⟩, h₂, hr⟩ := bind_ok.1 hr
  obtain ⟨⟨w, s₃⟩, h₃, hr⟩ := bind_ok.1 hr
  obtain ⟨⟨w', s₄⟩, h₄, hr⟩ := bind_ok.1 hr
  have hk₁ := eval_evolves run _ hs h₁
  have hk₂ := prepareRead_evolves hk₁.building h₂
  have hk₃ := eval_evolves run _ hk₂.building h₃
  have hk₄ := prepareRead_evolves hk₃.building h₄
  have hleft := (ha hoka hF hs h h₁).prepareRead h₂
  have hright := (hb hokb hF hk₂.building hleft.1 h₃).prepareRead h₄
  obtain ⟨hw, hleft', hright'⟩ := expectSameNumber_writes (ofBlock_mayName s₄ s₄)
    (mayName_later hleft.2 (hk₃.trans hk₄)) hright.2 hr
  exact ⟨hright.1.computes ⟨hw, hleft'⟩, hright.1.computes ⟨hw, hright'⟩⟩

theorem arith_naming {a b : Form} (op : ArithOp) (ha : Naming run F G b₀ a)
    (hb : Naming run F G b₀ b) : Naming run F G b₀ (.arith op a b) := by
  intro Γ s r s' hok hF hs h hr
  simp only [Form.ok, Bool.and_eq_true] at hok
  rw [Form.expr, eval_arith] at hr
  obtain ⟨⟨p, s₁⟩, h₁, hr⟩ := bind_ok.1 hr
  obtain ⟨hleft, hright⟩ := operands_naming ha hb hok.1.1.1 hok.1.1.2 hF hs h h₁
  exact hleft.1.computes (buildArith_writes (ofBlock_mayName s₁ s₁) hleft.2 hright.2 hr)

theorem cmp_naming {a b : Form} (op : CmpOp) (ha : Naming run F G b₀ a)
    (hb : Naming run F G b₀ b) : Naming run F G b₀ (.cmp op a b) := by
  intro Γ s r s' hok hF hs h hr
  simp only [Form.ok, Bool.and_eq_true] at hok
  rw [Form.expr, eval_cmp] at hr
  obtain ⟨⟨p, s₁⟩, h₁, hr⟩ := bind_ok.1 hr
  cases hr
  obtain ⟨hleft, hright⟩ := operands_naming ha hb hok.1.1.1 hok.1.1.2 hF hs h h₁
  exact hleft.1.computes (buildCmp_writes op (ofBlock_mayName s₁ s₁) hleft.2 hright.2)

theorem not_naming {a : Form} (ha : Naming run F G b₀ a) : Naming run F G b₀ (.not a) := by
  intro Γ s r s' hok hF hs h hr
  simp only [Form.ok, Bool.and_eq_true] at hok
  rw [Form.expr, eval] at hr
  obtain ⟨⟨v, s₁⟩, h₁, hr⟩ := bind_ok.1 hr
  obtain ⟨⟨v', s₂⟩, h₂, hr⟩ := bind_ok.1 hr
  cases hr
  have hread := (ha hok.1 hF hs h h₁).prepareRead h₂
  exact ⟨hread.1.emit (i := .not v'.v) (List.forall_mem_singleton.2 hread.2), trivial⟩

/-! ## Control structures -/

theorem cond_naming (hc : Naming run F G b₀ c) (hb : Naming run F G b₀ body) :
    Naming run F G b₀ (.cond c body) := by
  intro Γ s r s' hok hF hs h hr
  simp only [Form.ok, Bool.and_eq_true] at hok
  obtain ⟨fn, hfn⟩ := Option.isSome_iff_exists.1 hs.fn
  have hstay : ∀ cv s₁, eval run c.expr s = .ok (cv, s₁) → s₁.curllvmfn = some fn :=
    fun cv s₁ h₁ => (eval_evolves run _ hs h₁).curllvmfn.trans hfn
  obtain ⟨w, rfl, rfl⟩ := eval_cond_run hstay hr
  have hstart := w.start_evolves hs (eval_evolves run _)
  have hbody := eval_evolves run _ hstart.building w.yes
  have hready := (hc hok.1.1 hF hs h w.cond).toCondition w.bit
  have hguard : NamesOnly F G b₀ w.bodyStart :=
    ((hready.1.fresh fn).fresh fn).condBranch hready.2 _ _ _
  have hlast := (hb hok.1.2 hF hstart.building hguard w.yes).1.branch
    (w.ready.graph.size + 1) (w.ready.graph.size + 1)
  exact ⟨hlast, hready.2.mono hbody.fns⟩

theorem if_naming (hc : Naming run F G b₀ c) (ht : Naming run F G b₀ t)
    (he : Naming run F G b₀ e) : Naming run F G b₀ (.if_ c t e) := by
  intro Γ s r s' hok hF hs h hr
  simp only [Form.ok, Bool.and_eq_true] at hok
  obtain ⟨fn, hfn⟩ := Option.isSome_iff_exists.1 hs.fn
  obtain ⟨w, hlast⟩ := eval_if_run hfn hr
  have hthree := (threeBlocks_evolves hs fn).building
  have hthen := (w.then_evolves hs (eval_evolves run _)).1.building
  obtain ⟨helse, hsize⟩ := w.else_evolves hs (eval_evolves run _) (eval_evolves run _)
  have hno := eval_evolves run _ helse.building w.no
  obtain ⟨idx, hidx⟩ := ifEnd_ref hlast
  obtain ⟨dest, κ, s₁, -, hκ, -, -, rfl⟩ := ifEnd_ok hlast (hno.lt_size hsize)
  have hready := (hc hok.1.1.1.1.1.1.1.1 hF hthree (h.threeBlocks fn) w.cond).toCondition w.bit
  have hyes := ht hok.1.1.1.1.1.1.1.2 hF hthen
    (hready.1.condBranch hready.2 s.graph.size (s.graph.size + 1) s.graph.size) w.yes
  have hafter := he hok.1.1.1.1.1.1.2 hF helse.building
    (hyes.1.branch (s.graph.size + 2) (s.graph.size + 1)) w.no
  obtain ⟨hw, hκ'⟩ := convertType_writes (ofBlock_mayName w.afterElse w.afterElse) hafter.2 hκ
  have hconv := hafter.1.computes ⟨hw, hκ' κ rfl⟩
  have hrt : MayName F G s₁.fns w.rt.v.ref :=
    hyes.2.mono (hno.trans (convertType_evolves hno.building hκ)).fns
  refine ⟨(hconv.1.branch (s.graph.size + 2) (s.graph.size + 2)).emit ?_, ?_⟩
  · exact List.forall_mem_cons.2 ⟨hrt, List.forall_mem_singleton.2 hconv.2⟩
  · rw [hidx]
    trivial

theorem while_naming (hc : Naming run F G b₀ c) (hb : Naming run F G b₀ body) :
    Naming run F G b₀ (.while_ c body) := by
  intro Γ s r s' hok hF hs h hr
  simp only [Form.ok, Bool.and_eq_true] at hok
  obtain ⟨fn, hfn⟩ := Option.isSome_iff_exists.1 hs.fn
  obtain ⟨w, rfl, rfl⟩ := eval_while_run hfn hr
  have htest := (testStart_evolves hs fn).building
  have hstart := (w.start_evolves hs (eval_evolves run _)).1.building
  have hready := (hc hok.1.1 hF htest ((h.threeBlocks fn).branch _ _) w.cond).toCondition w.bit
  have hloop := hready.1.condBranch hready.2 (s.graph.size + 1) (s.graph.size + 2)
    (s.graph.size + 1)
  have hin : NamesOnly F G b₀ (w.bodyStart.enterLoop s.graph.size (s.graph.size + 2)) :=
    { hloop with }
  have hbuild : Building (w.bodyStart.enterLoop s.graph.size (s.graph.size + 2)) :=
    ⟨hstart.bldr, hstart.lt, hstart.fn⟩
  have hbody := hb hok.1.2 hF hbuild hin w.yes
  have hrest : NamesOnly F G b₀ (w.bodyStart.restoreLoop w.afterBody) := { hbody.1 with }
  exact ⟨hrest.branch s.graph.size (s.graph.size + 2), trivial⟩

theorem jumpOut_naming {dest : Option Nat} (hs : Building s) (h : NamesOnly F G b₀ s)
    (hr : jumpOut dest s = .ok (r, s')) : Keeps F G b₀ r s' := by
  obtain ⟨fn, hfn⟩ := Option.isSome_iff_exists.1 hs.fn
  cases dest with
  | none => cases hr
  | some b =>
    rw [jumpOut_eq hfn] at hr
    cases hr
    have hemit := h.emit (i := .br b) fun _ hv => nomatch hv
    exact ⟨{ hemit.fresh fn with }, trivial⟩

theorem break_naming : Naming run F G b₀ .break_ := by
  intro Γ s r s' _ _ hs h hr
  rw [Form.expr, eval] at hr
  split at hr
  · exact jumpOut_naming hs h hr
  · cases hr

theorem continue_naming : Naming run F G b₀ .continue_ := by
  intro Γ s r s' _ _ hs h hr
  rw [Form.expr, eval] at hr
  split at hr
  · exact jumpOut_naming hs h hr
  · cases hr

/-! ## Sequences and calls -/

/-- The forms of a `progn`, one after the other. -/
theorem progn_keeps (hes : ∀ e ∈ es, Naming run F G b₀ e) (hok : Form.allOk es Γ = true)
    (hF : ∀ f ∈ Γ.funs, F f.name) (hs : Building s) (h : NamesOnly F G b₀ s)
    (hr : evalProgn run (Form.exprs es) s = .ok (r, s')) : Keeps F G b₀ r s' := by
  induction es generalizing Γ s with
  | nil =>
    rw [Form.exprs, evalProgn] at hr
    cases hr
    exact ⟨h, trivial⟩
  | cons e es ih =>
    simp only [Form.allOk, Bool.and_eq_true] at hok
    have hfirst : Naming run F G b₀ e := hes e List.mem_cons_self
    cases es with
    | nil =>
      rw [Form.exprs, Form.exprs, evalProgn] at hr
      exact hfirst hok.1 hF hs h hr
    | cons e' es =>
      rw [Form.exprs, Form.exprs, evalProgn] at hr
      obtain ⟨⟨r₁, s₁⟩, h₁, hr⟩ := bind_ok.1 hr
      rw [← Form.exprs] at hr
      exact ih (fun e he => hes e (List.mem_cons_of_mem _ he)) (Γ := Γ.add e.adds) hok.2 hF
        (eval_evolves run _ hs h₁).building (hfirst hok.1 hF hs h h₁).1 hr

theorem progn_naming (hes : ∀ e ∈ es, Naming run F G b₀ e) : Naming run F G b₀ (.progn es) := by
  intro Γ s r s' hok hF hs h hr
  rw [Form.ok] at hok
  rw [Form.expr, eval] at hr
  exact progn_keeps hes hok hF hs h hr

theorem scope_naming (hes : ∀ e ∈ es, Naming run F G b₀ e) : Naming run F G b₀ (.scope es) := by
  intro Γ s r s' hok hF hs h hr
  rw [Form.ok] at hok
  rw [Form.expr, eval] at hr
  split at hr
  · exact progn_keeps hes hok hF hs h hr
  · next scopes hcur =>
    obtain ⟨⟨r₁, s₁⟩, h₁, hr⟩ := bind_ok.1 hr
    cases hr
    have hin : NamesOnly F G b₀ { s with curfn := some ([] :: scopes) } :=
      { h with vars := fun w hw => h.vars w (by rw [vars, hcur]; exact hw) }
    have hbuild : Building { s with curfn := some ([] :: scopes) } := ⟨hs.bldr, hs.lt, hs.fn⟩
    have hlast := progn_keeps hes hok hF hbuild hin h₁
    refine ⟨{ hlast.1 with vars := fun w hw => hlast.1.vars w ?_ }, hlast.2⟩
    cases hcur₁ : s₁.curfn with
    | none => simp [vars, St.popScope, hcur₁] at hw
    | some chain =>
      simp only [vars, St.popScope, hcur₁, Option.map_some, Option.getD_some] at hw ⊢
      obtain ⟨ws, hws, hw⟩ := List.mem_flatten.1 hw
      exact List.mem_flatten.2 ⟨ws, List.mem_of_mem_tail hws, hw⟩

theorem args_keep (hes : ∀ e ∈ es, Naming run F G b₀ e) {rs : List Rtv}
    (hok : Form.allOk es Γ = true) (hF : ∀ f ∈ Γ.funs, F f.name) (hs : Building s)
    (h : NamesOnly F G b₀ s) (hr : evalArgs run (Form.exprs es) s = .ok (rs, s')) :
    NamesOnly F G b₀ s' ∧ Evolves s s' ∧ ∀ r ∈ rs, MayName F G s'.fns r.v.ref := by
  induction es generalizing Γ s rs with
  | nil =>
    rw [Form.exprs, evalArgs] at hr
    cases hr
    exact ⟨h, .refl hs, by rintro r ⟨⟩⟩
  | cons e es ih =>
    simp only [Form.allOk, Bool.and_eq_true] at hok
    rw [Form.exprs, evalArgs] at hr
    obtain ⟨⟨r₁, s₁⟩, h₁, hr⟩ := bind_ok.1 hr
    obtain ⟨⟨rs₁, s₂⟩, h₂, hr⟩ := bind_ok.1 hr
    cases hr
    have hfirst := hes e List.mem_cons_self hok.1 hF hs h h₁
    have hk := eval_evolves run _ hs h₁
    obtain ⟨hrest, hk', hrs⟩ := ih (fun e he => hes e (List.mem_cons_of_mem _ he))
      (Γ := Γ.add e.adds) hok.2 hF hk.building hfirst.1 h₂
    exact ⟨hrest, hk.trans hk', List.forall_mem_cons.2 ⟨mayName_later hfirst.2 hk', hrs⟩⟩

theorem call_naming (f : Sig) (hes : ∀ e ∈ es, Naming run F G b₀ e) :
    Naming run F G b₀ (.call f es) := by
  intro Γ s r s' hok hF hs h hr
  simp only [Form.ok, Bool.and_eq_true, List.contains_iff_mem] at hok
  rw [Form.expr, eval] at hr
  split at hr
  · cases hr
  · next f' hf' =>
    obtain ⟨⟨rs, s₁⟩, h₁, hr⟩ := bind_ok.1 hr
    obtain ⟨hreq, hfn⟩ := h.require (h.funs _ _ (hF f hok.1.1.1) hf')
    obtain ⟨hargs, hk, hrs⟩ := args_keep hes hok.1.1.2 hF
      (requireFunction_evolves hs f').building hreq h₁
    exact hargs.computes
      (lowerFuncall_writes (ofBlock_mayName s₁ s₁) (mayName_later hfn hk) hrs hr)

mutual

theorem eval_naming (run : Nat → Bool) (F G : String → Prop) (b₀ : Nat) :
    ∀ e : Form, Naming run F G b₀ e
  | .int n => int_naming n
  | .char n => char_naming n
  | .ident y t => ident_naming y t
  | .var y t => var_naming y t
  | .varInit y t e => varInit_naming y t (eval_naming run F G b₀ e)
  | .assign lhs rhs => assign_naming (eval_naming run F G b₀ lhs) (eval_naming run F G b₀ rhs)
  | .arith op a b => arith_naming op (eval_naming run F G b₀ a) (eval_naming run F G b₀ b)
  | .cmp op a b => cmp_naming op (eval_naming run F G b₀ a) (eval_naming run F G b₀ b)
  | .not a => not_naming (eval_naming run F G b₀ a)
  | .if_ c t e => if_naming (eval_naming run F G b₀ c) (eval_naming run F G b₀ t)
      (eval_naming run F G b₀ e)
  | .cond c body => cond_naming (eval_naming run F G b₀ c) (eval_naming run F G b₀ body)
  | .while_ c body => while_naming (eval_naming run F G b₀ c) (eval_naming run F G b₀ body)
  | .break_ => break_naming
  | .continue_ => continue_naming
  | .progn es => progn_naming (evals_naming run F G b₀ es)
  | .scope es => scope_naming (evals_naming run F G b₀ es)
  | .call f es => call_naming f (evals_naming run F G b₀ es)

theorem evals_naming (run : Nat → Bool) (F G : String → Prop) (b₀ : Nat) :
    ∀ es : List Form, ∀ e ∈ es, Naming run F G b₀ e
  | [] => fun _ he => nomatch he
  | e :: es => List.forall_mem_cons.2 ⟨eval_naming run F G b₀ e, evals_naming run F G b₀ es⟩

end

/-! ## Functions -/

variable {globals : List (String × IntTy)} {funs : List Sig} {g : Func}

/-- The names of functions. -/
def Called (funs : List Sig) (y : String) : Prop := ∃ f ∈ funs, f.name = y

/-- The state in which a body is compiled. -/
theorem enterFunction_naming (f : Fun) (hf : ∀ y f', F y → s.funs.lookup y = some f' → F f'.name)
    (hG : ∀ y, (s.globals.lookup y).isSome → G y) :
    NamesOnly F G s.graph.size (enterFunction f false s) := by
  have hlt : (entryState f false s).block < (entryState f false s).graph.size := by
    rw [entryState_block, entryState_graph, Cfg.size_fresh]
    exact Nat.lt_succ_self _
  obtain ⟨⟨is, hs, his⟩, hvars⟩ :=
    bindParms_writes (C := MayName F G (entryState f false s).fns) f.parms 0 []
      (ofBlock_mayName (F := F) (G := G) (entryState f false s) (entryState f false s))
      (fun _ => trivial) hlt
  rw [enterFunction_of_parms hs]
  refine ⟨fun b hb i hi => ?_, fun w hw => ?_, hf, hG⟩
  · rcases Cfg.mem_code_append _ hi with hi | hi
    · rw [entryState_graph, Cfg.code_fresh, Cfg.code_of_size_le _ hb] at hi
      cases hi
    · exact values_of_refers (his i hi)
  · rw [vars_of_scopes rfl, List.flatten_nil, List.append_nil] at hw
    rcases hvars w hw with hw | ⟨k, ty, hk, -⟩
    · cases hw
    · rw [hk]
      trivial

/-- The code of a function that is checked names the functions before it and
globals. -/
theorem defun_naming (h : Outside globals funs s) (hok : g.ok globals funs = true)
    (hnew : s.funs.lookup g.sig.name = none) (hr : eval run g.expr s = .ok (r, s')) :
    ∀ b, s.graph.size ≤ b → ∀ i ∈ s'.graph.code b, ∀ v ∈ i.values,
      MayName (Called funs) (fun y => (s.globals.lookup y).isSome) s'.fns v.ref := by
  simp only [Func.ok, Bool.and_eq_true] at hok
  rw [Func.expr, eval, registerNew, show s.funs.lookup g.sig.fn.name = none from hnew, ok_bind]
    at hr
  obtain ⟨s₁, h₁, hr⟩ := bind_ok.1 hr
  cases hr
  have hfuns : ∀ y f', Called funs y → (s.register g.sig.fn).funs.lookup y = some f' →
      Called funs f'.name := by
    rintro y f' ⟨f, hf, rfl⟩ hlook
    rw [St.register, List.lookup_cons] at hlook
    split at hlook
    · next hy =>
      cases hlook
      exact ⟨f, hf, eq_of_beq hy⟩
    · rw [h.funs f hf] at hlook
      cases hlook
      exact ⟨f, hf, rfl⟩
  have hin : NamesOnly (Called funs) (fun y => (s.globals.lookup y).isSome) s.graph.size
      (enterFunction g.sig.fn false (s.register g.sig.fn)) :=
    enterFunction_naming g.sig.fn hfuns fun _ hy => hy
  unfold funbody at h₁
  rw [if_pos (show (s.register g.sig.fn).precompiled = true from h.precompiled)] at h₁
  obtain ⟨⟨ret, s₂⟩, h₂, h₁⟩ := bind_ok.1 h₁
  obtain ⟨⟨ret', s₃⟩, h₃, h₁⟩ := bind_ok.1 h₁
  obtain ⟨s₄, h₄, h₁⟩ := bind_ok.1 h₁
  cases h₁
  have hbody := (eval_naming run _ _ _ g.body hok.1 (fun f hf => ⟨f, hf, rfl⟩)
    (enterFunction_building _ _ _) hin h₂).prepareRead h₃
  have hlast := hbody.1.writes (buildReturn_writes (ofBlock_mayName s₃ s₃) hbody.2 h₄)
  obtain ⟨pos, hpos⟩ := exists_setBuilderPosition (s.register g.sig.fn).bldr s₄
  rw [hpos]
  exact hlast.code

end Dolorem.Programs
