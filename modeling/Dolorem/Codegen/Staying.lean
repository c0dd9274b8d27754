import Dolorem.Codegen.Home

/-!
# Evaluation stays at home

As long as the quotations in it use functions of their own module, evaluation
keeps the function that is being compiled at home, however definitions, lambdas
and quotations are nested (`eval_stays`). `stays_home` says it for every state
that evaluation comes to. A quotation does use functions of another module when
an expression that is unquoted in it has compiled a function there that contains
a quotation (`strays`).
-/

namespace Dolorem.Codegen

open CodeGraph

variable {run : Nat → Bool} {s s' s₁ s₂ : St} {fn : Nat} {own : Option Nat} {r v : Rtv}
variable {c t e body : Expr} {es : List Expr} {q : Quoted} {i : Instr} {x : Ref}

/-! ## Expressions -/

/-- In the evaluation of `e` from `s`, the quotations use functions of their own module. A form
outside the model has a value of the function it is in. -/
structure Steadfast (run : Nat → Bool) (e : Expr) (s : St) : Prop where
  quotes : ∀ q t, Visits run (e, s) (.quote q, t) → Steady run q t
  forms : ∀ ks r t fn, Visits run (e, s) (.form ks r, t) → t.curllvmfn = some fn →
    Home fn t r.v.ref

theorem Steadfast.sub (h : Steadfast run e s) (k : Subeval run e s t s') : Steadfast run t s' :=
  ⟨fun q u hv => h.quotes q u (.head k hv), fun ks r u fn hv => h.forms ks r u fn (.head k hv)⟩

/-- Evaluating `e` stays at home, and its value is at home too. -/
def Staying (run : Nat → Bool) (e : Expr) : Prop :=
  ∀ {fn s r s'}, AtHome fn s → Steadfast run e s → eval run e s = .ok (r, s') →
    Stays fn s s' ∧ Home fn s' r.v.ref

theorem progn_stays (hes : ∀ e ∈ es, Staying run e) (h : AtHome fn s)
    (hq : ∀ e t, InProgn run es s e t → Steadfast run e t)
    (hr : evalProgn run es s = .ok (r, s')) : Stays fn s s' ∧ Home fn s' r.v.ref := by
  induction es generalizing s r with
  | nil =>
    rw [evalProgn] at hr
    cases hr
    exact ⟨h.refl, trivial⟩
  | cons e es ih =>
    cases es with
    | nil =>
      rw [evalProgn] at hr
      exact hes e List.mem_cons_self h (hq e s (.head e [] s)) hr
    | cons e' es =>
      rw [evalProgn] at hr
      obtain ⟨⟨r₁, s₁⟩, h₁, hr⟩ := bind_ok.1 hr
      have hfirst := (hes e List.mem_cons_self h (hq e s (.head e _ s)) h₁).1
      have hrest := ih (fun e he => hes e (List.mem_cons_of_mem _ he)) hfirst.home
        (fun e t ht => hq e t (.tail h₁ ht)) hr
      exact ⟨hfirst.trans hrest.1, hrest.2⟩

theorem args_stay (hes : ∀ e ∈ es, Staying run e) (h : AtHome fn s)
    (hq : ∀ e t, InProgn run es s e t → Steadfast run e t) {vs : List Rtv}
    (hr : evalArgs run es s = .ok (vs, s')) : Stays fn s s' ∧ ∀ v ∈ vs, Home fn s' v.v.ref := by
  induction es generalizing s vs with
  | nil =>
    rw [evalArgs] at hr
    cases hr
    exact ⟨h.refl, fun _ hv => absurd hv List.not_mem_nil⟩
  | cons e es ih =>
    rw [evalArgs] at hr
    obtain ⟨⟨v, s₁⟩, h₁, hr⟩ := bind_ok.1 hr
    obtain ⟨⟨vs', s₂⟩, h₂, hr⟩ := bind_ok.1 hr
    cases hr
    have hfirst := hes e List.mem_cons_self h (hq e s (.head e _ s)) h₁
    have hrest := ih (fun e he => hes e (List.mem_cons_of_mem _ he)) hfirst.1.home
      (fun e t ht => hq e t (.tail h₁ ht)) h₂
    exact ⟨hfirst.1.trans hrest.1,
      List.forall_mem_cons.2 ⟨hfirst.2.extends hrest.1.extends_, hrest.2⟩⟩

theorem staying_call {f : String} (hes : ∀ e ∈ es, Staying run e) : Staying run (.call f es) := by
  intro fn s r s' h hq hr
  rw [eval] at hr
  split at hr
  · cases hr
  · next f hf =>
    obtain ⟨⟨vs, s₁⟩, h₁, hr⟩ := bind_ok.1 hr
    have hreq := h.requireFunction f
    have hargs := args_stay hes hreq.1.home (fun e t ht => hq.sub (.call hf ht)) h₁
    have hcall := hargs.1.home.wrote (lowerFuncall_writes hargs.1.home.ofBlock
      (hreq.2.extends hargs.1.extends_) hargs.2 hr)
    exact ⟨(hreq.1.trans hargs.1).trans hcall.1, hcall.2⟩

/-- Into a scope. -/
theorem AtHome.pushScope (h : AtHome fn s) {scopes : List (List FunVar)}
    (hs : s.curfn = some scopes) : Stays fn s { s with curfn := some ([] :: scopes) } := by
  refine h.scopes fun c hc vars hv v hm => ?_
  cases hc
  rcases List.mem_cons.1 hv with rfl | hv
  · cases hm
  · exact h.vars scopes hs vars hv v hm

theorem AtHome.popScope (h : AtHome fn s) : Stays fn s s.popScope := by
  refine h.scopes fun c hc vars hv v hm => ?_
  obtain ⟨scopes, hs, rfl⟩ := Option.map_eq_some_iff.1 hc
  exact h.vars scopes hs vars (List.mem_of_mem_tail hv) v hm

theorem staying_scope (hes : ∀ e ∈ es, Staying run e) : Staying run (.scope es) := by
  intro fn s r s' h hq hr
  rw [eval] at hr
  split at hr
  · next hs => exact progn_stays hes h (fun e t ht => hq.sub (.freeScope hs ht)) hr
  · next scopes hs =>
    obtain ⟨⟨r₁, s₁⟩, h₁, hr⟩ := bind_ok.1 hr
    cases hr
    have hpush := h.pushScope hs
    have hprogn := progn_stays hes hpush.home (fun e t ht => hq.sub (.scope hs ht)) h₁
    have hpop := hprogn.1.home.popScope
    exact ⟨(hpush.trans hprogn.1).trans hpop, hprogn.2.extends hpop.extends_⟩

/-! ### Control structures -/

section Control

variable {cv cb rt re : Rtv}

/-- Up to the body of a `cond`. -/
theorem guard_stays (h : AtHome fn s) (hc : Staying run c) (hq : Steadfast run c s)
    (h₁ : eval run c s = .ok (cv, s₁)) (h₂ : toCondition cv s₁ = .ok (cb, s₂)) :
    Stays fn s (guardStart fn cb.v s₂) ∧ Home fn (guardStart fn cb.v s₂) cb.v.ref ∧
      (guardStart fn cb.v s₂).graph.owner? (s₂.graph.size + 1) = some fn := by
  have htest := hc h hq h₁
  have hbit := htest.1.home.toCondition htest.2 h₂
  have hfresh := hbit.1.home.fresh
  have htwo : Stays fn s₂ (twoBlocks fn s₂) := hfresh.trans hfresh.home.fresh
  have hcb := hbit.2.extends htwo.extends_
  have hjump : Stays fn (twoBlocks fn s₂) (guardStart fn cb.v s₂) :=
    htwo.home.jump (i := .condBr cb.v s₂.graph.size (s₂.graph.size + 1))
      (List.forall_mem_singleton.2 hcb) (twoBlocks_owner (i := 0) Nat.two_pos)
  exact ⟨((htest.1.trans hbit.1).trans htwo).trans hjump, hcb.extends hjump.extends_,
    owner_extends (twoBlocks_owner (i := 1) Nat.one_lt_two) hjump.extends_⟩

theorem staying_cond (hc : Staying run c) (hb : Staying run body) :
    Staying run (.cond c body) := by
  intro fn s r s' h hq hr
  have hfn : ∀ cv s₁, eval run c s = .ok (cv, s₁) → s₁.curllvmfn = some fn := fun cv s₁ h₁ =>
    (hc h (hq.sub (.condTest c body s)) h₁).1.home.curllvmfn
  obtain ⟨w, rfl, rfl⟩ := eval_cond_run hfn hr
  have hguard := guard_stays h hc (hq.sub (.condTest c body s)) w.cond w.bit
  have hready := (toCondition_curllvmfn w.bit).trans (hfn _ _ w.cond)
  have hbody := hb hguard.1.home (hq.sub (.condBody w.cond w.bit hready)) w.yes
  have hlast := hbody.1.home.jump (i := .br (w.ready.graph.size + 1)) (fun _ hv => nomatch hv)
    (owner_extends hguard.2.2 hbody.1.extends_)
  have hend := hbody.1.trans hlast
  exact ⟨hguard.1.trans hend, hguard.2.1.extends hend.extends_⟩

/-- The blocks of an `if` or `while` whose evaluation started with `s` belong to `fn` in `s'`. -/
def OwnsBlocks (fn : Nat) (s s' : St) : Prop :=
  ∀ i, i < 3 → s'.graph.owner? (s.graph.size + i) = some fn

theorem OwnsBlocks.extends (h : OwnsBlocks fn s s₁) (k : Extends own s₁ s₂) : OwnsBlocks fn s s₂ :=
  fun i hi => owner_extends (h i hi) k

theorem threeBlocks_owns (fn : Nat) (s : St) : OwnsBlocks fn s (threeBlocks fn s) :=
  fun _ hi => threeBlocks_owner hi

/-- Up to the first branch of an `if`. -/
theorem then_stays (h : AtHome fn s) (hc : Staying run c)
    (hq : Steadfast run c (threeBlocks fn s))
    (h₁ : eval run c (threeBlocks fn s) = .ok (cv, s₁)) (h₂ : toCondition cv s₁ = .ok (cb, s₂)) :
    Stays fn s (thenStart s.graph.size cb.v s₂) ∧
      OwnsBlocks fn s (thenStart s.graph.size cb.v s₂) := by
  have hthree := h.threeBlocks
  have htest := hc hthree.home hq h₁
  have hbit := htest.1.home.toCondition htest.2 h₂
  have hready := htest.1.trans hbit.1
  have howns := (threeBlocks_owns fn s).extends hready.extends_
  have hjump : Stays fn s₂ (thenStart s.graph.size cb.v s₂) :=
    hready.home.jump (i := .condBr cb.v s.graph.size (s.graph.size + 1))
      (List.forall_mem_singleton.2 hbit.2) (howns 0 (Nat.succ_pos 2))
  exact ⟨(hthree.trans hready).trans hjump, howns.extends hjump.extends_⟩

/-- Up to the second branch of an `if`. -/
theorem else_stays (h : AtHome fn s) (hc : Staying run c) (ht : Staying run t)
    (hqc : Steadfast run c (threeBlocks fn s))
    (hqt : Steadfast run t (thenStart s.graph.size cb.v s₂))
    (h₁ : eval run c (threeBlocks fn s) = .ok (cv, s₁)) (h₂ : toCondition cv s₁ = .ok (cb, s₂))
    (h₃ : eval run t (thenStart s.graph.size cb.v s₂) = .ok (rt, s')) :
    Stays fn s (elseStart s.graph.size s') ∧ OwnsBlocks fn s (elseStart s.graph.size s') ∧
      Home fn (elseStart s.graph.size s') rt.v.ref := by
  have hthen := then_stays h hc hqc h₁ h₂
  have hyes := ht hthen.1.home hqt h₃
  have howns := hthen.2.extends hyes.1.extends_
  have hjump : Stays fn s' (elseStart s.graph.size s') :=
    hyes.1.home.jump (i := .br (s.graph.size + 2)) (fun _ hv => nomatch hv)
      (howns 1 (Nat.lt_succ_of_lt Nat.one_lt_two))
  exact ⟨(hthen.1.trans hyes.1).trans hjump, howns.extends hjump.extends_,
    hyes.2.extends hjump.extends_⟩

/-- The value of an `if` is the phi in its last block. -/
theorem ifEnd_ref {k : Nat} (h : ifEnd k rt re s = .ok (r, s')) :
    ∃ idx, r.v.ref = .inst ⟨k + 2, idx⟩ := by
  obtain ⟨dest, -, h⟩ := bind_ok.1 h
  obtain ⟨⟨κ, s₁⟩, -, h⟩ := bind_ok.1 h
  obtain ⟨⟨phi, s₂⟩, hphi, h⟩ := bind_ok.1 h
  unfold St.buildPhi at hphi
  split at hphi
  · cases hphi
  · cases hphi
    cases κ with
    | none => cases h
    | some κ =>
      cases h
      exact ⟨_, rfl⟩

theorem staying_if (hc : Staying run c) (ht : Staying run t) (he : Staying run e) :
    Staying run (.if_ c t e) := by
  intro fn s r s' h hq hr
  have hfn := h.curllvmfn
  obtain ⟨w, hlast⟩ := eval_if_run hfn hr
  have hqc := hq.sub (.ifTest hfn)
  have hqt := hq.sub (.ifThen hfn w.cond w.bit)
  have helse := else_stays h hc ht hqc hqt w.cond w.bit w.yes
  have hno := he helse.1.home (hq.sub (.ifElse hfn w.cond w.bit w.yes)) w.no
  have howns := helse.2.1.extends hno.1.extends_
  have hjoin := howns 2 (Nat.lt_succ_self 2)
  obtain ⟨idx, hidx⟩ := ifEnd_ref hlast
  obtain ⟨dest, κ, s₁, -, hκ, -, -, rfl⟩ := ifEnd_ok hlast (Cfg.lt_size_of_owner? _ hjoin)
  have hwrite := convertType_writes (C := Callable w.afterElse) hno.1.home.ofBlock hno.2 hκ
  have hconv := hno.1.home.wrote ⟨hwrite.1, hwrite.2 κ rfl⟩
  have hjump : Stays fn s₁ (joinStart s.graph.size s₁) :=
    hconv.1.home.jump (i := .br (s.graph.size + 2)) (fun _ hv => nomatch hv)
      (owner_extends hjoin hconv.1.extends_)
  have hafter := (hno.1.trans hconv.1).trans hjump
  have hphi : Stays fn (joinStart s.graph.size s₁) ((joinStart s.graph.size s₁).emit
      (.phi dest.l [(w.rt.v, s.graph.size), (κ.v, s.graph.size + 1)])) := by
    refine hjump.home.emit ?_
    refine List.forall_mem_cons.2 ⟨?_, List.forall_mem_singleton.2 ?_⟩
    · exact helse.2.2.extends hafter.extends_
    · exact hconv.2.extends hjump.extends_
  have hend := hafter.trans hphi
  refine ⟨helse.1.trans hend, ?_⟩
  rw [hidx]
  exact (helse.2.1.extends hend.extends_) 2 (Nat.lt_succ_self 2)

/-- Up to the condition of a `while`. -/
theorem test_stays (h : AtHome fn s) :
    Stays fn s (testStart fn s) ∧ OwnsBlocks fn s (testStart fn s) := by
  have hthree := h.threeBlocks
  have howns := threeBlocks_owns fn s
  have hjump : Stays fn (threeBlocks fn s) (testStart fn s) :=
    hthree.home.jump (i := .br s.graph.size) (fun _ hv => nomatch hv) (howns 0 (Nat.succ_pos 2))
  exact ⟨hthree.trans hjump, howns.extends hjump.extends_⟩

/-- Up to the body of a `while`. -/
theorem loop_stays (h : AtHome fn s) (hc : Staying run c) (hq : Steadfast run c (testStart fn s))
    (h₁ : eval run c (testStart fn s) = .ok (cv, s₁)) (h₂ : toCondition cv s₁ = .ok (cb, s₂))
    (a b : Nat) :
    Stays fn s ((loopStart s.graph.size cb.v s₂).enterLoop a b) ∧
      OwnsBlocks fn s ((loopStart s.graph.size cb.v s₂).enterLoop a b) := by
  have hstart := test_stays h
  have htest := hc hstart.1.home hq h₁
  have hbit := htest.1.home.toCondition htest.2 h₂
  have hready := htest.1.trans hbit.1
  have howns := hstart.2.extends hready.extends_
  have hjump : Stays fn s₂ (loopStart s.graph.size cb.v s₂) :=
    hready.home.jump (i := .condBr cb.v (s.graph.size + 1) (s.graph.size + 2))
      (List.forall_mem_singleton.2 hbit.2) (howns 1 (Nat.lt_succ_of_lt Nat.one_lt_two))
  have hin : Stays fn (loopStart s.graph.size cb.v s₂)
      ((loopStart s.graph.size cb.v s₂).enterLoop a b) :=
    hjump.home.of_eq rfl rfl rfl rfl rfl hjump.home.vars
  exact ⟨((hstart.1.trans hready).trans hjump).trans hin,
    howns.extends (hjump.trans hin).extends_⟩

theorem staying_while (hc : Staying run c) (hb : Staying run body) :
    Staying run (.while_ c body) := by
  intro fn s r s' h hq hr
  have hfn := h.curllvmfn
  obtain ⟨w, rfl, rfl⟩ := eval_while_run hfn hr
  have hloop := loop_stays h hc (hq.sub (.whileTest hfn)) w.cond w.bit
    s.graph.size (s.graph.size + 2)
  have hbody := hb hloop.1.home (hq.sub (.whileBody hfn w.cond w.bit)) w.yes
  have hout : Stays fn w.afterBody (w.bodyStart.restoreLoop w.afterBody) :=
    hbody.1.home.of_eq rfl rfl rfl rfl rfl hbody.1.home.vars
  have hback := hbody.1.trans hout
  have hlast : Stays fn (w.bodyStart.restoreLoop w.afterBody) w.last :=
    hout.home.jump (i := .br s.graph.size) (fun _ hv => nomatch hv)
      ((hloop.2.extends hback.extends_) 2 (Nat.lt_succ_self 2))
  exact ⟨(hloop.1.trans hback).trans hlast, trivial⟩

end Control

theorem jumpOut_stays {dest : Option Nat} (h : AtHome fn s) (hr : jumpOut dest s = .ok (r, s')) :
    Stays fn s s' ∧ Home fn s' r.v.ref := by
  cases dest with
  | none => cases hr
  | some b =>
    rw [jumpOut_eq h.curllvmfn] at hr
    cases hr
    have hemit := h.emit (i := .br b) fun _ hv => nomatch hv
    have hfresh := hemit.trans hemit.home.fresh
    have hdummy : (s.emit (.br b)).graph.size = s.graph.size := Cfg.size_append _ _ _
    have howner := (s.emit (.br b)).graph.owner?_fresh_self fn
    rw [hdummy] at howner
    exact ⟨hfresh.trans (hfresh.home.position howner), trivial⟩

/-! ### Numbers and variables -/

/-- Up to the second operand of an `arithmetic-op` or `comparison-op`. -/
theorem right_stays {a : Expr} {w : Rtv} (h : AtHome fn s) (ha : Staying run a)
    (hq : Steadfast run a s) (h₁ : eval run a s = .ok (v, s₁)) (h₂ : prepareRead v s₁ = .ok (w, s₂)) :
    Stays fn s s₂ ∧ Home fn s₂ w.v.ref := by
  have hleft := ha h hq h₁
  have hread := hleft.1.home.prepareRead hleft.2 h₂
  exact ⟨hleft.1.trans hread.1, hread.2⟩

theorem operands_stay {a b : Expr} (ha : Staying run a) (hb : Staying run b) (h : AtHome fn s)
    (hqa : Steadfast run a s)
    (hqb : ∀ {v s₁ w s₂}, eval run a s = .ok (v, s₁) → prepareRead v s₁ = .ok (w, s₂) →
      Steadfast run b s₂) {p : Rtv × Rtv} (hr : operands run a b s = .ok (p, s')) :
    Stays fn s s' ∧ Home fn s' p.1.v.ref ∧ Home fn s' p.2.v.ref := by
  obtain ⟨⟨v, s₁⟩, h₁, hr⟩ := bind_ok.1 hr
  obtain ⟨⟨w, s₂⟩, h₂, hr⟩ := bind_ok.1 hr
  obtain ⟨⟨v', s₃⟩, h₃, hr⟩ := bind_ok.1 hr
  obtain ⟨⟨w', s₄⟩, h₄, hr⟩ := bind_ok.1 hr
  have hleft := right_stays h ha hqa h₁ h₂
  have hright := right_stays hleft.1.home hb (hqb h₁ h₂) h₃ h₄
  have hboth := hleft.1.trans hright.1
  have hsame := expectSameNumber_writes (C := Callable s₄) hboth.home.ofBlock
    (hleft.2.extends hright.1.extends_) hright.2 hr
  have hlast := hboth.home.writes hsame.1
  exact ⟨hboth.trans hlast, hsame.2.1.extends hlast.extends_, hsame.2.2.extends hlast.extends_⟩

theorem staying_arith (op : ArithOp) {a b : Expr} (ha : Staying run a) (hb : Staying run b) :
    Staying run (.arith op a b) := by
  intro fn s r s' h hq hr
  rw [eval_arith] at hr
  obtain ⟨⟨p, s₁⟩, h₁, hr⟩ := bind_ok.1 hr
  have hop := operands_stay ha hb h (hq.sub (.arithLeft op a b s))
    (fun h₁ h₂ => hq.sub (.arithRight h₁ h₂)) h₁
  have hlast := hop.1.home.wrote (buildArith_writes hop.1.home.ofBlock hop.2.1 hop.2.2 hr)
  exact ⟨hop.1.trans hlast.1, hlast.2⟩

theorem staying_cmp (op : CmpOp) {a b : Expr} (ha : Staying run a) (hb : Staying run b) :
    Staying run (.cmp op a b) := by
  intro fn s r s' h hq hr
  rw [eval_cmp] at hr
  obtain ⟨⟨p, s₁⟩, h₁, hr⟩ := bind_ok.1 hr
  cases hr
  have hop := operands_stay ha hb h (hq.sub (.cmpLeft op a b s))
    (fun h₁ h₂ => hq.sub (.cmpRight h₁ h₂)) h₁
  have hlast := hop.1.home.wrote (buildCmp_writes op hop.1.home.ofBlock hop.2.1 hop.2.2)
  exact ⟨hop.1.trans hlast.1, hlast.2⟩

theorem staying_not {a : Expr} (ha : Staying run a) : Staying run (.not a) := by
  intro fn s r s' h hq hr
  rw [eval] at hr
  obtain ⟨⟨v, s₁⟩, h₁, hr⟩ := bind_ok.1 hr
  obtain ⟨⟨w, s₂⟩, h₂, hr⟩ := bind_ok.1 hr
  cases hr
  have hread := right_stays h ha (hq.sub (.not a s)) h₁ h₂
  have hlast := hread.1.home.wrote
    (build_writes (i := .not w.v) hread.1.home.ofBlock (List.forall_mem_singleton.2 hread.2) w.v.ty)
  exact ⟨hread.1.trans hlast.1, hlast.2⟩

theorem staying_assign {a b : Expr} (ha : Staying run a) (hb : Staying run b) :
    Staying run (.assign a b) := by
  intro fn s r s' h hq hr
  rw [eval] at hr
  obtain ⟨⟨v, s₁⟩, h₁, hr⟩ := bind_ok.1 hr
  obtain ⟨⟨w, s₂⟩, h₂, hr⟩ := bind_ok.1 hr
  obtain ⟨s₃, h₃, hr⟩ := bind_ok.1 hr
  cases hr
  have hleft := ha h (hq.sub (.assignLeft a b s)) h₁
  have hright := hb hleft.1.home (hq.sub (.assignRight h₁)) h₂
  have hstore := hright.1.home.writes (lowerAssign_writes hright.1.home.ofBlock
    (hleft.2.extends hright.1.extends_) hright.2 h₃)
  exact ⟨(hleft.1.trans hright.1).trans hstore, trivial⟩

theorem evalIdent_home {x : String} (h : AtHome fn s) (hr : evalIdent x s = .ok (r, s')) :
    Stays fn s s' ∧ Home fn s' r.v.ref := by
  obtain rfl := evalIdent_state hr
  refine ⟨h.refl, ?_⟩
  unfold evalIdent at hr
  split at hr
  · next u hu =>
    cases hr
    obtain ⟨scopes, hs, hu⟩ := Option.bind_eq_some_iff.1 hu
    obtain ⟨vars, hvars, hfind⟩ := List.exists_of_findSome?_eq_some hu
    exact (h.vars scopes hs vars hvars u (List.mem_of_find?_eq_some hfind)).home
  · split at hr
    · cases hr
      exact rfl
    · cases hr

theorem addVariable_stays {name : String} {t : Rtt} (h : AtHome fn s)
    (hr : addVariable name t s = .ok (r, s')) : Stays fn s s' ∧ Home fn s' r.v.ref := by
  unfold addVariable at hr
  split at hr
  · next vars scopes hs =>
    cases hr
    have hemit := h.emit (i := .alloca t.l) fun _ hv => nomatch hv
    have hnew : Variable fn (s.emit (.alloca t.l)) (.inst s.here) :=
      ⟨s.here, t.l, rfl, owner_extends h.block hemit.extends_,
        Cfg.at?_append_endOf s.graph h.building.lt _ []⟩
    have hvars : ∀ c, some ((⟨name, ⟨.inst s.here, .ptr t.l⟩, t.t⟩ :: vars) :: scopes) = some c →
        ∀ ws ∈ c, ∀ v ∈ ws, Variable fn (s.emit (.alloca t.l)) v.v.ref := by
      intro c hc ws hw v hv
      cases hc
      have hold := hemit.home.vars (vars :: scopes) hs
      rcases List.mem_cons.1 hw with rfl | hw
      · rcases List.mem_cons.1 hv with rfl | hv
        · exact hnew
        · exact hold vars List.mem_cons_self v hv
      · exact hold ws (List.mem_cons_of_mem _ hw) v hv
    have hscope := hemit.home.scopes hvars
    exact ⟨hemit.trans hscope, hnew.home.extends hscope.extends_⟩
  · cases hr

theorem staying_funptrTo (f : String) : Staying run (.funptrTo f) := by
  intro fn s r s' h hq hr
  rw [eval] at hr
  split at hr
  · cases hr
  · next g _ =>
    cases hr
    obtain ⟨hreq, id, hid, hdecl⟩ := h.requireFunction g
    refine ⟨hreq, ?_⟩
    show Home fn _ (s.requireFunction g).1.ref
    rw [hid]
    exact hdecl

/-! ### Definitions -/

/-- A function whose body stays at home leaves the function around it at home. -/
theorem funbody_stays {f : Fun} {sameMod : Bool} (hb : Staying run body) (h : AtHome fn s)
    (hq : s.precompiled = true → Steadfast run body (enterFunction f sameMod s))
    (hr : funbody (eval run body) f sameMod s = .ok s') : Stays fn s s' := by
  obtain ⟨hleaves, hbldr⟩ := funbody_leaves (eval_evolves run body) hr
  have hsub := (hleaves.evolves h.building (hbldr h.building.bldr)).grows.sub
  have howned := (marks_funbody (eval_marks run body) (Marks.start s) hr).owned h.owned
  have hnew : ∀ b f, s.graph.size ≤ b → s'.graph.owner? b = some f → s.fns.length ≤ f := by
    unfold funbody at hr
    split at hr
    · next hp =>
      obtain ⟨⟨v, s₁⟩, h₁, hr⟩ := bind_ok.1 hr
      obtain ⟨⟨w, s₂⟩, h₂, hr⟩ := bind_ok.1 hr
      obtain ⟨s₃, h₃, hr⟩ := bind_ok.1 hr
      have henter := enterFunction_home f sameMod h.owned
      have hbody := hb henter (hq hp) h₁
      have hread := hbody.1.home.prepareRead hbody.2 h₂
      have hret := hread.1.home.writes (buildReturn_writes hread.1.home.ofBlock hread.2 h₃)
      have hall := (hbody.1.trans (hread.1.trans hret)).extends_
      have hgraph : s'.graph = s₃.graph := by
        cases hr
        cases s.bldr <;> rfl
      have hsize := (enterFunction_spec f sameMod s).2.1
      intro b g hb hg
      rw [hgraph] at hg
      rcases Nat.lt_or_ge b (enterFunction f sameMod s).graph.size with hlt | hge
      · rw [hsize] at hlt
        obtain rfl : b = s.graph.size := Nat.le_antisymm (Nat.le_of_lt_succ hlt) hb
        rw [hall.owner s.graph.size (hsize ▸ Nat.lt_succ_self _)] at hg
        have hwatched := enterFunction_watched f sameMod s
        simp only [St.watched, Prod.mk.injEq] at hwatched
        rw [hwatched.2.2.2.2.2.2.2, Cfg.owner?_fresh_self] at hg
        exact Nat.le_of_eq (Option.some_inj.1 hg)
      · rcases hall.new b g hge hg with hown | hle
        · exact Nat.le_of_eq (Option.some_inj.1 hown)
        · exact henter.lt_length.le.trans hle
    · cases hr
      exact fun b g hb hg => absurd (Cfg.lt_size_of_owner? _ hg) (Nat.not_lt.2 hb)
  have hext : Extends none s s' :=
    ⟨hleaves.mod, hleaves.fns, hleaves.size_le, hleaves.owner, fun b f hb hf => .inr (hnew b f hb hf)⟩
  have hblock : s'.block = s.block := by
    obtain ⟨b, hb⟩ := Option.isSome_iff_exists.1 h.building.bldr
    unfold St.block
    rw [hbldr h.building.bldr, hb]
    rfl
  refine ⟨⟨howned, hleaves.curllvmfn.trans h.curllvmfn, h.declared.extends hext, ?_,
    fun b hb i hi => ?_, fun scopes hs vars hv v hm => ?_⟩, hext.of_none _⟩
  · rw [hblock]
    exact owner_extends h.block hext
  · rcases Nat.lt_or_ge b s.graph.size with hlt | hge
    · rw [hleaves.owner b hlt] at hb
      rw [hleaves.code b hlt] at hi
      exact (h.code b hb i hi).extends hext
    · exact absurd h.lt_length (Nat.not_lt.2 (hnew b fn hge hb))
  · rw [hleaves.curfn] at hs
    exact AtHome.variable_extends (h.vars scopes hs vars hv v hm) hext hsub

theorem AtHome.register (h : AtHome fn s) (f : Fun) : Stays fn s (s.register f) :=
  h.of_eq rfl rfl rfl rfl rfl h.vars

theorem staying_defun (f : Fun) (hb : Staying run body) : Staying run (.defun f body) := by
  intro fn s r s' h hq hr
  rw [eval] at hr
  obtain ⟨s₁, h₁, hr⟩ := bind_ok.1 hr
  obtain ⟨s₂, h₂, hr⟩ := bind_ok.1 hr
  cases hr
  have hreg : Stays fn s s₁ := by
    obtain rfl := registerNew_ok h₁
    exact h.register f
  exact ⟨hreg.trans (funbody_stays hb hreg.home (fun hp => hq.sub (.defun h₁ hp)) h₂), trivial⟩

/-- `defmacro` and `deftypemacro`. -/
theorem define_stays (f : Fun) (hb : Staying run body) (h : AtHome fn s)
    (hq : s.precompiled = true → Steadfast run body (enterFunction f false (s.register f)))
    (hr : (funbody (eval run body) f false (s.register f) >>= fun s' => .ok (nullRtv, s')) =
      .ok (r, s')) : Stays fn s s' ∧ Home fn s' r.v.ref := by
  obtain ⟨s₁, h₁, hr⟩ := bind_ok.1 hr
  cases hr
  have hreg := h.register f
  exact ⟨hreg.trans (funbody_stays hb hreg.home hq h₁), trivial⟩

theorem getNamedFunction_home (name : String) (s : St) :
    Home fn s (s.getNamedFunction name).ref := by
  unfold St.getNamedFunction
  split
  · next i hi =>
    obtain ⟨hlt, hnamed, -⟩ := List.findIdx?_eq_some_iff_getElem.1 hi
    refine ⟨s.fns[i].name, s.fns[i].ty, ?_⟩
    rw [List.getElem?_eq_getElem hlt, ← (of_decide_eq_true hnamed).1]
  · trivial

theorem staying_lambda (fileIdx charIdx : Nat) (ret : Rtt) (parms : List (String × Rtt))
    (vaArgs : Bool) (hb : Staying run body) :
    Staying run (.lambda fileIdx charIdx ret parms vaArgs body) := by
  intro fn s r s' h hq hr
  rw [eval] at hr
  obtain ⟨s₁, h₁, hr⟩ := bind_ok.1 hr
  cases hr
  exact ⟨funbody_stays hb h (fun hp => hq.sub (.lambda hp)) h₁, getNamedFunction_home _ _⟩

/-- Up to the body of a `static-cond`. -/
theorem static_stays {s₁ s₂ : St} (hc : Staying run c) (h : AtHome fn s)
    (hq : Steadfast run (.staticCond c body) s)
    (h₁ : registerNew (condFun (s.staticCondNumber + 1))
      { s with staticCondNumber := s.staticCondNumber + 1 } = .ok s₁)
    (h₂ : funbody (eval run c) (condFun (s.staticCondNumber + 1)) false s₁ = .ok s₂) :
    Stays fn s s₂ := by
  have hreg : Stays fn s s₁ := by
    obtain rfl := registerNew_ok h₁
    exact h.of_eq rfl rfl rfl rfl rfl h.vars
  exact hreg.trans (funbody_stays hc hreg.home (fun hp => hq.sub (.staticTest h₁ hp)) h₂)

theorem staying_staticCond (hc : Staying run c) (hb : Staying run body) :
    Staying run (.staticCond c body) := by
  intro fn s r s' h hq hr
  have hq₀ := hq
  rw [eval] at hr
  obtain ⟨s₁, h₁, hr⟩ := bind_ok.1 hr
  obtain ⟨s₂, h₂, hr⟩ := bind_ok.1 hr
  have hcond := static_stays hc h hq₀ h₁ h₂
  split at hr
  · next hrun =>
    obtain ⟨⟨rb, s₃⟩, h₃, hr⟩ := bind_ok.1 hr
    cases hr
    exact ⟨hcond.trans (hb hcond.home (hq.sub (.staticBody h₁ h₂ hrun)) h₃).1, trivial⟩
  · cases hr
    exact ⟨hcond, trivial⟩

/-! ### Quotations -/

theorem setupQuote_stays (h : AtHome fn s) : Stays fn s s.setupQuote := by
  refine setupQuote_ind s fun cons nil int char string ident h₁ h₂ h₃ h₄ h₅ h₆ => ?_
  have step : ∀ {s₁ : St} {f : Fun} {p : Value × St}, Stays fn s s₁ → p = s₁.requireFunction f →
      Stays fn s p.2 := by
    rintro s₁ f p hs rfl
    exact hs.trans (hs.home.requireFunction f).1
  have hlast := step (step (step (step (step (step h.refl h₁) h₂) h₃) h₄) h₅) h₆
  exact hlast.trans (hlast.home.of_eq rfl rfl rfl rfl rfl hlast.home.vars)

/-- Lowering `q` stays at home if every call it builds is built while the static variables are
functions of the current module. -/
def StayingQuoted (run : Nat → Bool) (q : Quoted) : Prop :=
  ∀ {fn s₀ m s v s'}, AtHome fn s → Marks s₀ m s → (∀ m', Emits run q s m m' → m'.cache = .here) →
    (∀ e t, Unquotes run q s e t → Steadfast run e t) → lowerQuote run q s = .ok (v, s') →
    Stays fn s s' ∧ Home fn s' v.ref

theorem Names.callable {name : String} {u : Value} (h : Names s s.mod name u) :
    Callable s u.ref := by
  obtain ⟨id, ty, hu, hid⟩ := h
  exact ⟨id, hu, some name, ty, hid⟩

theorem Marks.cachedIn {s₀ : St} {m : Mark} (h : Marks s₀ m s) (hm : m.cache = .here) :
    CachedIn s s.mod := by
  have hsays := h.cache
  rw [hm] at hsays
  exact hsays

theorem buildQuote_stays {f : Value} {args : List Value} (h : AtHome fn s)
    (hf : Callable s f.ref) (hargs : ∀ a ∈ args, Home fn s a.ref) :
    Stays fn s (s.buildQuote f args).2 ∧ Home fn (s.buildQuote f args).2 (s.buildQuote f args).1.ref :=
  h.wrote (buildQuote_writes h.ofBlock hf hargs)

theorem stayingQuoted_cons {a d : Quoted} (ha : StayingQuoted run a) (hd : StayingQuoted run d) :
    StayingQuoted run (.cons a d) := by
  intro fn s₀ m s v s' h hm hsteady hq hr
  rw [lowerQuote] at hr
  obtain ⟨⟨va, s₁⟩, h₁, hr⟩ := bind_ok.1 hr
  obtain ⟨⟨vd, s₂⟩, h₂, hr⟩ := bind_ok.1 hr
  cases hr
  have hma := lowerQuote_marks run a hm h₁
  have hmd := lowerQuote_marks run d hma h₂
  rw [← hm.precompiled] at hma hmd
  have hcar := ha h hm (fun m' hm' => hsteady m' (.car hm')) (fun e t ht => hq e t (.car ht)) h₁
  have hcdr := hd hcar.1.home hma (fun m' hm' => hsteady m' (.cdr h₁ hm'))
    (fun e t ht => hq e t (.cdr h₁ ht)) h₂
  have hcons := (hmd.cachedIn (hsteady _ (.cons h₁ h₂))).cons.callable
  have hlast := buildQuote_stays hcdr.1.home hcons (List.forall_mem_cons.2
    ⟨hcar.2.extends hcdr.1.extends_, List.forall_mem_singleton.2 hcdr.2⟩)
  exact ⟨(hcar.1.trans hcdr.1).trans hlast.1, hlast.2⟩

theorem stayingQuoted_unquote (he : Staying run e) : StayingQuoted run (.unquote e) := by
  intro fn s₀ m s v s' h hm hsteady hq hr
  rw [lowerQuote] at hr
  obtain ⟨⟨r, s₁⟩, h₁, hr⟩ := bind_ok.1 hr
  have heval := he h (hq e s (.here e s)) h₁
  have hres := heval.1.home.wrote (unquoteResult_writes heval.1.home.ofBlock heval.2 hr)
  exact ⟨heval.1.trans hres.1, hres.2⟩

theorem staying_quote (hstay : StayingQuoted run q) : Staying run (.quote q) := by
  intro fn s r s' h hq hr
  rw [eval] at hr
  obtain ⟨⟨v, s₁⟩, h₁, hr⟩ := bind_ok.1 hr
  cases hr
  have hset := setupQuote_stays h
  have hlow := hstay hset.home (Marks.start s).setupQuote (hq.quotes q s .refl)
    (fun e t ht => hq.sub (.quote ht)) h₁
  exact ⟨hset.trans hlow.1, hlow.2⟩

/-! ### All expressions -/

theorem staying_form (ks : List Nat) (r₀ : Rtv) : Staying run (.form ks r₀) := by
  intro fn s r s' h hq hr
  rw [eval] at hr
  cases hr
  have hcode : Writes (Home fn s) (Callable s) s (s.emitAll (ks.map .prim)) := by
    refine ⟨_, rfl, fun i hi => ?_⟩
    obtain ⟨k, -, rfl⟩ := List.mem_map.1 hi
    exact fun _ hv => nomatch hv
  exact h.wrote ⟨hcode, hq.forms ks r₀ s fn .refl h.curllvmfn⟩

mutual

theorem eval_stays (run : Nat → Bool) : ∀ e, Staying run e
  | .form ks r => staying_form ks r
  | .int _ | .float _ | .string _ | .char _ => fun h _ hr => by
    rw [eval] at hr
    cases hr
    exact ⟨h.refl, trivial⟩
  | .ident x => fun h _ hr => by
    rw [eval] at hr
    exact evalIdent_home h hr
  | .call _ args => staying_call (evals_stay run args)
  | .progn es => fun h hq hr => by
    rw [eval] at hr
    exact progn_stays (evals_stay run es) h (fun e t ht => hq.sub (.progn ht)) hr
  | .scope es => staying_scope (evals_stay run es)
  | .cond c body => staying_cond (eval_stays run c) (eval_stays run body)
  | .if_ c t e => staying_if (eval_stays run c) (eval_stays run t) (eval_stays run e)
  | .while_ c body => staying_while (eval_stays run c) (eval_stays run body)
  | .break_ | .continue_ => fun h _ hr => by
    rw [eval] at hr
    split at hr
    · exact jumpOut_stays h hr
    · cases hr
  | .arith op a b => staying_arith op (eval_stays run a) (eval_stays run b)
  | .cmp op a b => staying_cmp op (eval_stays run a) (eval_stays run b)
  | .not a => staying_not (eval_stays run a)
  | .defun f body => staying_defun f (eval_stays run body)
  | Expr.defmacro name body => fun h hq hr => by
    rw [eval] at hr
    exact define_stays (macroproto name) (eval_stays run body) h (fun hp => hq.sub <| Subeval.defmacro hp) hr
  | .lambda fileIdx charIdx ret parms vaArgs body =>
    staying_lambda fileIdx charIdx ret parms vaArgs (eval_stays run body)
  | .staticCond c body => staying_staticCond (eval_stays run c) (eval_stays run body)
  | Expr.deftypemacro name body => fun h hq hr => by
    rw [eval] at hr
    exact define_stays (typemacroproto name) (eval_stays run body) h
      (fun hp => hq.sub <| Subeval.deftypemacro hp) hr
  | .var name t => fun h _ hr => by
    rw [eval] at hr
    exact addVariable_stays h hr
  | .assign a b => staying_assign (eval_stays run a) (eval_stays run b)
  | .funptrTo f => staying_funptrTo f
  | .quote q => staying_quote (lowerQuote_stays run q)

theorem lowerQuote_stays (run : Nat → Bool) : ∀ q, StayingQuoted run q
  | .nil => fun h hm hsteady _ hr => by
    rw [lowerQuote] at hr
    cases hr
    exact buildQuote_stays h (hm.cachedIn (hsteady _ (.nil _ _))).nil.callable fun _ ha => nomatch ha
  | .int i => fun h hm hsteady _ hr => by
    rw [lowerQuote] at hr
    cases hr
    exact buildQuote_stays h (hm.cachedIn (hsteady _ (.int i _ _))).int.callable
      (List.forall_mem_singleton.2 trivial)
  | .ident x => fun h hm hsteady _ hr => by
    rw [lowerQuote] at hr
    cases hr
    exact buildQuote_stays h (hm.cachedIn (hsteady _ (.ident x _ _))).ident.callable
      (List.forall_mem_singleton.2 trivial)
  | .string x => fun h hm hsteady _ hr => by
    rw [lowerQuote] at hr
    cases hr
    exact buildQuote_stays h (hm.cachedIn (hsteady _ (.string x _ _))).string.callable
      (List.forall_mem_singleton.2 trivial)
  | .char c => fun h hm hsteady _ hr => by
    rw [lowerQuote] at hr
    cases hr
    exact buildQuote_stays h (hm.cachedIn (hsteady _ (.char c _ _))).char.callable
      (List.forall_mem_singleton.2 trivial)
  | .float _ => fun _ _ _ _ hr => by
    rw [lowerQuote] at hr
    cases hr
  | .cons a d => stayingQuoted_cons (lowerQuote_stays run a) (lowerQuote_stays run d)
  | .unquote e => stayingQuoted_unquote (eval_stays run e)

theorem evals_stay (run : Nat → Bool) : ∀ es : List Expr, ∀ e ∈ es, Staying run e
  | [] => fun _ h => nomatch h
  | e :: es => List.forall_mem_cons.2 ⟨eval_stays run e, evals_stay run es⟩

end

/-! ## Every state on the way -/

theorem inProgn_stays (h : AtHome fn s) (hq : ∀ e t, InProgn run es s e t → Steadfast run e t)
    (k : InProgn run es s e s') : Stays fn s s' := by
  induction k with
  | head => exact h.refl
  | tail h₁ _ ih =>
    have hfirst := (eval_stays run _ h (hq _ _ (.head _ _ _)) h₁).1
    exact hfirst.trans (ih hfirst.home fun e t ht => hq e t (.tail h₁ ht))

theorem unquotes_stay {s₀ : St} {m : Mark} (h : AtHome fn s) (hm : Marks s₀ m s)
    (hsteady : ∀ m', Emits run q s m m' → m'.cache = .here)
    (hq : ∀ e t, Unquotes run q s e t → Steadfast run e t) (k : Unquotes run q s e s') :
    Stays fn s s' := by
  induction k generalizing m with
  | here => exact h.refl
  | car _ ih =>
    exact ih h hm (fun m' hm' => hsteady m' (.car hm')) fun e t ht => hq e t (.car ht)
  | cdr h₁ _ ih =>
    have hma := lowerQuote_marks run _ hm h₁
    rw [← hm.precompiled] at hma
    have hcar := (lowerQuote_stays run _ h hm (fun m' hm' => hsteady m' (.car hm'))
      (fun e t ht => hq e t (.car ht)) h₁).1
    exact hcar.trans (ih hcar.home hma (fun m' hm' => hsteady m' (.cdr h₁ hm'))
      fun e t ht => hq e t (.cdr h₁ ht))

/-- The start of a function body. -/
def Entered (s' : St) : Prop := ∃ f sameMod s, Owned s ∧ s' = enterFunction f sameMod s

theorem Owned.enter (h : Owned s) (f : Fun) (sameMod : Bool) :
    Entered (enterFunction f sameMod s) :=
  ⟨f, sameMod, s, h, rfl⟩

/-- A part of an expression is evaluated in the same function, or it is the body of another one. -/
theorem Subeval.stays (h : AtHome fn s) (hq : Steadfast run e s) (k : Subeval run e s t s') :
    Stays fn s s' ∨ Entered s' := by
  have hfn := h.curllvmfn
  cases k with
  | @call name f =>
    next hf k =>
    have hreq := (h.requireFunction f).1
    exact .inl (hreq.trans (inProgn_stays hreq.home (fun e t ht => hq.sub (.call hf ht)) k))
  | progn k => exact .inl (inProgn_stays h (fun e t ht => hq.sub (.progn ht)) k)
  | freeScope hs k => exact .inl (inProgn_stays h (fun e t ht => hq.sub (.freeScope hs ht)) k)
  | scope hs k =>
    have hpush := h.pushScope hs
    exact .inl (hpush.trans (inProgn_stays hpush.home (fun e t ht => hq.sub (.scope hs ht)) k))
  | condTest | arithLeft | cmpLeft | not | assignLeft => exact .inl h.refl
  | condBody h₁ h₂ hfn₂ =>
    have hqc := hq.sub (.condTest _ _ s)
    have hready := (toCondition_curllvmfn h₂).trans (eval_stays run _ h hqc h₁).1.home.curllvmfn
    obtain rfl := Option.some_inj.1 (hready.symm.trans hfn₂)
    exact .inl (guard_stays h (eval_stays run _) hqc h₁ h₂).1
  | ifTest hfn' =>
    obtain rfl := Option.some_inj.1 (hfn.symm.trans hfn')
    exact .inl h.threeBlocks
  | ifThen hfn' h₁ h₂ =>
    obtain rfl := Option.some_inj.1 (hfn.symm.trans hfn')
    exact .inl (then_stays h (eval_stays run _) (hq.sub (.ifTest hfn)) h₁ h₂).1
  | ifElse hfn' h₁ h₂ h₃ =>
    obtain rfl := Option.some_inj.1 (hfn.symm.trans hfn')
    exact .inl (else_stays h (eval_stays run _) (eval_stays run _) (hq.sub (.ifTest hfn))
      (hq.sub (.ifThen hfn h₁ h₂)) h₁ h₂ h₃).1
  | whileTest hfn' =>
    obtain rfl := Option.some_inj.1 (hfn.symm.trans hfn')
    exact .inl (test_stays h).1
  | whileBody hfn' h₁ h₂ =>
    obtain rfl := Option.some_inj.1 (hfn.symm.trans hfn')
    exact .inl (loop_stays h (eval_stays run _) (hq.sub (.whileTest hfn)) h₁ h₂ _ _).1
  | arithRight h₁ h₂ =>
    exact .inl (right_stays h (eval_stays run _) (hq.sub (.arithLeft _ _ _ s)) h₁ h₂).1
  | cmpRight h₁ h₂ =>
    exact .inl (right_stays h (eval_stays run _) (hq.sub (.cmpLeft _ _ _ s)) h₁ h₂).1
  | defun h₁ hp | staticTest h₁ hp =>
    obtain rfl := registerNew_ok h₁
    exact .inr (Owned.enter (by exact h.owned) _ _)
  | defmacro hp | deftypemacro hp | lambda hp => exact .inr (Owned.enter (by exact h.owned) _ _)
  | staticBody h₁ h₂ hrun => exact .inl (static_stays (eval_stays run _) h hq h₁ h₂)
  | assignRight h₁ => exact .inl (eval_stays run _ h (hq.sub (.assignLeft _ _ s)) h₁).1
  | quote k =>
    have hset := setupQuote_stays h
    exact .inl (hset.trans (unquotes_stay hset.home (Marks.start s).setupQuote
      (hq.quotes _ s .refl) (fun e t ht => hq.sub (.quote ht)) k))

theorem inProgn_marks {s₀ : St} {m : Mark} (hm : Marks s₀ m s) (k : InProgn run es s e s') :
    ∃ m', Marks s₀ m' s' := by
  induction k generalizing m with
  | head => exact ⟨m, hm⟩
  | tail h₁ _ ih => exact ih (eval_marks run _ hm h₁)

theorem unquotes_mark {s₀ : St} {m : Mark} (hm : Marks s₀ m s) (k : Unquotes run q s e s') :
    ∃ m', Marks s₀ m' s' := by
  induction k generalizing m with
  | here => exact ⟨m, hm⟩
  | car _ ih => exact ih hm
  | cdr h₁ _ ih => exact ih (lowerQuote_marks run _ hm h₁)

/-- Outside of functions there is nothing to stay in, but the functions that own blocks exist. -/
theorem Subeval.marks (ho : Owned s) (hfn : s.curllvmfn = none) (k : Subeval run e s t s') :
    (∃ m, Marks s m s') ∨ Entered s' := by
  have hm := Marks.start s
  cases k with
  | @call name f =>
    next hf k => exact .inl (inProgn_marks (hm.requireFunction f) k)
  | progn k | freeScope _ k => exact .inl (inProgn_marks hm k)
  | scope _ k => exact .inl (inProgn_marks (hm.quiet (by rfl)) k)
  | condTest | arithLeft | cmpLeft | not | assignLeft => exact .inl ⟨_, hm⟩
  | condBody h₁ h₂ hfn₂ =>
    have hnone := ((eval_marks run _ hm h₁).toCondition h₂).curllvmfn.trans hfn
    rw [hfn₂] at hnone
    cases hnone
  | ifTest h | ifThen h | ifElse h | whileTest h | whileBody h =>
    rw [hfn] at h
    cases h
  | arithRight h₁ h₂ | cmpRight h₁ h₂ => exact .inl ⟨_, (eval_marks run _ hm h₁).prepareRead h₂⟩
  | defun h₁ hp | staticTest h₁ hp =>
    obtain rfl := registerNew_ok h₁
    exact .inr (Owned.enter (by exact ho) _ _)
  | defmacro | deftypemacro | lambda => exact .inr (Owned.enter (by exact ho) _ _)
  | staticBody h₁ h₂ hrun => exact .inl ⟨_, marks_static (eval_marks run _) hm h₁ h₂⟩
  | assignRight h₁ => exact .inl ⟨_, eval_marks run _ hm h₁⟩
  | quote k => exact .inl (unquotes_mark hm.setupQuote k)

/-- The function that is being compiled, if there is one, is at home. -/
structure Reached (s : St) : Prop where
  owned : Owned s
  home : ∀ fn, s.curllvmfn = some fn → AtHome fn s

theorem AtHome.reached (h : AtHome fn s) : Reached s :=
  ⟨h.owned, fun _ hfn => Option.some_inj.1 (h.curllvmfn.symm.trans hfn) ▸ h⟩

theorem Entered.reached (h : Entered s) : Reached s := by
  obtain ⟨f, sameMod, s₀, ho, rfl⟩ := h
  exact (enterFunction_home f sameMod ho).reached

theorem Reached.marks {s₀ : St} {m : Mark} (h : Reached s₀) (hfn : s₀.curllvmfn = none)
    (hm : Marks s₀ m s) : Reached s :=
  ⟨hm.owned h.owned, fun _ hsome => nomatch (hm.curllvmfn.trans hfn).symm.trans hsome⟩

theorem Subeval.reached (h : Reached s) (hq : Steadfast run e s) (k : Subeval run e s t s') :
    Reached s' := by
  cases hfn : s.curllvmfn with
  | none =>
    rcases k.marks h.owned hfn with ⟨m, hm⟩ | hin
    · exact h.marks hfn hm
    · exact hin.reached
  | some fn =>
    rcases k.stays (h.home fn hfn) hq with hstay | hin
    · exact hstay.home.reached
    · exact hin.reached

/-- As long as the quotations use functions of their own module, every state that evaluation comes
to is at home, and so is what it computes there. -/
theorem stays_home (run : Nat → Bool) (e : Expr) (s : St) (hs : Reached s)
    (hq : Steadfast run e s) : ∀ e' t, Visits run (e, s) (e', t) →
      Reached t ∧ ∀ r t', eval run e' t = .ok (r, t') →
        Reached t' ∧ ∀ fn, t.curllvmfn = some fn → Home fn t' r.v.ref := by
  intro e' t hv
  have hboth : Reached t ∧ Steadfast run e' t := by
    generalize hp : (e', t) = p at hv
    induction hv generalizing e' t with
    | refl =>
      cases hp
      exact ⟨hs, hq⟩
    | tail _ k ih =>
      obtain ⟨h₁, h₂⟩ := ih _ _ rfl
      cases hp
      exact ⟨k.reached h₁ h₂, h₂.sub k⟩
  obtain ⟨ht, hq'⟩ := hboth
  refine ⟨ht, fun r t' hr => ?_⟩
  cases hfn : t.curllvmfn with
  | none =>
    exact ⟨ht.marks hfn (eval_marks run e' (.start t) hr), fun _ h => nomatch h⟩
  | some fn =>
    have hstay := eval_stays run e' (ht.home fn hfn) hq' hr
    exact ⟨hstay.1.home.reached, fun fn' h => Option.some_inj.1 h ▸ hstay.2⟩

/-- A function from a syntax tree to a syntax tree. -/
def valFun (name : String) : Fun := ⟨name, valType, [("x", valType)], false⟩

/-- The body `(quasiquote a (quasiunquote x))`. -/
def listX : Expr := .quote (.cons (.ident ['a']) (.cons (.unquote (.ident "x")) .nil))

theorem emptyUnit_reached : Reached emptyUnit :=
  ⟨⟨fun _ h => (nomatch h), fun _ _ h => (nomatch h)⟩, fun _ h => nomatch h⟩

/-- Only the identifier in `listX` is unquoted. -/
theorem visits_listX (hv : Visits run (listX, s) (e, s')) :
    e = .ident "x" ∨ e = listX ∧ s' = s := by
  rcases Relation.ReflTransGen.cases_head hv with heq | ⟨⟨e₁, t⟩, hquote, hv⟩
  · cases heq
    exact .inr ⟨rfl, rfl⟩
  cases hquote with
  | quote k =>
    obtain _ | k | ⟨-, k⟩ := k
    · cases k
    · obtain _ | k | ⟨-, k⟩ := k
      · cases k
        rcases Relation.ReflTransGen.cases_head hv with heq | ⟨_, hident, -⟩
        · cases heq
          exact .inl rfl
        · cases hident
      · cases k

theorem steady_listX (s : St) :
    Steady run (.cons (.ident ['a']) (.cons (.unquote (.ident "x")) .nil)) s := by
  have hmark : ∀ b m, (Expr.ident "x").mark run b m = m := fun b m => by rw [Expr.mark]
  intro m hm
  cases hm with
  | car hm =>
    cases hm
    rfl
  | cdr h₁ hm =>
    cases hm with
    | car hm => cases hm
    | cdr h₂ hm =>
      cases hm
      rw [Quoted.mark, Quoted.mark, hmark]
      rfl
    | cons h₂ h₃ =>
      rw [Quoted.mark, Quoted.mark, Quoted.mark, hmark]
      rfl
  | cons h₁ h₂ =>
    rw [Quoted.mark, Quoted.mark, Quoted.mark, Quoted.mark, hmark]
    rfl

theorem stays_home_example : ∃ t r t',
    Visits (fun _ => true) (.defun (valFun "f") listX, emptyUnit) (listX, t) ∧
      eval (fun _ => true) listX t = .ok (r, t') ∧ Reached t' := by
  have visited : ∀ {e' t}, Visits (fun _ => true) (.defun (valFun "f") listX, emptyUnit) (e', t) →
      e' = .defun (valFun "f") listX ∨ e' = .ident "x" ∨ e' = listX := by
    intro e' t hv
    rcases Relation.ReflTransGen.cases_head hv with heq | ⟨⟨e₁, t₁⟩, hdefun, hv⟩
    · cases heq
      exact .inl rfl
    · cases hdefun
      exact .inr ((visits_listX hv).imp_right And.left)
  have hsteady : Steadfast (fun _ => true) (.defun (valFun "f") listX) emptyUnit := by
    refine ⟨fun q t hv => ?_, fun ks r t _ hv => ?_⟩
    · rcases visited hv with h | h | h
      · cases h
      · cases h
      · cases h
        exact steady_listX t
    · rcases visited hv with h | h | h <;> cases h
  obtain ⟨t, r, t', htest, hp, hrun⟩ : ∃ t r t',
      registerNew (valFun "f") emptyUnit = .ok t ∧ t.precompiled = true ∧
        eval (fun _ => true) listX (enterFunction (valFun "f") false t) = .ok (r, t') :=
    ⟨_, _, _, rfl, rfl, rfl⟩
  have hv : Visits (fun _ => true) (.defun (valFun "f") listX, emptyUnit)
      (listX, enterFunction (valFun "f") false t) := .single (.defun htest hp)
  exact ⟨_, r, t', hv, hrun,
    ((stays_home _ _ _ emptyUnit_reached hsteady _ _ hv).2 r t' hrun).1⟩

/-- The body `(quasiquote (quasiunquote (progn (defun g ((val x)) val (quote)) x)))`. -/
def strayQuote : Expr :=
  .quote (.cons (.unquote (.progn [.defun (valFun "g") (.quote .nil), .ident "x"])) .nil)

/-- The list ends with a call of the function of the module of `g`. -/
theorem strays : Reached emptyUnit ∧ ∃ e' t r t',
    Visits (fun _ => true) (.defun (valFun "f") strayQuote, emptyUnit) (e', t) ∧
      eval (fun _ => true) e' t = .ok (r, t') ∧ ¬ Reached t' := by
  obtain ⟨t, r, t', c, i, lf, htest, hp, hrun, hfn, howner, hcode, hi, hc, hlf, hfar⟩ :
      ∃ t r t' c i lf, registerNew (valFun "f") emptyUnit = .ok t ∧ t.precompiled = true ∧
        eval (fun _ => true) strayQuote (enterFunction (valFun "f") false t) = .ok (r, t') ∧
        t'.curllvmfn = some 0 ∧ t'.graph.owner? 0 = some 0 ∧
        (t'.graph.code 0)[3]? = some i ∧ i = .call c [] ∧ c.ref = .fn 9 ∧
        t'.fns[9]? = some lf ∧ lf.mod ≠ t'.mod :=
    ⟨_, _, _, _, _, _, rfl, rfl, rfl, rfl, rfl, rfl, rfl, rfl, rfl, by decide⟩
  refine ⟨emptyUnit_reached, strayQuote, _, r, t', .single (.defun htest hp), hrun, fun h => ?_⟩
  have hcall := ((h.home 0 hfn).code 0 howner i (List.mem_of_getElem? hcode))
  rw [hi] at hcall
  obtain ⟨id, hid, name, ty, hget⟩ := hcall.1
  rw [hc] at hid
  cases hid
  rw [hlf] at hget
  cases hget
  exact hfar rfl

end Dolorem.Codegen
