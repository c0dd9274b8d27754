import Dolorem.Codegen.Home

/-!
# Values are computed before they are used

`Emitted s x`: if `x` is the result of an instruction, that instruction has been
emitted. What evaluation returns is emitted by then, and so are the variables in
scope (`eval_settles`): no code that is emitted later computes them again.
-/

namespace Dolorem.Codegen

open CodeGraph

/-- `x` is not the result of an instruction that is yet to come. -/
def Emitted (s : St) (x : Ref) : Prop := ∀ p, x = .inst p → ∃ i, s.graph.at? p = some i

/-- A function is being built, and the variables in scope are there. -/
structure Settled (s : St) : Prop where
  building : Building s
  vars : ∀ scopes, s.curfn = some scopes → ∀ vars ∈ scopes, ∀ v ∈ vars, Emitted s v.v.ref

/-- In the evaluation of `e` from `s`, a form outside the model has a value that is computed by
then. -/
def Formed (run : Nat → Bool) (e : Expr) (s : St) : Prop :=
  ∀ ks r t, Visits run (e, s) (.form ks r, t) → Emitted (t.emitAll (ks.map .prim)) r.v.ref

variable {run : Nat → Bool} {s s' s₁ s₂ : St} {fn : Nat} {r v κ : Rtv} {c t e body : Expr}
variable {es : List Expr} {q : Quoted} {x : Ref}

theorem Emitted.sub (h : Emitted s x) (hsub : s.graph.Sub s'.graph) : Emitted s' x := by
  intro p hp
  obtain ⟨i, hi⟩ := h p hp
  exact ⟨i, hsub p i hi⟩

theorem Formed.sub (h : Formed run e s) (k : Subeval run e s t s') : Formed run t s' :=
  fun ks r u hv => h ks r u (.head k hv)

namespace Settled

/-- Code is added, and the same variables are in scope. -/
theorem next (h : Settled s) (hs : Building s') (hsub : s.graph.Sub s'.graph)
    (hc : s'.curfn = s.curfn) : Settled s' :=
  ⟨hs, fun scopes hscopes vars hv v hm =>
    (h.vars scopes (hc ▸ hscopes) vars hv v hm).sub hsub⟩

theorem emitAll (h : Settled s) (is : List Instr) : Settled (s.emitAll is) :=
  have hmoves := Moves.emitAll h.building is
  h.next hmoves.building hmoves.sub rfl

/-- The last instruction of a block, and on in another one. -/
theorem jump (h : Settled s) {i : Instr} {b : Nat} (hs : Building ((s.emit i).position b)) :
    Settled ((s.emit i).position b) :=
  h.next hs (sub_emit h.building i b) rfl

end Settled

/-! ## Straight-line code -/

theorem build_emitted (hs : Building s) (i : Instr) (ty : LTy) :
    Emitted (s.build i ty).2 (s.build i ty).1.ref := by
  intro p hp
  cases hp
  exact ⟨i, Cfg.at?_append_endOf _ hs.lt i []⟩

theorem prepareRead_emitted (hs : Building s) (hv : Emitted s v.v.ref)
    (h : prepareRead v s = .ok (r, s')) : Emitted s' r.v.ref := by
  unfold prepareRead at h
  split at h
  · split at h
    · cases h
      exact build_emitted hs _ _
    · cases h
  · cases h
    exact hv

theorem apply_emitted (hs : Building s) (hv : Emitted s v.v.ref) (c : Conv) :
    Emitted (c.apply v s).2 (c.apply v s).1.v.ref := by
  cases c with
  | same t => exact hv
  | build op l t =>
    unfold Conv.apply St.buildCast
    dsimp only
    split
    · exact hv
    · exact build_emitted hs _ _

theorem convertType_emitted {dest : Rtt} {flags : Nat} (hs : Building s) (hv : Emitted s v.v.ref)
    (h : convertType v dest flags s = .ok (some κ, s')) : Emitted s' κ.v.ref := by
  unfold convertType at h
  obtain ⟨⟨w, s₁⟩, hw, h⟩ := bind_ok.1 h
  have hread := prepareRead_emitted hs hv hw
  have hs₁ := (prepareRead_evolves hs hw).building
  simp only at h
  split at h
  · cases h
  · next c _ =>
    cases h
    exact apply_emitted hs₁ hread c

theorem convertOrCrash_emitted {dest : Rtt} {flags : Nat} (hs : Building s)
    (hv : Emitted s v.v.ref) (h : convertOrCrash v dest flags s = .ok (r, s')) :
    Emitted s' r.v.ref := by
  obtain ⟨⟨κ, s₁⟩, hκ, h⟩ := bind_ok.1 h
  cases κ with
  | none => cases h
  | some κ =>
    cases h
    exact convertType_emitted hs hv hκ

theorem toCondition_emitted (hs : Building s) (hv : Emitted s v.v.ref)
    (h : toCondition v s = .ok (r, s')) : Emitted s' r.v.ref := by
  obtain ⟨⟨w, s₁⟩, hw, h⟩ := bind_ok.1 h
  exact convertOrCrash_emitted (prepareRead_evolves hs hw).building
    (prepareRead_emitted hs hv hw) h

theorem unquoteResult_emitted {u : Value} (hs : Building s) (hv : Emitted s v.v.ref)
    (h : unquoteResult v s = .ok (u, s')) : Emitted s' u.ref := by
  obtain ⟨⟨w, s₁⟩, hw, h⟩ := bind_ok.1 h
  obtain ⟨⟨κ, s₂⟩, hκ, h⟩ := bind_ok.1 h
  have hs₁ := (prepareRead_evolves hs hw).building
  cases κ with
  | none => cases h
  | some κ =>
    cases h
    exact convertType_emitted hs₁ (prepareRead_emitted hs hv hw) hκ

theorem buildArith_emitted {op : ArithOp} {a b : Rtv} (hs : Building s)
    (h : buildArith op a b s = .ok (r, s')) : Emitted s' r.v.ref := by
  unfold buildArith at h
  split at h
  · cases h
    exact build_emitted hs _ _
  · split at h
    · cases h
      exact build_emitted hs _ _
    · cases h

theorem lowerFuncall_emitted {f : Fun} {u : Value} {args : List Rtv} (hs : Building s)
    (h : lowerFuncall u f args s = .ok (r, s')) : Emitted s' r.v.ref := by
  unfold lowerFuncall at h
  split at h
  · cases h
  · split at h
    · cases h
    · obtain ⟨⟨vs, s₁⟩, hvs, h⟩ := bind_ok.1 h
      obtain ⟨is, rfl, -⟩ := (lowerArgs_writes (C := anyRef)
        (ofBlock_anyRef s) (fun _ _ => trivial) hvs).1
      simp only at h
      split at h
      · cases h
      · cases h
        exact build_emitted (Moves.emitAll hs is).building _ _

/-- The value of an `if` is the phi at its end. -/
theorem ifEnd_emitted {k : Nat} {rt re : Rtv} (hs : Building s) (hk : k + 2 < s.graph.size)
    (h : ifEnd k rt re s = .ok (r, s')) : Emitted s' r.v.ref := by
  obtain ⟨dest, hd, h⟩ := bind_ok.1 h
  obtain ⟨⟨κ, s₁⟩, hκ, h⟩ := bind_ok.1 h
  simp only [St.buildPhi] at h
  split at h
  · cases h
  · cases κ with
    | none => cases h
    | some κ =>
      have hs₁ := convertType_evolves hs hκ
      have hjoin : Building (joinStart k s₁) :=
        ⟨rfl, (Cfg.size_append _ _ _).symm ▸ hs₁.lt_size hk, hs₁.building.fn⟩
      cases h
      simp only [St.build]
      rw [St.addIncoming_emit hjoin.lt, St.addIncoming_emit hjoin.lt]
      exact build_emitted hjoin _ dest.l

/-! ## Expressions -/

/-- Evaluating `e` keeps the state settled, and its value is emitted. -/
def Settling (run : Nat → Bool) (e : Expr) : Prop :=
  ∀ {s r s'}, Settled s → Formed run e s → eval run e s = .ok (r, s') →
    Settled s' ∧ Emitted s' r.v.ref

theorem null_emitted (s : St) : Emitted s nullRtv.v.ref := fun _ h => nomatch h

theorem progn_settles (hes : ∀ e ∈ es, Settling run e) (h : Settled s)
    (hf : ∀ e t, InProgn run es s e t → Formed run e t) (hr : evalProgn run es s = .ok (r, s')) :
    Settled s' ∧ Emitted s' r.v.ref := by
  induction es generalizing s r with
  | nil =>
    rw [evalProgn] at hr
    cases hr
    exact ⟨h, null_emitted _⟩
  | cons e es ih =>
    cases es with
    | nil =>
      rw [evalProgn] at hr
      exact hes e List.mem_cons_self h (hf e s (.head e [] s)) hr
    | cons e' es =>
      rw [evalProgn] at hr
      obtain ⟨⟨r₁, s₁⟩, h₁, hr⟩ := bind_ok.1 hr
      have hfirst := (hes e List.mem_cons_self h (hf e s (.head e _ s)) h₁).1
      exact ih (fun e he => hes e (List.mem_cons_of_mem _ he)) hfirst
        (fun e t ht => hf e t (.tail h₁ ht)) hr

theorem args_settle (hes : ∀ e ∈ es, Settling run e) (h : Settled s)
    (hf : ∀ e t, InProgn run es s e t → Formed run e t) {vs : List Rtv}
    (hr : evalArgs run es s = .ok (vs, s')) : Settled s' := by
  induction es generalizing s vs with
  | nil =>
    rw [evalArgs] at hr
    cases hr
    exact h
  | cons e es ih =>
    rw [evalArgs] at hr
    obtain ⟨⟨v, s₁⟩, h₁, hr⟩ := bind_ok.1 hr
    obtain ⟨⟨vs', s₂⟩, h₂, hr⟩ := bind_ok.1 hr
    cases hr
    have hfirst := (hes e List.mem_cons_self h (hf e s (.head e _ s)) h₁).1
    exact ih (fun e he => hes e (List.mem_cons_of_mem _ he)) hfirst
      (fun e t ht => hf e t (.tail h₁ ht)) h₂

theorem Settled.requireFunction (h : Settled s) (f : Fun) :
    Settled (s.requireFunction f).2 := by
  obtain ⟨fns, heq⟩ := requireFunction_eq f s
  have hs := requireFunction_evolves h.building f
  refine h.next hs.building hs.grows.sub ?_
  rw [heq]

theorem settling_call {f : String} (hes : ∀ e ∈ es, Settling run e) :
    Settling run (.call f es) := by
  intro s r s' h hf hr
  rw [eval] at hr
  split at hr
  · cases hr
  · next f hlook =>
    obtain ⟨⟨vs, s₁⟩, h₁, hr⟩ := bind_ok.1 hr
    have hargs := args_settle hes (h.requireFunction f) (fun e t ht => hf.sub (.call hlook ht)) h₁
    obtain ⟨is, rfl, -⟩ := lowerFuncall_ok hr
    exact ⟨hargs.emitAll is, lowerFuncall_emitted hargs.building hr⟩

theorem Settled.pushScope (h : Settled s) {scopes : List (List FunVar)}
    (hs : s.curfn = some scopes) : Settled { s with curfn := some ([] :: scopes) } := by
  refine ⟨⟨h.building.bldr, h.building.lt, h.building.fn⟩, fun c hc vars hv v hm => ?_⟩
  cases hc
  rcases List.mem_cons.1 hv with rfl | hv
  · cases hm
  · exact h.vars scopes hs vars hv v hm

theorem Settled.popScope (h : Settled s) : Settled s.popScope := by
  refine ⟨⟨h.building.bldr, h.building.lt, h.building.fn⟩, fun c hc vars hv v hm => ?_⟩
  obtain ⟨scopes, hs, rfl⟩ := Option.map_eq_some_iff.1 hc
  exact h.vars scopes hs vars (List.mem_of_mem_tail hv) v hm

theorem settling_scope (hes : ∀ e ∈ es, Settling run e) : Settling run (.scope es) := by
  intro s r s' h hf hr
  rw [eval] at hr
  split at hr
  · next hs => exact progn_settles hes h (fun e t ht => hf.sub (.freeScope hs ht)) hr
  · next scopes hs =>
    obtain ⟨⟨r₁, s₁⟩, h₁, hr⟩ := bind_ok.1 hr
    cases hr
    have hprogn := progn_settles hes (h.pushScope hs) (fun e t ht => hf.sub (.scope hs ht)) h₁
    exact ⟨hprogn.1.popScope, hprogn.2⟩

/-! ### Control structures -/

theorem Settled.toCondition (h : Settled s) (hv : Emitted s v.v.ref)
    (hr : toCondition v s = .ok (r, s')) : Settled s' ∧ Emitted s' r.v.ref := by
  have hemit := toCondition_emitted h.building hv hr
  obtain ⟨is, rfl, -⟩ := toCondition_ok hr
  exact ⟨h.emitAll is, hemit⟩

theorem settling_cond (hc : Settling run c) (hb : Settling run body) :
    Settling run (.cond c body) := by
  intro s r s' h hf hr
  have hs := h.building
  obtain ⟨fn, hfn⟩ := Option.isSome_iff_exists.1 hs.fn
  have hready : ∀ cv s₁, eval run c s = .ok (cv, s₁) → s₁.curllvmfn = some fn := fun cv s₁ h₁ =>
    (eval_evolves run c hs h₁).curllvmfn.trans hfn
  obtain ⟨w, rfl, rfl⟩ := eval_cond_run hready hr
  have htest := hc h (hf.sub (.condTest c body s)) w.cond
  have hbit := htest.1.toCondition htest.2 w.bit
  have htwo := twoBlocks_evolves hbit.1.building fn
  have hstart : Settled w.bodyStart :=
    hbit.1.next (w.start_evolves hs (eval_evolves run c)).building
      (htwo.grows.sub.trans (sub_emit htwo.building _ _)) rfl
  have hbody := (hb hstart (hf.sub (.condBody w.cond w.bit
    ((toCondition_curllvmfn w.bit).trans (hready _ _ w.cond)))) w.yes).1
  have hall := w.evolves hs (eval_evolves run c) (eval_evolves run body)
  have hsub := htwo.grows.sub.trans ((sub_emit htwo.building _ _).trans hall.2)
  exact ⟨hbody.jump hall.1.building, hbit.2.sub hsub⟩

theorem settling_if (hc : Settling run c) (ht : Settling run t) (he : Settling run e) :
    Settling run (.if_ c t e) := by
  intro s r s' h hf hr
  have hs := h.building
  obtain ⟨fn, hfn⟩ := Option.isSome_iff_exists.1 hs.fn
  obtain ⟨w, hlast⟩ := eval_if_run hfn hr
  have hc₀ : Evolving run c := eval_evolves run c
  have ht₀ : Evolving run t := eval_evolves run t
  have he₀ : Evolving run e := eval_evolves run e
  have hthree := threeBlocks_moves fn hs
  have htest := hc (h.next hthree.building hthree.sub rfl) (hf.sub (.ifTest hfn)) w.cond
  have hbit := htest.1.toCondition htest.2 w.bit
  have hstart : Settled w.thenStart := hbit.1.jump (w.then_evolves hs hc₀).1.building
  have hyes := ht hstart (hf.sub (.ifThen hfn w.cond w.bit)) w.yes
  obtain ⟨helse, hsize⟩ := w.else_evolves hs hc₀ ht₀
  have hstart' : Settled w.elseStart := hyes.1.jump helse.building
  have hno := he hstart' (hf.sub (.ifElse hfn w.cond w.bit w.yes)) w.no
  have hsize' := (he₀ helse.building w.no).lt_size hsize
  obtain ⟨dest, κ, s₁, -, hκ, -, -, rfl⟩ := ifEnd_ok hlast hsize'
  obtain ⟨is, -, rfl, -⟩ := convertType_ok hκ
  have hconv := hno.1.emitAll is
  have hjoin : Settled (joinStart s.graph.size (w.afterElse.emitAll is)) :=
    hconv.jump ⟨rfl, by simpa [St.emit, St.emitAll, St.position, St.block] using hsize',
      hconv.building.fn⟩
  exact ⟨hjoin.emitAll _, ifEnd_emitted hno.1.building hsize' hlast⟩

theorem settling_while (hc : Settling run c) (hb : Settling run body) :
    Settling run (.while_ c body) := by
  intro s r s' h hf hr
  have hs := h.building
  obtain ⟨fn, hfn⟩ := Option.isSome_iff_exists.1 hs.fn
  obtain ⟨w, rfl, rfl⟩ := eval_while_run hfn hr
  have hstart := testStart_evolves hs fn
  have htest := hc (h.next hstart.building hstart.grows.sub rfl) (hf.sub (.whileTest hfn)) w.cond
  have hbit := htest.1.toCondition htest.2 w.bit
  have hloop : Settled w.bodyStart :=
    hbit.1.jump (w.start_evolves hs (eval_evolves run c)).1.building
  have hin : Settled (w.bodyStart.enterLoop s.graph.size (s.graph.size + 2)) :=
    ⟨⟨hloop.building.bldr, hloop.building.lt, hloop.building.fn⟩, hloop.vars⟩
  have hbody := (hb hin (hf.sub (.whileBody hfn w.cond w.bit)) w.yes).1
  have hout : Settled (w.bodyStart.restoreLoop w.afterBody) :=
    ⟨⟨hbody.building.bldr, hbody.building.lt, hbody.building.fn⟩, hbody.vars⟩
  exact ⟨hout.jump (w.evolves hs (eval_evolves run c) (eval_evolves run body)).1.building,
    null_emitted _⟩

theorem jumpOut_settles {dest : Option Nat} (h : Settled s)
    (hr : jumpOut dest s = .ok (r, s')) : Settled s' ∧ Emitted s' r.v.ref := by
  obtain ⟨fn, hfn⟩ := Option.isSome_iff_exists.1 h.building.fn
  cases dest with
  | none => cases hr
  | some b =>
    rw [jumpOut_eq hfn] at hr
    cases hr
    have hmoves := jumpState_moves h.building fn b
    exact ⟨h.next hmoves.building hmoves.sub rfl, null_emitted _⟩

/-! ### Numbers and variables -/

theorem Settled.prepareRead (h : Settled s) (hv : Emitted s v.v.ref)
    (hr : prepareRead v s = .ok (r, s')) : Settled s' ∧ Emitted s' r.v.ref := by
  have hemit := prepareRead_emitted h.building hv hr
  obtain ⟨is, rfl, -⟩ := prepareRead_ok hr
  exact ⟨h.emitAll is, hemit⟩

theorem operands_settle {a b : Expr} (ha : Settling run a) (hb : Settling run b) (h : Settled s)
    (hfa : Formed run a s)
    (hfb : ∀ {v s₁ w s₂}, eval run a s = .ok (v, s₁) → prepareRead v s₁ = .ok (w, s₂) →
      Formed run b s₂) {p : Rtv × Rtv} (hr : operands run a b s = .ok (p, s')) : Settled s' := by
  obtain ⟨⟨v, s₁⟩, h₁, hr⟩ := bind_ok.1 hr
  obtain ⟨⟨w, s₂⟩, h₂, hr⟩ := bind_ok.1 hr
  obtain ⟨⟨v', s₃⟩, h₃, hr⟩ := bind_ok.1 hr
  obtain ⟨⟨w', s₄⟩, h₄, hr⟩ := bind_ok.1 hr
  have hleft := ha h hfa h₁
  have hread := hleft.1.prepareRead hleft.2 h₂
  have hright := hb hread.1 (hfb h₁ h₂) h₃
  have hread' := hright.1.prepareRead hright.2 h₄
  obtain ⟨is, rfl, -⟩ := (expectSameNumber_writes (C := anyRef)
    (ofBlock_anyRef _) trivial trivial hr).1
  exact hread'.1.emitAll is

theorem settling_arith (op : ArithOp) {a b : Expr} (ha : Settling run a) (hb : Settling run b) :
    Settling run (.arith op a b) := by
  intro s r s' h hf hr
  rw [eval_arith] at hr
  obtain ⟨⟨p, s₁⟩, h₁, hr⟩ := bind_ok.1 hr
  have hop := operands_settle ha hb h (hf.sub (.arithLeft op a b s))
    (fun h₁ h₂ => hf.sub (.arithRight h₁ h₂)) h₁
  have hemit := buildArith_emitted hop.building hr
  obtain ⟨is, rfl, -⟩ := (buildArith_writes (C := anyRef)
    (ofBlock_anyRef _) trivial trivial hr).1
  exact ⟨hop.emitAll is, hemit⟩

theorem settling_cmp (op : CmpOp) {a b : Expr} (ha : Settling run a) (hb : Settling run b) :
    Settling run (.cmp op a b) := by
  intro s r s' h hf hr
  rw [eval_cmp] at hr
  obtain ⟨⟨p, s₁⟩, h₁, hr⟩ := bind_ok.1 hr
  have hop := operands_settle ha hb h (hf.sub (.cmpLeft op a b s))
    (fun h₁ h₂ => hf.sub (.cmpRight h₁ h₂)) h₁
  cases hr
  exact ⟨hop.emitAll _, build_emitted hop.building _ _⟩

theorem settling_not {a : Expr} (ha : Settling run a) : Settling run (.not a) := by
  intro s r s' h hf hr
  rw [eval] at hr
  obtain ⟨⟨v, s₁⟩, h₁, hr⟩ := bind_ok.1 hr
  obtain ⟨⟨w, s₂⟩, h₂, hr⟩ := bind_ok.1 hr
  cases hr
  have hval := ha h (hf.sub (.not a s)) h₁
  have hread := hval.1.prepareRead hval.2 h₂
  exact ⟨hread.1.emitAll _, build_emitted hread.1.building _ _⟩

theorem settling_assign {a b : Expr} (ha : Settling run a) (hb : Settling run b) :
    Settling run (.assign a b) := by
  intro s r s' h hf hr
  rw [eval] at hr
  obtain ⟨⟨v, s₁⟩, h₁, hr⟩ := bind_ok.1 hr
  obtain ⟨⟨w, s₂⟩, h₂, hr⟩ := bind_ok.1 hr
  obtain ⟨s₃, h₃, hr⟩ := bind_ok.1 hr
  cases hr
  have hleft := ha h (hf.sub (.assignLeft a b s)) h₁
  have hright := hb hleft.1 (hf.sub (.assignRight h₁)) h₂
  obtain ⟨is, rfl, -⟩ := lowerAssign_writes (C := anyRef)
    (ofBlock_anyRef _) trivial trivial h₃
  exact ⟨hright.1.emitAll is, null_emitted _⟩

theorem evalIdent_settles {y : String} (h : Settled s) (hr : evalIdent y s = .ok (r, s')) :
    Settled s' ∧ Emitted s' r.v.ref := by
  obtain rfl := evalIdent_state hr
  refine ⟨h, ?_⟩
  unfold evalIdent at hr
  split at hr
  · next u hu =>
    cases hr
    obtain ⟨scopes, hs, hu⟩ := Option.bind_eq_some_iff.1 hu
    obtain ⟨vars, hvars, hfind⟩ := List.exists_of_findSome?_eq_some hu
    exact h.vars scopes hs vars hvars u (List.mem_of_find?_eq_some hfind)
  · split at hr
    · cases hr
      exact fun _ h => nomatch h
    · cases hr

theorem addVariable_settles {name : String} {ty : Rtt} (h : Settled s)
    (hr : addVariable name ty s = .ok (r, s')) : Settled s' ∧ Emitted s' r.v.ref := by
  unfold addVariable at hr
  split at hr
  · next vars scopes hs =>
    cases hr
    have hemit := h.emitAll [.alloca ty.l]
    have hnew : Emitted (s.emit (.alloca ty.l)) (.inst s.here) :=
      build_emitted h.building (.alloca ty.l) (.ptr ty.l)
    refine ⟨⟨⟨hemit.building.bldr, hemit.building.lt, hemit.building.fn⟩,
      fun c hc ws hw v hv => ?_⟩, hnew⟩
    cases hc
    have hold := hemit.vars (vars :: scopes) hs
    rcases List.mem_cons.1 hw with rfl | hw
    · rcases List.mem_cons.1 hv with rfl | hv
      · exact hnew
      · exact hold vars List.mem_cons_self v hv
    · exact hold ws (List.mem_cons_of_mem _ hw) v hv
  · cases hr

theorem getNamedFunction_emitted (name : String) (s s' : St) :
    Emitted s' (s.getNamedFunction name).ref := by
  unfold St.getNamedFunction
  split <;> exact fun _ h => nomatch h

theorem requireFunction_emitted (f : Fun) (s s' : St) :
    Emitted s' (s.requireFunction f).1.ref := by
  unfold St.requireFunction
  dsimp only
  split
  · exact fun _ h => nomatch h
  · exact getNamedFunction_emitted _ _ _

theorem settling_funptrTo (f : String) : Settling run (.funptrTo f) := by
  intro s r s' h hf hr
  rw [eval] at hr
  split at hr
  · cases hr
  · next g _ =>
    cases hr
    exact ⟨h.requireFunction g, requireFunction_emitted g _ _⟩

/-! ### Definitions -/

/-- Whatever the body is, the surrounding function goes on. -/
theorem Settled.funbody {f : Fun} {sameMod : Bool} (h : Settled s)
    (hr : funbody (eval run body) f sameMod s = .ok s') : Settled s' := by
  have hs := funbody_evolves (eval_evolves run body) h.building hr
  exact h.next hs.building hs.grows.sub (funbody_leaves (eval_evolves run body) hr).1.curfn

theorem Settled.register (h : Settled s) (f : Fun) : Settled (s.register f) :=
  ⟨⟨h.building.bldr, h.building.lt, h.building.fn⟩, h.vars⟩

theorem settling_defun (f : Fun) (body : Expr) : Settling run (.defun f body) := by
  intro s r s' h hf hr
  rw [eval] at hr
  obtain ⟨s₁, h₁, hr⟩ := bind_ok.1 hr
  obtain ⟨s₂, h₂, hr⟩ := bind_ok.1 hr
  cases hr
  obtain rfl := registerNew_ok h₁
  exact ⟨(h.register f).funbody h₂, null_emitted _⟩

/-- `defmacro` and `deftypemacro`. -/
theorem define_settles (f : Fun) (h : Settled s)
    (hr : (Codegen.funbody (eval run body) f false (s.register f) >>= fun s' =>
      .ok (nullRtv, s')) = .ok (r, s')) : Settled s' ∧ Emitted s' r.v.ref := by
  obtain ⟨s₁, h₁, hr⟩ := bind_ok.1 hr
  cases hr
  exact ⟨(h.register f).funbody h₁, null_emitted _⟩

theorem settling_lambda (fileIdx charIdx : Nat) (ret : Rtt) (parms : List (String × Rtt))
    (vaArgs : Bool) (body : Expr) : Settling run (.lambda fileIdx charIdx ret parms vaArgs body) := by
  intro s r s' h hf hr
  rw [eval] at hr
  obtain ⟨s₁, h₁, hr⟩ := bind_ok.1 hr
  cases hr
  exact ⟨h.funbody h₁, getNamedFunction_emitted _ _ _⟩

theorem settling_staticCond (hb : Settling run body) : Settling run (.staticCond c body) := by
  intro s r s' h hf hr
  rw [eval] at hr
  obtain ⟨s₁, h₁, hr⟩ := bind_ok.1 hr
  obtain ⟨s₂, h₂, hr⟩ := bind_ok.1 hr
  have hreg : Settled s₁ := by
    obtain rfl := registerNew_ok h₁
    exact ⟨⟨h.building.bldr, h.building.lt, h.building.fn⟩, h.vars⟩
  have hcond := hreg.funbody h₂
  split at hr
  · next hrun =>
    obtain ⟨⟨rb, s₃⟩, h₃, hr⟩ := bind_ok.1 hr
    cases hr
    exact ⟨(hb hcond (hf.sub (.staticBody h₁ h₂ hrun)) h₃).1, null_emitted _⟩
  · cases hr
    exact ⟨hcond, null_emitted _⟩

/-! ### Quotations -/

theorem Settled.setupQuote (h : Settled s) : Settled s.setupQuote := by
  refine setupQuote_ind s fun cons nil int char string ident h₁ h₂ h₃ h₄ h₅ h₆ => ?_
  have step : ∀ {s₁ : St} {f : Fun} {p : Value × St}, Settled s₁ → p = s₁.requireFunction f →
      Settled p.2 := by
    rintro s₁ f p hs rfl
    exact hs.requireFunction f
  have hlast := step (step (step (step (step (step h h₁) h₂) h₃) h₄) h₅) h₆
  exact ⟨⟨hlast.building.bldr, hlast.building.lt, hlast.building.fn⟩, hlast.vars⟩

/-- Lowering `q` keeps the state settled, and its value is emitted. -/
def SettlingQuoted (run : Nat → Bool) (q : Quoted) : Prop :=
  ∀ {s v s'}, Settled s → (∀ e t, Unquotes run q s e t → Formed run e t) →
    lowerQuote run q s = .ok (v, s') → Settled s' ∧ Emitted s' v.ref

theorem Settled.buildQuote (h : Settled s) (f : Value) (args : List Value) :
    Settled (s.buildQuote f args).2 ∧ Emitted (s.buildQuote f args).2 (s.buildQuote f args).1.ref :=
  ⟨h.emitAll _, build_emitted h.building _ _⟩

theorem settlingQuoted_cons {a d : Quoted} (ha : SettlingQuoted run a)
    (hd : SettlingQuoted run d) : SettlingQuoted run (.cons a d) := by
  intro s v s' h hf hr
  rw [lowerQuote] at hr
  obtain ⟨⟨va, s₁⟩, h₁, hr⟩ := bind_ok.1 hr
  obtain ⟨⟨vd, s₂⟩, h₂, hr⟩ := bind_ok.1 hr
  cases hr
  have hcar := ha h (fun e t ht => hf e t (.car ht)) h₁
  have hcdr := hd hcar.1 (fun e t ht => hf e t (.cdr h₁ ht)) h₂
  exact hcdr.1.buildQuote _ _

theorem settlingQuoted_unquote (he : Settling run e) : SettlingQuoted run (.unquote e) := by
  intro s v s' h hf hr
  rw [lowerQuote] at hr
  obtain ⟨⟨r, s₁⟩, h₁, hr⟩ := bind_ok.1 hr
  have hval := he h (hf e s (.here e s)) h₁
  have hemit := unquoteResult_emitted hval.1.building hval.2 hr
  obtain ⟨is, rfl, -⟩ := (unquoteResult_writes (C := anyRef)
    (ofBlock_anyRef _) trivial hr).1
  exact ⟨hval.1.emitAll is, hemit⟩

theorem settling_quote (hq : SettlingQuoted run q) : Settling run (.quote q) := by
  intro s r s' h hf hr
  rw [eval] at hr
  obtain ⟨⟨v, s₁⟩, h₁, hr⟩ := bind_ok.1 hr
  cases hr
  exact hq h.setupQuote (fun e t ht => hf.sub (.quote ht)) h₁

/-- The parameters of a function are variables when its body is evaluated. -/
theorem enterFunction_settled (f : Fun) (sameMod : Bool) (s : St) :
    Settled (enterFunction f sameMod s) := by
  have hlt : (entryState f sameMod s).block < (entryState f sameMod s).graph.size := by
    rw [entryState_block, entryState_graph, Cfg.size_fresh]
    exact Nat.lt_succ_self _
  obtain ⟨⟨is, heq, -⟩, hvars⟩ := bindParms_writes (C := anyRef) f.parms 0 []
    (ofBlock_anyRef (entryState f sameMod s))
    (fun j => (trivial : anyRef (.arg s.fns.length j))) hlt
  refine ⟨enterFunction_building f sameMod s, fun scopes hs vars hv v hm => ?_⟩
  rw [enterFunction_of_parms heq] at hs ⊢
  cases hs
  obtain rfl := List.mem_singleton.1 hv
  rcases hvars v hm with hv | ⟨k, ty, hk, hat⟩
  · cases hv
  · rw [heq] at hat
    intro p hp
    rw [hk] at hp
    cases hp
    exact ⟨_, hat⟩

/-! ### All expressions -/

mutual

theorem eval_settles (run : Nat → Bool) : ∀ e, Settling run e
  | .form ks r => fun h hf hr => by
    rw [eval] at hr
    cases hr
    exact ⟨h.emitAll _, hf ks _ _ .refl⟩
  | .int _ | .float _ | .string _ | .char _ => fun h _ hr => by
    rw [eval] at hr
    cases hr
    exact ⟨h, fun _ h => nomatch h⟩
  | .ident x => fun h _ hr => by
    rw [eval] at hr
    exact evalIdent_settles h hr
  | .call _ args => settling_call (evals_settle run args)
  | .progn es => fun h hf hr => by
    rw [eval] at hr
    exact progn_settles (evals_settle run es) h (fun e t ht => hf.sub (.progn ht)) hr
  | .scope es => settling_scope (evals_settle run es)
  | .cond c body => settling_cond (eval_settles run c) (eval_settles run body)
  | .if_ c t e => settling_if (eval_settles run c) (eval_settles run t) (eval_settles run e)
  | .while_ c body => settling_while (eval_settles run c) (eval_settles run body)
  | .break_ | .continue_ => fun h _ hr => by
    rw [eval] at hr
    split at hr
    · exact jumpOut_settles h hr
    · cases hr
  | .arith op a b => settling_arith op (eval_settles run a) (eval_settles run b)
  | .cmp op a b => settling_cmp op (eval_settles run a) (eval_settles run b)
  | .not a => settling_not (eval_settles run a)
  | .defun f body => settling_defun f body
  | Expr.defmacro name body => fun h _ hr => by
    rw [eval] at hr
    exact define_settles (macroproto name) h hr
  | .lambda fileIdx charIdx ret parms vaArgs body =>
    settling_lambda fileIdx charIdx ret parms vaArgs body
  | .staticCond _ body => settling_staticCond (eval_settles run body)
  | Expr.deftypemacro name body => fun h _ hr => by
    rw [eval] at hr
    exact define_settles (typemacroproto name) h hr
  | .var name t => fun h _ hr => by
    rw [eval] at hr
    exact addVariable_settles h hr
  | .assign a b => settling_assign (eval_settles run a) (eval_settles run b)
  | .funptrTo f => settling_funptrTo f
  | .quote q => settling_quote (lowerQuote_settles run q)

theorem lowerQuote_settles (run : Nat → Bool) : ∀ q, SettlingQuoted run q
  | .nil | .int _ | .ident _ | .string _ | .char _ => fun h _ hr => by
    rw [lowerQuote] at hr
    cases hr
    exact h.buildQuote _ _
  | .float _ => fun _ _ hr => by
    rw [lowerQuote] at hr
    cases hr
  | .cons a d => settlingQuoted_cons (lowerQuote_settles run a) (lowerQuote_settles run d)
  | .unquote e => settlingQuoted_unquote (eval_settles run e)

theorem evals_settle (run : Nat → Bool) : ∀ es : List Expr, ∀ e ∈ es, Settling run e
  | [] => fun _ h => nomatch h
  | e :: es => List.forall_mem_cons.2 ⟨eval_settles run e, evals_settle run es⟩

end

end Dolorem.Codegen
