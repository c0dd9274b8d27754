import Dolorem.Programs.Steps

/-!
# Values and variables

`Compiled Γ s M r s'` is the contract between the compiler and the interpreter
for a form with the meaning `M` that was compiled from `s` to `s'`: the compiler
knows what the form adds, the result has the form's type, and the code does what
the interpreter does. It is proved here for literals, variables, assignment and
the operators.
-/

namespace Dolorem.Programs

open Codegen CodeGraph Words Interp

abbrev Caller := String → List Int → Mem → Res (Int × Mem)

/-- Calls of these functions behave as `call` does. -/
def CallsIn (I : Image) (funs : List Sig) (fuel : Nat) (call : Caller) : Prop :=
  ∀ f ∈ funs, ∀ (c : Config) (fn : Value) (args : List Value) (xs : List Int) (k : Nat) (lf : LFun),
    I.graph.at? c.pos = some (.call fn args) → fn.ref = .fn k → I.fns[k]? = some lf →
    lf.name = some f.name → List.Forall₂ (fun v x => c.m.read v = some x) args xs →
    List.Forall₂ (fun p x => Fits p.2.width x) f.parms xs →
    Sim I.step I.Stuck fuel c (call f.name xs ⟨c.m.mem, c.next⟩)
      (fun r c' =>
        c' = ⟨c.pos.skip 1, c.prev, (⟨c.m.val, r.2.cells⟩ : Core).define c.pos r.1, r.2.next,
          c.stack⟩ ∧ ∀ t, f.ret = some t → Fits t.width r.1)
      fun _ _ => False

/-- What is known about a form, or a list of forms, before it is compiled. -/
structure Meaning where
  adds : List (String × Option IntTy)
  ty : Option IntTy
  lval : Bool
  flat : Bool
  exec : (String → Int) → Caller → Nat → Store → Res (Operand × Store)

def Form.meaning (e : Form) : Meaning := ⟨e.adds, e.ty, e.lval, e.flat, e.exec⟩

structure Compiled (Γ : Ctx) (s : St) (M : Meaning) (r : Rtv) (s' : St) : Prop where
  ctx : Matches (Γ.add M.adds) s'
  ext : Extends s s'
  ty : ∀ t, M.ty = some t → HasTy s' t M.lval r
  void : M.ty = none → r.lval = false
  flat : M.flat = true → s'.block = s.block
  run : ∀ {I : Image} {fuel : Nat} {call : Caller}, I.Covers s' → CallsIn I Γ.funs fuel call →
    ∀ {σ : Store} {c : Config}, At I Γ s σ c →
      Follows I fuel s c (M.exec I.addr call fuel σ) (Γ.add M.adds) s' fun o c' =>
        ∀ t, M.ty = some t → Holds c' t r o

/-- The form compiles wherever its check succeeds. -/
def Sound (run : Nat → Bool) (e : Form) : Prop :=
  ∀ {Γ : Ctx} {s : St}, e.ok Γ = true → Matches Γ s →
    ∃ r s', eval run e.expr s = .ok (r, s') ∧ Compiled Γ s e.meaning r s'

variable {run : Nat → Bool} {I : Image} {Γ Γ' : Ctx} {s s' s₁ : St} {σ : Store} {c : Config}
variable {t u : IntTy} {r r' l : Rtv} {x y a : Int} {o : Operand} {fuel : Nat} {call : Caller}

/-! ## Literals and variables -/

theorem const_compiled (hM : Matches Γ s) (hx : Fits t.width x) {M : Meaning} (hadds : M.adds = [])
    (hty : M.ty = some t) (hl : M.lval = false)
    (hexec : ∀ addr call fuel σ, M.exec addr call fuel σ = .ok (.val x, σ)) :
    Compiled Γ s M ⟨⟨.const x, .int t.width⟩, .integer t.width t.flag, false⟩ s where
  ctx := by
    rw [hadds]
    exact hM
  ext := .refl hM.building
  ty u hu := by
    cases hty.symm.trans hu
    rw [hl]
    exact ⟨rfl, rfl, rfl, by rintro p ⟨⟩⟩
  void _ := rfl
  flat _ := rfl
  run hI hcalls σ c hat := by
    rw [hexec, hadds]
    refine .ok (.refl hat fun u hu => ?_)
    cases hty.symm.trans hu
    exact ⟨rfl, rfl, hx⟩

theorem Slot.find {G : List (String × Option IntTy)} {vs : List FunVar} {y : String}
    (h : List.Forall₂ (Slot s) G vs) (hy : G.lookup y = some (some t)) :
    ∃ v, vs.find? (·.name = y) = some v ∧ v.t = .integer t.width t.flag ∧
      v.v.ty = .ptr (.int t.width) ∧ Known s v.v.ref := by
  induction h with
  | nil => cases hy
  | @cons p v G vs hp _ ih =>
    rw [List.lookup_cons] at hy
    by_cases hxy : y == p.1
    · rw [hxy] at hy
      obtain rfl := beq_iff_eq.1 hxy
      exact ⟨v, List.find?_cons_of_pos (by simpa using hp.name), hp.shape t (Option.some.inj hy)⟩
    · rw [Bool.not_eq_true] at hxy
      rw [hxy] at hy
      obtain ⟨w, hw, hshape⟩ := ih hy
      have hne : v.name ≠ y := by
        rintro rfl
        rw [hp.name, beq_self_eq_true] at hxy
        cases hxy
      exact ⟨w, by rw [List.find?_cons_of_neg (by simpa using hne), hw], hshape⟩

theorem Slot.not_find {G : List (String × Option IntTy)} {vs : List FunVar} {y : String}
    (h : List.Forall₂ (Slot s) G vs) (hy : G.lookup y = none) : vs.find? (·.name = y) = none := by
  induction h with
  | nil => rfl
  | @cons p v G vs hp _ ih =>
    rw [List.lookup_cons] at hy
    cases hxy : y == p.1 with
    | true =>
      rw [hxy] at hy
      cases hy
    | false =>
      rw [hxy] at hy
      have hne : v.name ≠ y := by
        rintro rfl
        rw [hp.name, beq_self_eq_true] at hxy
        cases hxy
      rw [List.find?_cons_of_neg (by simpa using hne), ih hy]

theorem lookup_vars (hM : Matches Γ s) (y : String) :
    (s.curfn.bind fun scopes => lookupInFunScope scopes y) = (vars s).find? (·.name = y) := by
  obtain ⟨vs, rest, hs⟩ := hM.scopes
  rw [vars, hs, Option.getD_some, List.find?_flatten]
  rfl

theorem ident_sound (run : Nat → Bool) (y : String) (t : IntTy) : Sound run (.ident y t) := by
  intro Γ s hok hM
  have hfind : Γ.find y = some t := by simpa [Form.ok] using hok
  -- what the compiler finds has the type, and holds the place the interpreter finds
  suffices h : ∃ r, evalIdent y s = .ok (r, s) ∧ HasTy s t true r ∧
      ∀ {I σ c}, At I Γ s σ c → c.m.read r.v = some (σ.find I.addr y) by
    obtain ⟨r, hr, hty, hval⟩ := h
    refine ⟨r, s, hr, ⟨hM, .refl hM.building, ?_, by rintro ⟨⟩, fun _ => rfl, ?_⟩⟩
    · rintro u ⟨⟩
      exact hty
    · intro I fuel call hI hcalls σ c hat
      simp only [Form.meaning, Form.exec]
      refine .ok (.refl hat ?_)
      rintro u ⟨⟩
      exact ⟨hty.lval, hval hat, rfl⟩
  unfold Ctx.find at hfind
  unfold evalIdent
  rw [lookup_vars hM]
  split at hfind
  · next t' hy =>
    subst hfind
    obtain ⟨v, hv, ht, hl, hk⟩ := Slot.find hM.slots hy
    rw [hv]
    refine ⟨_, rfl, ⟨ht, rfl, hl, hk⟩, fun hat => ?_⟩
    obtain ⟨v', a, hv', henv, hread⟩ := hat.places.find hy
    cases hv.symm.trans hv'
    unfold Store.find
    rw [henv, Option.getD_some]
    exact hread
  · next hy =>
    rw [Slot.not_find hM.slots hy, hM.globals y t hfind]
    refine ⟨_, rfl, ⟨rfl, rfl, rfl, Same.known_global s _ _⟩, fun hat => ?_⟩
    unfold Store.find
    rw [hat.places.not_find hy, Option.getD_none]
    exact hat.globals _ _

/-- `add_variable` -/
theorem addVariable_sound (hM : Matches Γ s) (y : String) (t : IntTy) :
    ∃ r s', addVariable y t.rtt s = .ok (r, s') ∧ Matches (Γ.add [(y, some t)]) s' ∧
      Extends s s' ∧ HasTy s' t true r ∧ s'.block = s.block ∧
      ∀ {I σ c}, I.Covers s' → At I Γ s σ c →
        Leads I s c (Γ.add [(y, some t)]) s' (σ.declare y) fun c' =>
          c'.m.read r.v = some σ.mem.next := by
  obtain ⟨vs, rest, hscopes⟩ := hM.scopes
  have hs := hM.building
  let p : Value := ⟨.inst s.here, .ptr (.int t.width)⟩
  let s₁ := s.emit (.alloca (.int t.width))
  let s' : St := { s₁ with curfn := some ((⟨y, p, .integer t.width t.flag⟩ :: vs) :: rest) }
  have hk₁ : Extends s s₁ := emit_extends hs _
  have hk : Extends s s' :=
    ⟨⟨hk₁.building.bldr, hk₁.building.lt, hk₁.building.fn⟩, hk₁.grows, hk₁.owner, hk₁.fns,
      by rw [hscopes]; exact ⟨[_], rfl⟩, hk₁.outer⟩
  have hknown : Known s' p.ref := known_here hs _
  have hvars : vars s' = [⟨y, p, .integer t.width t.flag⟩] ++ vars s := by
    simp [vars, s', hscopes]
  refine ⟨⟨p, .integer t.width t.flag, true⟩, s', ?_, ?_, hk, ⟨rfl, rfl, rfl, hknown⟩, ?_, ?_⟩
  · unfold addVariable
    rw [hscopes]
    rfl
  · refine hM.extend hk hvars (.cons ⟨rfl, ?_⟩ .nil)
    rintro u ⟨⟩
    exact ⟨rfl, rfl, hknown⟩
  · exact St.block_emitAll s [_]
  · intro I σ c hI hat
    obtain ⟨c', hreach, hat', hsame, hval⟩ := hat.alloca hs ⟨hI.graph, hI.fns⟩
    refine ⟨c', hreach, ⟨hat'.pos, hat'.cells, hat'.next, ?_, hat'.globals⟩, hsame, hval⟩
    rw [hvars]
    refine .cons rfl (fun _ => ⟨hknown, hval⟩) ?_
    exact hat.places.mono (fun x => hk.known) fun v => hsame.read

theorem var_sound (run : Nat → Bool) (y : String) (t : IntTy) : Sound run (.var y t) := by
  intro Γ s hok hM
  obtain ⟨r, s', hr, hM', hk, -, hblock, hrun⟩ := addVariable_sound hM y t
  refine ⟨nullRtv, s', ?_, ⟨hM', hk, by rintro u ⟨⟩, fun _ => rfl, fun _ => hblock, ?_⟩⟩
  · simp only [Form.expr, eval, evalProgn, hr, ok_bind]
  · intro I fuel call hI hcalls σ c hat
    simp only [Form.meaning, Form.exec]
    refine .ok ((hrun hI hat).imp ?_)
    rintro c' - - - u ⟨⟩

/-! ## Operands -/

/-- Evaluation of a form whose result is read. -/
def Form.value (addr : String → Int) (call : Caller) (fuel : Nat) (e : Form) (σ : Store) :
    Res (Int × Store) :=
  e.exec addr call fuel σ >>= fun p => p.1.load p.2

/-- A form and `prepare_read`. -/
theorem Sound.operand {e : Form} (h : Sound run e) (hok : e.ok Γ = true) (hM : Matches Γ s)
    (ht : e.ty = some t) :
    ∃ r₁ s₁ r s', eval run e.expr s = .ok (r₁, s₁) ∧ prepareRead r₁ s₁ = .ok (r, s') ∧
      Matches (Γ.add e.adds) s' ∧ Extends s s' ∧ HasTy s' t false r ∧
      (e.flat = true → s'.block = s.block) ∧
      ∀ {I fuel call}, I.Covers s' → CallsIn I Γ.funs fuel call → ∀ {σ c}, At I Γ s σ c →
        Follows I fuel s c (e.value I.addr call fuel σ) (Γ.add e.adds) s' fun x c' =>
          c'.m.read r.v = some x ∧ Fits t.width x := by
  obtain ⟨r₁, s₁, he, hc⟩ := h hok hM
  have hs₁ := hc.ext.building
  obtain ⟨r, is, hr, hty, hread⟩ := prepareRead_sound hs₁ (hc.ty t ht)
  have hk : Extends s₁ (s₁.emitAll is) := .emitAll hs₁ is
  refine ⟨r₁, s₁, r, _, he, hr, hc.ctx.keep hk rfl, hc.ext.trans hk, hty, fun hf => ?_, ?_⟩
  · rw [St.block_emitAll, hc.flat hf]
  · intro I fuel call hI hcalls σ c hat
    refine Follows.bind (hc.run (hI.of_extends hk) hcalls hat) hc.ext ?_
    intro o σ₁ c₁ hat₁ hsame hh
    exact hread hI hat₁ (hh t ht)

/-! ## Assignment -/

theorem lowerAssign_sound {k : Bool} (hs : Building s) (hl : HasTy s t true l)
    (hr : HasTy s u k r) :
    ∃ is, lowerAssign l r s = .ok (s.emitAll is) ∧
      ∀ {I fuel Γ σ c a o}, I.Covers (s.emitAll is) → At I Γ s σ c → c.m.read l.v = some a →
        Holds c u r o →
        Follows I fuel s c
          (o.load σ >>= fun p =>
            .ok (Operand.val 0, { p.2 with mem := p.2.mem.write a (wrap t.width p.1) }))
          Γ (s.emitAll is) fun _ _ => True := by
  obtain ⟨r₁, is, hread, hty₁, hrun₁⟩ := prepareRead_sound hs hr
  have hk₁ : Extends s (s.emitAll is) := .emitAll hs is
  obtain ⟨r₂, js, hconv, hty₂, hrun₂⟩ := convertType_sound hk₁.building hty₁ t 0
  have hk₂ : Extends (s.emitAll is) ((s.emitAll is).emitAll js) := .emitAll hk₁.building js
  refine ⟨is ++ js ++ [.store r₂.v l.v], ?_, ?_⟩
  · have helem : l.v.ty.element = some (.int t.width) := by rw [hl.ty]; rfl
    simp only [lowerAssign, hl.lval, Bool.not_true, Bool.false_eq_true, if_false, hread, ok_bind,
      helem, hl.type]
    rw [show (⟨.int t.width, .integer t.width t.flag⟩ : Rtt) = t.rtt from rfl, hconv]
    simp only [ok_bind, St.emit, St.emitAll_emitAll, List.append_assoc]
  · intro I fuel Γ σ c a o hI hat ha hh
    rw [← St.emitAll_emitAll, ← St.emitAll_emitAll] at hI ⊢
    have hI₂ := hI.of_extends (emit_extends hk₂.building (.store r₂.v l.v))
    refine .bind (hrun₁ (hI₂.of_extends hk₂) hat hh) hk₁ ?_
    rintro x σ₁ c₁ hat₁ hsame₁ ⟨hx, hfit⟩
    refine .ok ((hrun₂ hI₂ hat₁ hx hfit).trans hk₂ ?_)
    intro c₂ hat₂ hsame₂ hx₂
    have ha₂ : c₂.m.read l.v = some a := by
      rw [hsame₂.read (hk₁.known hl.known), hsame₁.read hl.known, ha]
    exact hat₂.store hk₂.building hI hx₂ ha₂

theorem varInit_sound {e : Form} (y : String) (t : IntTy) (he : Sound run e) :
    Sound run (.varInit y t e) := by
  intro Γ s hok hM
  simp only [Form.ok, Bool.and_eq_true, Option.isSome_iff_exists] at hok
  obtain ⟨hok, u, hu⟩ := hok
  obtain ⟨l, s₁, hl, hM₁, hk₁, hty, hblock₁, hrun₁⟩ := addVariable_sound hM y t
  obtain ⟨r, s₂, hr, hc⟩ := he hok hM₁
  have hty' := hty.mono hc.ext.later
  obtain ⟨is, hassign, hrun₂⟩ := lowerAssign_sound hc.ext.building hty' (hc.ty u hu)
  have hk₂ : Extends s₂ (s₂.emitAll is) := .emitAll hc.ext.building is
  have hM₂ := hc.ctx.keep hk₂ rfl
  rw [Ctx.add_add] at hM₂
  refine ⟨nullRtv, _, ?_, ⟨hM₂, (hk₁.trans hc.ext).trans hk₂, by rintro u ⟨⟩, fun _ => rfl, fun hf => ?_,
    ?_⟩⟩
  · simp only [Form.expr, eval, hl, hr, hassign, ok_bind]
  · rw [St.block_emitAll, hc.flat (by simpa [Form.meaning, Form.flat] using hf), hblock₁]
  · intro I fuel call hI hcalls σ c hat
    have hI₂ := hI.of_extends hk₂
    simp only [Form.meaning, Form.exec]
    refine .of_leads (hrun₁ (hI₂.of_extends hc.ext) hat) hk₁ fun c₁ hat₁ hsame₁ hplace => ?_
    refine .bind (hc.run hI₂ hcalls hat₁) hc.ext fun o σ₂ c₂ hat₂ hsame₂ hh => ?_
    rw [Ctx.add_add] at hat₂
    refine (hrun₂ hI hat₂ ?_ (hh u hu)).imp ?_
    · rw [hsame₂.read hty.known, hplace]
    · rintro o' σ' c' - - - u ⟨⟩

theorem assign_sound {lhs rhs : Form} (hl : Sound run lhs) (hr : Sound run rhs) :
    Sound run (.assign lhs rhs) := by
  intro Γ s hok hM
  simp only [Form.ok, Bool.and_eq_true, Option.isSome_iff_exists] at hok
  obtain ⟨⟨⟨⟨hokl, hokr⟩, hlval⟩, t, ht⟩, u, hu⟩ := hok
  obtain ⟨l, s₁, hl, hcl⟩ := hl hokl hM
  obtain ⟨r, s₂, hr, hcr⟩ := hr hokr hcl.ctx
  have hty := hcl.ty t ht
  rw [show lhs.meaning.lval = true from hlval] at hty
  obtain ⟨is, hassign, hrun⟩ :=
    lowerAssign_sound hcr.ext.building (hty.mono hcr.ext.later) (hcr.ty u hu)
  have hk : Extends s₂ (s₂.emitAll is) := .emitAll hcr.ext.building is
  have hM₂ := hcr.ctx.keep hk rfl
  rw [Ctx.add_add] at hM₂
  refine ⟨nullRtv, _, ?_, ⟨hM₂, (hcl.ext.trans hcr.ext).trans hk, by rintro u ⟨⟩, fun _ => rfl,
    fun hf => ?_, ?_⟩⟩
  · simp only [Form.expr, eval, hl, hr, hassign, ok_bind]
  · simp only [Form.meaning, Form.flat, Bool.and_eq_true] at hf
    rw [St.block_emitAll, hcr.flat hf.2, hcl.flat hf.1]
  · intro I fuel call hI hcalls σ c hat
    have hI₂ := hI.of_extends hk
    simp only [Form.meaning, Form.exec]
    refine .bind (hcl.run (hI₂.of_extends hcr.ext) hcalls hat) hcl.ext fun p σ₁ c₁ hat₁ hsame₁ hp => ?_
    refine .bind (hcr.run hI₂ hcalls hat₁) hcr.ext fun o σ₂ c₂ hat₂ hsame₂ ho => ?_
    rw [Ctx.add_add] at hat₂
    have hp := hp t ht
    cases p with
    | val x =>
      have hfalse := hp.1
      rw [hty.lval] at hfalse
      cases hfalse
    | place a w =>
      obtain ⟨-, ha, rfl⟩ := hp
      refine (hrun hI hat₂ ?_ (ho u hu)).imp ?_
      · rw [hsame₂.read hty.known, ha]
      · rintro o' σ' c' - - - u ⟨⟩

end Dolorem.Programs
