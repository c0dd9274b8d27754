import Dolorem.Programs.Branches
import Dolorem.Programs.Calls
import Dolorem.Programs.Loops

/-!
# Functions

Every form that passes its check compiles, and its code does what the
interpreter does. So does the code of a function, from its entry with the
arguments in its registers to its return.
-/

namespace Dolorem.Programs

open Codegen CodeGraph Words Interp

theorem int_sound (run : Nat → Bool) (i : Int) : Sound run (.int i) := by
  intro Γ s hok hM
  have hfit : Fits 64 i := by simpa [Form.ok] using hok
  refine ⟨makeIntConst i, s, by rw [Form.expr, eval], ?_⟩
  refine const_compiled (t := ⟨64, true⟩) hM hfit rfl rfl rfl fun addr call fuel σ => ?_
  simp only [Form.meaning, Form.exec]

theorem char_sound (run : Nat → Bool) (i : Int) : Sound run (.char i) := by
  intro Γ s hok hM
  have hfit : Fits 8 i := by simpa [Form.ok] using hok
  refine ⟨⟨⟨.const i, .int 8⟩, .integer 8 false, false⟩, s, by rw [Form.expr, eval]; rfl, ?_⟩
  refine const_compiled (t := ⟨8, false⟩) hM hfit rfl rfl rfl fun addr call fuel σ => ?_
  simp only [Form.meaning, Form.exec]

mutual

/-- All forms. -/
theorem sound (run : Nat → Bool) : ∀ e : Form, Sound run e
  | .int i => int_sound run i
  | .char i => char_sound run i
  | .ident x t => ident_sound run x t
  | .var x t => var_sound run x t
  | .varInit x t e => varInit_sound x t (sound run e)
  | .assign lhs rhs => assign_sound (sound run lhs) (sound run rhs)
  | .arith op a b => arith_sound op (sound run a) (sound run b)
  | .cmp op a b => cmp_sound op (sound run a) (sound run b)
  | .not a => not_sound (sound run a)
  | .if_ c t e => if_sound (sound run c) (sound run t) (sound run e)
  | .cond c body => cond_sound (sound run c) (sound run body)
  | .while_ c body => while_sound (sound run c) (sound run body)
  | .break_ => break_sound run
  | .continue_ => continue_sound run
  | .progn es => progn_sound (progn_sounds run es)
  | .scope es => scope_sound (progn_sounds run es)
  | .call _ args => call_sound (args_sound run args)

theorem progn_sounds (run : Nat → Bool) : ∀ es : List Form, SoundProgn run es
  | [] => nil_soundProgn run
  | e :: es => cons_soundProgn (sound run e) (progn_sounds run es)

theorem args_sound (run : Nat → Bool) : ∀ es : List Form, SoundArgs run es
  | [] => nil_soundArgs run
  | e :: es => cons_soundArgs (sound run e) (args_sound run es)

end

variable {run : Nat → Bool} {I : Image} {Γ : Ctx} {s s' : St} {σ : Store} {c c' : Config}
variable {t : IntTy} {fuel fn b : Nat} {call : Caller} {g : Func} {vs : List FunVar} {xs : List Int}
variable {globals : List (String × IntTy)} {funs : List Sig}

/-! ## The entry -/

/-- The state while the function `fn` is built and has the variables `vs`. -/
def inBody (fn : Nat) (vs : List FunVar) (s : St) : St :=
  { s with curfn := some [vs], curllvmfn := some fn }

/-- Parameters are variables that are filled from the registers of the arguments. -/
theorem bindParms_sound (fn : Nat) (parms : List (String × IntTy)) {i : Nat}
    (hM : Matches Γ (inBody fn vs s)) :
    ∃ vs' s', bindParms fn (parms.map fun p => (p.1, p.2.rtt)) i vs s = (vs', s') ∧
      Matches (Γ.add (parms.map fun p => (p.1, some p.2)).reverse) (inBody fn vs' s') ∧
      Extends (inBody fn vs s) (inBody fn vs' s') ∧
      ∀ {I : Image} {σ : Store} {c : Config} {xs : List Int}, I.Covers (inBody fn vs' s') →
        At I Γ (inBody fn vs s) σ c → xs.length = parms.length →
        (∀ j x, xs[j]? = some x → c.m.val (.arg fn (i + j)) = some x) →
        Leads I (inBody fn vs s) c (Γ.add (parms.map fun p => (p.1, some p.2)).reverse)
          (inBody fn vs' s') (bindArgs parms xs σ) fun _ => True := by
  induction parms generalizing i vs s Γ with
  | nil =>
    refine ⟨vs, s, rfl, hM, .refl hM.building, ?_⟩
    intro I σ c xs hI hat hlen hxs
    have hσ : bindArgs [] xs σ = σ := by rw [bindArgs]
    rw [hσ]
    exact .refl hat trivial
  | cons p parms ih =>
    obtain ⟨y, t⟩ := p
    let v : FunVar := ⟨y, ⟨.inst s.here, .ptr (.int t.width)⟩, .integer t.width t.flag⟩
    let s₁ := s.emit (.alloca (.int t.width))
    let st : Instr := .store ⟨.arg fn i, .int t.width⟩ v.v
    obtain ⟨r, s₁', hr, hM₁, hk₁, -, -, hrun₁⟩ := addVariable_sound hM y t
    have hadd : addVariable y t.rtt (inBody fn vs s) = .ok (⟨v.v, v.t, true⟩, inBody fn (v :: vs) s₁) :=
      rfl
    cases hadd.symm.trans hr
    have hs₁ := hM₁.building
    have hk₂ : Extends (inBody fn (v :: vs) s₁) (inBody fn (v :: vs) (s₁.emit st)) :=
      emit_extends hs₁ st
    obtain ⟨vs', s', hbind, hM', hk', hrun'⟩ := ih (i := i + 1) (hM₁.keep hk₂ rfl)
    rw [Ctx.add_add] at hM'
    rw [List.map_cons, List.map_cons, List.reverse_cons]
    refine ⟨vs', s', hbind, hM', (hk₁.trans hk₂).trans hk', ?_⟩
    intro I σ c xs hI hat hlen hxs
    cases xs with
    | nil => cases hlen
    | cons x xs =>
      have hI₂ := hI.of_extends hk'
      refine (hrun₁ (hI₂.of_extends hk₂) hat).trans hk₁ fun c₁ hat₁ hsame₁ hplace => ?_
      have harg : ∀ j, c₁.m.val (.arg fn j) = c.m.val (.arg fn j) := fun j =>
        hsame₁.val _ (by rintro p ⟨⟩)
      have hx : c₁.m.read ⟨.arg fn i, .int t.width⟩ = some x := (harg i).trans (hxs 0 x rfl)
      refine (hat₁.store hs₁ hI₂ hx hplace).trans hk₂ fun c₂ hat₂ hsame₂ _ => ?_
      have hrest := hrun' hI hat₂ (Nat.succ.inj hlen) fun j z hz => ?_
      · rw [Ctx.add_add] at hrest
        exact hrest
      · have hz' := hxs (j + 1) z hz
        rw [Nat.add_assoc, Nat.add_comm 1 j, hsame₂.val _ (by rintro p ⟨⟩), harg, hz']

/-- A definition is compiled in this state: no function is being built in a loop
here, and every function that has code is registered. -/
structure Outside (globals : List (String × IntTy)) (funs : List Sig) (s : St) : Prop where
  precompiled : s.precompiled = true
  loop : s.whileInLoop = false
  mods : ∀ lf ∈ s.fns, lf.mod < s.mods
  owner : ∀ b k, s.graph.owner? b = some k →
    ∃ lf y, s.fns[k]? = some lf ∧ lf.name = some y ∧ (s.funs.lookup y).isSome
  globals : ∀ x t, globals.lookup x = some t → s.globals.lookup x = some t.rtt
  funs : ∀ f ∈ funs, s.funs.lookup f.name = some f.fn

/-- The state in front of the code for the parameters. -/
def bodyStart (f : Fun) (s : St) : St := inBody s.fns.length [] (entryState f false s)

theorem bodyStart_building (f : Fun) (s : St) : Building (bodyStart f s) where
  bldr := rfl
  lt := by
    show s.graph.size < (s.graph.fresh s.fns.length).size
    rw [Cfg.size_fresh]
    exact Nat.lt_succ_self _
  fn := rfl

theorem bodyStart_here (f : Fun) (s : St) : (bodyStart f s).here = ⟨s.graph.size, 0⟩ := by
  show (s.graph.fresh s.fns.length).endOf s.graph.size = _
  rw [Cfg.endOf, Cfg.code_fresh, Cfg.code_of_size_le _ le_rfl]
  rfl

theorem bodyStart_fns (h : Outside globals funs s) (f : Fun) :
    (bodyStart f s).fns = s.fns ++ [⟨s.mods, some f.name, f.funtype⟩] := by
  have hfree : (s.fns.any fun lf => lf.mod = s.mods ∧ lf.name = some f.name) = false := by
    rw [List.any_eq_false]
    intro lf hlf
    simpa using fun hmod => absurd hmod (Nat.ne_of_lt (h.mods lf hlf))
  show s.fns ++ [⟨s.mods, if (s.fns.any fun lf => lf.mod = s.mods ∧ lf.name = some f.name) then
    none else some f.name, f.funtype⟩] = _
  rw [hfree]
  rfl

theorem bodyStart_matches (h : Outside globals funs s) (f : Fun) :
    Matches ⟨[], globals, funs, false⟩ (bodyStart f s) where
  building := bodyStart_building f s
  scopes := ⟨[], [], rfl⟩
  slots := .nil
  globals := h.globals
  funs := h.funs
  loop hl := by cases hl

/-- A call of the function with the arguments `xs`. -/
def Image.enter (I : Image) (b prev : Nat) (xs : List Int) (m : Mem) (stack : List Frame) : Config :=
  ⟨⟨b, 0⟩, prev, ⟨I.registers xs, m.cells⟩, m.next, stack⟩

theorem at_bodyStart {f : Fun} {prev : Nat} {m : Mem} {stack : List Frame} :
    At I ⟨[], globals, funs, false⟩ (bodyStart f s) ⟨[], m⟩
      (I.enter s.graph.size prev xs m stack) where
  pos := (bodyStart_here f s).symm
  cells := rfl
  next := rfl
  places := .nil
  globals _ _ := rfl

/-! ## The end -/

/-- A function that was called from `stack` is about to return `r`. -/
structure Returns (I : Image) (f : Sig) (stack : List Frame) (r : Int × Mem) (c : Config) : Prop where
  instr : (∃ v, I.graph.at? c.pos = some (.ret v) ∧ c.m.read v = some r.1) ∨
    I.graph.at? c.pos = some .retVoid ∧ r.1 = 0
  mem : (⟨c.m.mem, c.next⟩ : Mem) = r.2
  stack : c.stack = stack
  fits : ∀ t, f.ret = some t → Fits t.width r.1

/-- `prepare_read` on a result that need not have a type. -/
theorem prepareRead_any {M : Meaning} {r : Rtv} {s₀ : St} (hc : Compiled Γ s₀ M r s) :
    ∃ r' is, prepareRead r s = .ok (r', s.emitAll is) ∧
      (∀ t, M.ty = some t → HasTy (s.emitAll is) t false r') ∧
      ∀ {I fuel Γ σ c o}, I.Covers (s.emitAll is) → At I Γ s σ c →
        (∀ t, M.ty = some t → Holds c t r o) →
        Follows I fuel s c (o.result M.ty σ) Γ (s.emitAll is) fun x c' =>
          ∀ t, M.ty = some t → c'.m.read r'.v = some x ∧ Fits t.width x := by
  cases ht : M.ty with
  | none =>
    refine ⟨r, [], by rw [prepareRead_of_rval (hc.void ht), St.emitAll_nil], by rintro t ⟨⟩, ?_⟩
    intro I fuel Γ σ c o hI hat hh
    rw [St.emitAll_nil]
    exact .ok (.refl hat (by rintro t ⟨⟩))
  | some t =>
    obtain ⟨r', is, hr, hty, hrun⟩ := prepareRead_sound hc.ext.building (hc.ty t ht)
    refine ⟨r', is, hr, by rintro u ⟨⟩; exact hty, fun hI hat hh => ?_⟩
    refine (hrun hI hat (hh t rfl)).imp ?_
    rintro x σ c' - - hx u ⟨⟩
    exact hx

/-- The result is read, converted and returned. -/
theorem buildReturn_sound {M : Meaning} {r : Rtv} {s₀ : St} {f : Sig} (hc : Compiled Γ s₀ M r s)
    (hret : f.ret.isNone || M.ty.isSome) :
    ∃ r' s₁ s', prepareRead r s = .ok (r', s₁) ∧ buildReturn f.fn r' s₁ = .ok s' ∧ Extends s s' ∧
      ∀ {I fuel Γ σ c o}, I.Covers s' → At I Γ s σ c → (∀ t, M.ty = some t → Holds c t r o) →
        Sim I.step I.Stuck fuel c
          (o.result M.ty σ >>= fun p => (.ok (f.result p.1, p.2.mem) : Res (Int × Mem)))
          (Returns I f c.stack) (Leaves s c) := by
  obtain ⟨r', is, hr, hty, hrun⟩ := prepareRead_any hc
  have hk₁ : Extends s (s.emitAll is) := .emitAll hc.ext.building is
  cases hf : f.ret with
  | none =>
    have hk₂ := emit_extends hk₁.building .retVoid
    refine ⟨r', _, (s.emitAll is).emit .retVoid, hr, ?_, hk₁.trans hk₂, ?_⟩
    · rw [buildReturn, if_pos (by simp [Sig.fn, hf, voidType])]
    · intro I fuel Γ σ c o hI hat hh
      refine Sim.bind (hrun (hI.of_extends hk₂) hat hh) ?_
      rintro ⟨x, σ₁⟩ c₁ ⟨hat₁, hsame, -⟩
      refine .ok ⟨.inr ⟨hat₁.fetch hk₁.building hI, ?_⟩, hat₁.mem, hsame.stack, ?_⟩
      · simp [Sig.result, hf]
      · intro t ht
        cases hf.symm.trans ht
  | some t =>
    rw [hf] at hret
    obtain ⟨u, hu⟩ := Option.isSome_iff_exists.1 (by simpa using hret)
    obtain ⟨r₂, js, hconv, hty₂, hrun₂⟩ := convertType_sound hk₁.building (hty u hu) t 0
    have hk₂ : Extends (s.emitAll is) ((s.emitAll is).emitAll js) := .emitAll hk₁.building js
    have hk₃ := emit_extends hk₂.building (.ret r₂.v)
    refine ⟨r', _, _, hr, ?_, (hk₁.trans hk₂).trans hk₃, ?_⟩
    · have hne : f.fn.ret = t.rtt := by simp [Sig.fn, hf]
      rw [buildReturn, hne, if_neg (by rintro ⟨⟩), hconv]
      rfl
    · intro I fuel Γ σ c o hI hat hh
      have hI₂ := hI.of_extends hk₃
      refine Sim.bind (hrun (hI₂.of_extends hk₂) hat hh) ?_
      rintro ⟨x, σ₁⟩ c₁ ⟨hat₁, hsame₁, hx⟩
      obtain ⟨hx, hfit⟩ := hx u hu
      obtain ⟨c₂, hreach₂, hat₂, hsame₂, hx₂⟩ := hrun₂ hI₂ hat₁ hx hfit
      refine .of_reaches hreach₂ (.ok ⟨.inl ⟨r₂.v, hat₂.fetch hk₂.building hI, ?_⟩, hat₂.mem,
        hsame₂.stack.trans hsame₁.stack, ?_⟩)
      · simp [Sig.result, hf, hx₂]
      · intro t' ht
        cases hf.symm.trans ht
        simpa [Sig.result, hf] using fits_wrap _ _

/-! ## The function -/

/-- The code of the function begins at `b` and does what the interpreter does. -/
def Entered (I : Image) (funs : List Sig) (g : Func) (b : Nat) : Prop :=
  ∀ {fuel : Nat} {call : Caller}, CallsIn I funs fuel call →
    ∀ {prev : Nat} {xs : List Int} {m : Mem} {stack : List Frame},
      List.Forall₂ (fun p x => Fits p.2.width x) g.sig.parms xs →
      Sim I.step I.Stuck fuel (I.enter b prev xs m stack) (g.exec I.addr call fuel xs m)
        (Returns I g.sig stack) fun _ _ => False

/-- `funbody` on a function that is checked. -/
theorem funbody_sound (run : Nat → Bool) (h : Outside globals funs s)
    (hok : g.ok globals funs = true) :
    ∃ s₁, funbody (eval run g.body.expr) g.sig.fn false s = .ok
        { s₁.setBuilderPosition s.bldr with
          curfn := s.curfn, curllvmfn := s.curllvmfn, mod := s.mod } ∧
      Extends (bodyStart g.sig.fn s) s₁ ∧
      ∀ {I : Image}, I.Covers s₁ → Entered I funs g s.graph.size := by
  simp only [Func.ok, Bool.and_eq_true] at hok
  obtain ⟨vs, s₂, hbind, hM, hk, hrun⟩ :=
    bindParms_sound s.fns.length g.sig.parms (i := 0) (bodyStart_matches h g.sig.fn)
  have hctx : (⟨[], globals, funs, false⟩ : Ctx).add
      (g.sig.parms.map fun p => (p.1, some p.2)).reverse = g.sig.ctx globals funs := by
    simp [Ctx.add, Sig.ctx]
  rw [hctx] at hM hrun
  have henter : enterFunction g.sig.fn false s =
      inBody s.fns.length (bindParms s.fns.length g.sig.fn.parms 0 [] (entryState g.sig.fn false s)).1
        (bindParms s.fns.length g.sig.fn.parms 0 [] (entryState g.sig.fn false s)).2 := rfl
  rw [show g.sig.fn.parms = g.sig.parms.map fun p => (p.1, p.2.rtt) from rfl, hbind] at henter
  obtain ⟨r, s₃, hr, hc⟩ := sound run g.body hok.1 hM
  obtain ⟨r', s₄, s₅, hread, hreturn, hk', hend⟩ := buildReturn_sound hc hok.2
  refine ⟨s₅, ?_, (hk.trans hc.ext).trans hk', fun {I} hI => ?_⟩
  · rw [funbody, if_pos h.precompiled, henter]
    simp only [hr, hread, hreturn, ok_bind, Bool.false_eq_true, if_false]
  intro fuel call hcalls prev xs m stack hxs
  have hI₃ := hI.of_extends hk'
  have hargs : ∀ j x, xs[j]? = some x →
      (I.enter s.graph.size prev xs m stack).m.val (.arg s.fns.length (0 + j)) = some x := by
    intro j x hj
    show xs[0 + j]? = some x
    rw [Nat.zero_add, hj]
  obtain ⟨c, hreach, hat, hsame, -⟩ :=
    hrun (hI₃.of_extends hc.ext) at_bodyStart hxs.length_eq.symm hargs
  -- no loop is left behind
  have hloop := hk.whileInLoop.trans h.loop
  have hloop' := hc.ext.whileInLoop.trans hloop
  refine .of_reaches hreach (Sim.bind (Sim.imp (hc.run hI₃ hcalls hat) (fun _ _ hr => hr) ?_) ?_)
  · rintro e c' ⟨hin, -⟩
    exact absurd (hloop.symm.trans hin) Bool.false_ne_true
  · rintro ⟨o, σ⟩ c₁ ⟨hat₁, hsame₁, hh⟩
    have hreturns := @hend I fuel _ _ _ _ hI hat₁ hh
    rw [hsame₁.stack, hsame.stack] at hreturns
    refine hreturns.imp (fun _ _ hr => hr) ?_
    rintro e c' ⟨hin, -⟩
    exact absurd (hloop'.symm.trans hin) Bool.false_ne_true

end Dolorem.Programs
