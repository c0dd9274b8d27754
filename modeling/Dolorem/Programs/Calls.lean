import Dolorem.Programs.Structures

/-!
# Calls

`funcall` evaluates all arguments, then `lower_funcall` reads and converts them
and emits the call. The call does what the called function does.
-/

namespace Dolorem.Programs

open Codegen CodeGraph Words Interp

variable {run : Nat → Bool} {I : Image} {Γ : Ctx} {s s' s₁ : St} {σ : Store} {c c' : Config}
variable {t : IntTy} {ts : List IntTy} {r : Rtv} {rs : List Rtv} {os : List Operand}
variable {fuel : Nat} {call : Caller} {e : Form} {es : List Form} {f : Sig}

/-! ## Arguments -/

/-- The results of the arguments at compile time. -/
def HaveTys (s : St) (ts : List IntTy) (rs : List Rtv) : Prop :=
  List.Forall₂ (fun t r => HasTy s t r.lval r) ts rs

/-- The results of the arguments when they have run. -/
inductive HoldAll (c : Config) : List IntTy → List Rtv → List Operand → Prop
  | nil : HoldAll c [] [] []
  | cons {t : IntTy} {r : Rtv} {o : Operand} {ts : List IntTy} {rs : List Rtv} {os : List Operand} :
      Holds c t r o → HoldAll c ts rs os → HoldAll c (t :: ts) (r :: rs) (o :: os)

theorem HaveTys.mono (h : HaveTys s ts rs) (hk : Later s s') : HaveTys s' ts rs :=
  h.imp fun _ _ hr => hr.mono hk

theorem HoldAll.same (h : HoldAll c ts rs os) (hr : HaveTys s ts rs) (hsame : Same s c c') :
    HoldAll c' ts rs os := by
  induction h with
  | nil => exact .nil
  | cons hh _ ih =>
    cases hr with
    | cons hr hrs => exact .cons (hh.same hr hsame) (ih hrs)

def SoundArgs (run : Nat → Bool) (es : List Form) : Prop :=
  ∀ {Γ : Ctx} {s : St} {ts : List IntTy}, Form.allOk es Γ = true → Matches Γ s →
    es.map Form.ty = ts.map some →
    ∃ rs s', evalArgs run (Form.exprs es) s = .ok (rs, s') ∧ Matches (Γ.add (Form.addsAll es)) s' ∧
      Extends s s' ∧ HaveTys s' ts rs ∧ (Form.allFlat es = true → s'.block = s.block) ∧
      ∀ {I : Image} {fuel : Nat} {call : Caller}, I.Covers s' → CallsIn I Γ.funs fuel call →
        ∀ {σ : Store} {c : Config}, At I Γ s σ c →
          Follows I fuel s c (Form.execArgs I.addr call fuel es σ) (Γ.add (Form.addsAll es)) s'
            fun os c' => HoldAll c' ts rs os

theorem nil_soundArgs (run : Nat → Bool) : SoundArgs run [] := by
  intro Γ s ts hok hM hts
  cases ts with
  | cons t ts => cases hts
  | nil =>
    refine ⟨[], s, by rw [Form.exprs, evalArgs], hM, .refl hM.building, .nil, fun _ => rfl, ?_⟩
    intro I fuel call hI hcalls σ c hat
    rw [Form.execArgs]
    exact .ok (.refl hat .nil)

theorem cons_soundArgs (he : Sound run e) (hes : SoundArgs run es) : SoundArgs run (e :: es) := by
  intro Γ s ts hok hM hts
  cases ts with
  | nil => cases hts
  | cons t ts =>
    obtain ⟨ht, hts⟩ := List.cons.inj hts
    simp only [Form.allOk, Bool.and_eq_true] at hok
    obtain ⟨r, s₁, h₁, hc⟩ := he hok.1 hM
    obtain ⟨rs, s₂, h₂, hM₂, hk₂, htys, hflat, hrun⟩ := hes hok.2 hc.ctx hts
    have hty := hc.ty t ht
    have hty' : HasTy s₁ t r.lval r := by
      rw [hty.lval]
      exact hty
    rw [Ctx.add_add] at hM₂
    refine ⟨r :: rs, s₂, ?_, hM₂, hc.ext.trans hk₂, .cons (hty'.mono hk₂.later) htys, ?_, ?_⟩
    · rw [Form.exprs, evalArgs, h₁]
      simp only [ok_bind, h₂]
    · intro hf
      rw [Form.allFlat, Bool.and_eq_true] at hf
      rw [hflat hf.2, hc.flat hf.1]
    · intro I fuel call hI hcalls σ c hat
      rw [Form.execArgs]
      refine .bind (hc.run (hI.of_extends hk₂) hcalls hat) hc.ext fun o σ₁ c₁ hat₁ hsame₁ hh => ?_
      have hrest := hrun hI hcalls hat₁
      rw [Ctx.add_add] at hrest
      refine Sim.bind hrest ?_
      rintro ⟨os, σ₂⟩ c₂ ⟨hat₂, hsame₂, hall⟩
      exact .ok ⟨hat₂, hsame₂, .cons ((hh t ht).same hty' hsame₂) hall⟩

/-- The loop of `lower_funcall` over arguments of integer types. -/
theorem lowerArgs_sound (room : Bool) {parms : List (String × IntTy)} (hs : Building s)
    (htys : HaveTys s ts rs) (hlen : parms.length = ts.length) :
    ∃ vs is, lowerArgs room (parms.map fun p => (p.1, p.2.rtt)) rs s = .ok (vs, s.emitAll is) ∧
      List.Forall₂ (fun p v => v.ty = .int p.2.width ∧ Known (s.emitAll is) v.ref) parms vs ∧
      ∀ {I : Image} {fuel : Nat} {Γ : Ctx} {σ : Store} {c : Config} {os : List Operand},
        I.Covers (s.emitAll is) → At I Γ s σ c → HoldAll c ts rs os →
        Follows I fuel s c (passArgs parms os σ) Γ (s.emitAll is) fun xs c' =>
          List.Forall₂ (fun v x => c'.m.read v = some x) vs xs ∧
            List.Forall₂ (fun p x => Fits p.2.width x) parms xs := by
  induction ts generalizing s rs parms with
  | nil =>
    cases htys
    cases parms with
    | cons p parms => cases hlen
    | nil =>
      refine ⟨[], [], by rw [List.map_nil, lowerArgs, St.emitAll_nil], .nil, ?_⟩
      intro I fuel Γ σ c os hI hat hall
      cases hall
      rw [St.emitAll_nil, passArgs]
      exact .ok (.refl hat ⟨.nil, .nil⟩)
  | cons t ts ih =>
    obtain _ | @⟨_, r, _, rs, hr, hrs⟩ := htys
    cases parms with
    | nil => cases hlen
    | cons p parms =>
      obtain ⟨r₁, is₁, hread, hty₁, hrun₁⟩ := prepareRead_sound hs hr
      have hk₁ : Extends s (s.emitAll is₁) := .emitAll hs is₁
      obtain ⟨r₂, is₂, hconv, hty₂, hrun₂⟩ := convertType_sound hk₁.building hty₁ p.2 0
      have hk₂ : Extends (s.emitAll is₁) ((s.emitAll is₁).emitAll is₂) := .emitAll hk₁.building is₂
      have hrs₂ : HaveTys _ ts rs := HaveTys.mono hrs (hk₁.trans hk₂).later
      obtain ⟨vs, is₃, hargs, hvs, hrun₃⟩ :=
        ih hk₂.building hrs₂ (Nat.succ.inj hlen)
      have hk₃ : Extends ((s.emitAll is₁).emitAll is₂) (((s.emitAll is₁).emitAll is₂).emitAll is₃) :=
        .emitAll hk₂.building is₃
      have hall : ((s.emitAll is₁).emitAll is₂).emitAll is₃ = s.emitAll (is₁ ++ is₂ ++ is₃) := by
        simp only [St.emitAll_emitAll, List.append_assoc]
      rw [hall] at hargs hvs hk₃ hrun₃
      refine ⟨r₂.v :: vs, _, ?_, .cons ⟨hty₂.ty, hk₃.known hty₂.known⟩ hvs, ?_⟩
      · rw [List.map_cons, lowerArgs, hread]
        simp only [ok_bind, hconv, hargs]
      · intro I fuel Γ σ c os hI hat hhold
        cases hhold with
        | cons hh hhs =>
          have hI₂ := hI.of_extends hk₃
          rw [passArgs]
          refine .bind (hrun₁ (hI₂.of_extends hk₂) hat hh) hk₁ ?_
          rintro x σ₁ c₁ hat₁ hsame₁ ⟨hx, hfit⟩
          refine .of_leads (hrun₂ hI₂ hat₁ hx hfit) hk₂ fun c₂ hat₂ hsame₂ hx₂ => ?_
          have hhs₂ := (hhs.same hrs hsame₁).same (HaveTys.mono hrs hk₁.later) hsame₂
          refine Sim.bind (hrun₃ hI hat₂ hhs₂) ?_
          rintro ⟨xs, σ₃⟩ c₃ ⟨hat₃, hsame₃, hxs, hfits⟩
          refine .ok ⟨hat₃, hsame₃, .cons ?_ hxs, .cons (fits_wrap _ _) hfits⟩
          rw [hsame₃.read hty₂.known, hx₂]

/-! ## The call -/

theorem requireFunction_fn (f : Fun) (s : St) :
    ∃ k lf, (s.requireFunction f).1.ref = .fn k ∧ (s.requireFunction f).2.fns[k]? = some lf ∧
      lf.name = some f.name := by
  unfold St.requireFunction St.getNamedFunction
  cases hfind : s.fns.findIdx? fun lf => lf.mod = s.mod ∧ lf.name = some f.name with
  | some i =>
    rw [if_neg (by rintro ⟨⟩)]
    obtain ⟨hlt, hi, -⟩ := List.findIdx?_eq_some_iff_getElem.1 hfind
    simp only [decide_eq_true_eq] at hi
    exact ⟨i, s.fns[i], rfl, List.getElem?_eq_getElem hlt, hi.2⟩
  | none =>
    rw [if_pos rfl]
    have hfree : (s.fns.any fun lf => lf.mod = s.mod ∧ lf.name = some f.name) = false := by
      rw [List.findIdx?_eq_none_iff] at hfind
      rw [List.any_eq_false]
      intro lf hlf
      simpa using hfind lf hlf
    refine ⟨s.fns.length, ⟨s.mod, some f.name, f.funtype⟩, rfl, ?_, rfl⟩
    simp only [St.addFunction, hfree, Bool.false_eq_true, if_false, List.getElem?_concat_length]

/-- What `requireFunction` leaves alone. -/
theorem requireFunction_frame (f : Fun) (s : St) :
    (s.requireFunction f).2.curfn = s.curfn ∧ (s.requireFunction f).2.here = s.here ∧
      (s.requireFunction f).2.block = s.block := by
  rcases eq_or_ne (s.getNamedFunction f.name) .null with hv | hv
  · rw [St.requireFunction, if_pos hv]
    exact ⟨rfl, rfl, rfl⟩
  · rw [St.requireFunction, if_neg hv]
    exact ⟨rfl, rfl, rfl⟩

theorem At.mem (h : At I Γ s σ c) : (⟨c.m.mem, c.next⟩ : Mem) = σ.mem := by
  rw [h.cells, h.next]

/-- A call of a function of the context. -/
theorem At.invoke {fn : Value} {args : List Value} {k : Nat} {lf : LFun} {xs : List Int}
    (h : At I Γ s σ c) (hs : Building s) (hI : I.Covers (s.emit (.call fn args)))
    (hcalls : CallsIn I Γ.funs fuel call) (hf : f ∈ Γ.funs) (hfn : fn.ref = .fn k)
    (hlf : s.fns[k]? = some lf) (hname : lf.name = some f.name)
    (hxs : List.Forall₂ (fun v x => c.m.read v = some x) args xs)
    (hfit : List.Forall₂ (fun p x => Fits p.2.width x) f.parms xs) :
    Follows I fuel s c
      (call f.name xs σ.mem >>= fun r => .ok (Operand.val r.1, { σ with mem := r.2 })) Γ
      (s.emit (.call fn args)) fun o c' => ∃ y, o = .val y ∧ c'.m.val (.inst s.here) = some y ∧
        ∀ t, f.ret = some t → Fits t.width y := by
  have hget : I.fns[k]? = some lf := by
    obtain ⟨rest, hrest⟩ := hI.fns
    have hlt : k < s.fns.length := (List.getElem?_eq_some_iff.1 hlf).1
    rw [← hrest]
    exact (List.getElem?_append_left hlt).trans hlf
  have hsim := hcalls f hf c fn args xs k lf (h.fetch hs hI) hfn hget hname hxs hfit
  rw [h.mem] at hsim
  refine Sim.bind (hsim.imp (fun _ _ hr => hr) fun _ _ hfalse => hfalse.elim) ?_
  rintro ⟨y, m⟩ c' ⟨rfl, hret⟩
  have hsame : Same s c ⟨c.pos.skip 1, c.prev, (⟨c.m.val, m.cells⟩ : Core).define c.pos y, m.next,
      c.stack⟩ := by
    refine ⟨rfl, fun z hz => if_neg ?_⟩
    rw [h.pos]
    exact hz.ne_here
  refine .ok ⟨h.emit hs hsame rfl rfl rfl rfl, hsame, y, rfl, ?_, hret⟩
  rw [← h.pos]
  exact if_pos rfl

theorem tys_of_all (h : ∀ e ∈ es, e.ty.isSome) : ∃ ts : List IntTy, es.map Form.ty = ts.map some := by
  induction es with
  | nil => exact ⟨[], rfl⟩
  | cons e es ih =>
    obtain ⟨t, ht⟩ := Option.isSome_iff_exists.1 (h e List.mem_cons_self)
    obtain ⟨ts, hts⟩ := ih fun e' he' => h e' (List.mem_cons_of_mem _ he')
    exact ⟨t :: ts, by rw [List.map_cons, List.map_cons, ht, hts]⟩

theorem no_null {parms : List (String × IntTy)} {vs : List Value}
    (h : List.Forall₂ (fun p v => v.ty = .int p.2.width ∧ Known s v.ref) parms vs) :
    vs.any (·.ty = .null) = false := by
  induction h with
  | nil => rfl
  | cons hv _ ih =>
    rw [List.any_cons, ih, hv.1]
    rfl

/-- `lower_funcall` on arguments of integer types. -/
theorem lowerFuncall_sound {v : Value} (hs : Building s) (htys : HaveTys s ts rs)
    (hlen : f.parms.length = ts.length) :
    ∃ vs is, lowerFuncall v f.fn rs s =
        .ok (⟨⟨.inst (s.emitAll is).here, f.fn.ret.l⟩, f.fn.ret.t, false⟩,
          (s.emitAll is).emit (.call v vs)) ∧
      ∀ {I : Image} {fuel : Nat} {Γ : Ctx} {σ : Store} {c : Config} {os : List Operand},
        I.Covers (s.emitAll is) → At I Γ s σ c → HoldAll c ts rs os →
        Follows I fuel s c (passArgs f.parms os σ) Γ (s.emitAll is) fun xs c' =>
          List.Forall₂ (fun v x => c'.m.read v = some x) vs xs ∧
            List.Forall₂ (fun p x => Fits p.2.width x) f.parms xs := by
  obtain ⟨vs, is, hargs, hvs, hrun⟩ := lowerArgs_sound (!f.fn.parms.isEmpty) hs htys hlen
  refine ⟨vs, is, ?_, hrun⟩
  have hlen' : rs.length = f.fn.parms.length := by
    have hrs := htys.length_eq
    simp only [Sig.fn, List.length_map]
    omega
  have hnull := no_null hvs
  have hva : f.fn.vaArgs = false := rfl
  simp only [lowerFuncall, hlen', hva]
  rw [show f.fn.parms = f.parms.map fun p => (p.1, p.2.rtt) from rfl] at hargs ⊢
  simp only [ne_eq, not_true_eq_false, false_and, if_false, Bool.false_eq_true, hargs, ok_bind,
    hnull]
  rfl

theorem call_sound (hes : SoundArgs run es) : Sound run (.call f es) := by
  intro Γ s hok hM
  simp only [Form.ok, Bool.and_eq_true, List.contains_iff_mem, List.all_eq_true,
    decide_eq_true_eq] at hok
  obtain ⟨⟨⟨hf, hoks⟩, hall⟩, hlen⟩ := hok
  obtain ⟨ts, hts⟩ := tys_of_all hall
  have hlen' : f.parms.length = ts.length := by
    have h := congrArg List.length hts
    rw [List.length_map, List.length_map] at h
    rw [← hlen, h]
  obtain ⟨k, lf, hfn, hlf, hname⟩ := requireFunction_fn f.fn s
  obtain ⟨hcurfn, hhere, hblock⟩ := requireFunction_frame f.fn s
  generalize hreq : s.requireFunction f.fn = req at hfn hlf hcurfn hhere hblock
  obtain ⟨fn, s₁⟩ := req
  have hk₁ : Extends s s₁ := by
    have hk := Extends.require hM.building f.fn
    rwa [hreq] at hk
  obtain ⟨rs, s₂, hargs, hM₂, hk₂, htys, hflat, hrun⟩ := hes hoks (hM.keep hk₁ hcurfn) hts
  obtain ⟨vs, is, hcall, hrun₃⟩ := lowerFuncall_sound (v := fn) hM₂.building htys hlen'
  have hk₃ : Extends s₂ (s₂.emitAll is) := .emitAll hM₂.building is
  have hs₃ := hk₃.building
  have hk₄ := emit_extends hs₃ (.call fn vs)
  have hadds : (Form.call f es).adds = Form.addsAll es := by rw [Form.adds]
  have hty : (Form.call f es).ty = f.ret := by rw [Form.ty]
  have hM₃ := hM₂.keep hk₃ rfl
  refine ⟨⟨⟨.inst (s₂.emitAll is).here, f.fn.ret.l⟩, f.fn.ret.t, false⟩, _, ?_,
    ⟨?_, ((hk₁.trans hk₂).trans hk₃).trans hk₄, ?_, fun _ => rfl, ?_, ?_⟩⟩
  · rw [Form.expr, eval, hM.funs f hf]
    simp only [hreq, hargs, ok_bind]
    exact hcall
  · simp only [Form.meaning, hadds]
    exact hM₃.keep hk₄ rfl
  · intro t ht
    simp only [Form.meaning, hty] at ht
    simp only [Sig.fn, ht, Option.map_some, Option.getD_some]
    exact ⟨rfl, rfl, rfl, known_here hs₃ _⟩
  · intro hfl
    rw [St.emit, St.block_emitAll, St.block_emitAll, hflat (by
      simpa [Form.meaning, Form.flat] using hfl), hblock]
  · intro I fuel call hI hcalls σ c hat
    simp only [Form.meaning, Form.exec, hadds, hty]
    have hI₃ := hI.of_extends hk₄
    have hI₂ := hI₃.of_extends hk₃
    refine .of_leads (P := fun _ => True) ⟨c, .refl c, hat.keep hk₁ hcurfn hhere, .refl s c, trivial⟩
      hk₁ fun c₁ hat₁ _ _ => ?_
    refine .bind (hrun hI₂ hcalls hat₁) hk₂ fun os σ₂ c₂ hat₂ hsame₂ hhold => ?_
    refine .bind (hrun₃ hI₃ hat₂ hhold) hk₃ ?_
    rintro xs σ₃ c₃ hat₃ hsame₃ ⟨hxs, hfit⟩
    have hlf₃ : (s₂.emitAll is).fns[k]? = some lf := by
      obtain ⟨rest, hrest⟩ := hk₂.fns_le
      have hlt : k < s₁.fns.length := (List.getElem?_eq_some_iff.1 hlf).1
      show s₂.fns[k]? = some lf
      rw [← hrest]
      exact (List.getElem?_append_left hlt).trans hlf
    refine (hat₃.invoke hs₃ hI hcalls hf hfn hlf₃ hname hxs hfit).imp ?_
    rintro o σ₄ c₄ - - ⟨y, rfl, hy, hret⟩ t ht
    exact ⟨rfl, hy, hret t ht⟩

end Dolorem.Programs
