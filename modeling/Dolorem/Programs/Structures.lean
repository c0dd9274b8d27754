import Dolorem.Programs.Blocks

/-!
# Control structures

`progn`, `scope`, `cond`, `while` and `if` compile to what the interpreter does,
given that their parts do.
-/

namespace Dolorem.Programs

open Codegen CodeGraph Words Interp

variable {run : Nat → Bool} {I : Image} {Γ Γ' : Ctx} {s s' s₁ s₂ : St} {σ σ' : Store}
variable {c c' c₁ : Config} {b b' fn n : Nat} {i : Instr} {t : IntTy} {r : Rtv} {x : Int}
variable {fuel : Nat} {call : Caller} {e f g : Form} {es : List Form}

/-! ## Sequences -/

def prognMeaning (es : List Form) : Meaning where
  adds := Form.addsAll es
  ty := Form.lastTy es
  lval := Form.lastLval es
  flat := Form.allFlat es
  exec addr call fuel σ := Form.execProgn addr call fuel es σ

def SoundProgn (run : Nat → Bool) (es : List Form) : Prop :=
  ∀ {Γ : Ctx} {s : St}, Form.allOk es Γ = true → Matches Γ s →
    ∃ r s', evalProgn run (Form.exprs es) s = .ok (r, s') ∧ Compiled Γ s (prognMeaning es) r s'

theorem nil_soundProgn (run : Nat → Bool) : SoundProgn run [] := by
  intro Γ s hok hM
  refine ⟨nullRtv, s, by rw [Form.exprs, evalProgn], ⟨hM, .refl hM.building, ?_, fun _ => rfl,
    fun _ => rfl, ?_⟩⟩
  · rintro t ⟨⟩
  · intro I fuel call hI hcalls σ c hat
    simp only [prognMeaning, Form.execProgn]
    refine .ok (.refl hat ?_)
    rintro t ⟨⟩

theorem cons_soundProgn (he : Sound run e) (hes : SoundProgn run es) : SoundProgn run (e :: es) := by
  intro Γ s hok hM
  simp only [Form.allOk, Bool.and_eq_true] at hok
  obtain ⟨r₁, s₁, h₁, hc₁⟩ := he hok.1 hM
  cases es with
  | nil =>
    have hmeaning : prognMeaning [e] = e.meaning := by
      simp only [prognMeaning, Form.meaning, Form.addsAll, Form.lastTy, Form.lastLval,
        Form.allFlat, List.nil_append, Bool.and_true, Form.execProgn]
    refine ⟨r₁, s₁, by rw [Form.exprs, Form.exprs, evalProgn, h₁], ?_⟩
    rw [hmeaning]
    exact hc₁
  | cons e' es =>
    obtain ⟨r₂, s₂, h₂, hc₂⟩ := hes hok.2 hc₁.ctx
    have hctx := hc₂.ctx
    rw [Ctx.add_add] at hctx
    refine ⟨r₂, s₂, ?_, ⟨hctx, hc₁.ext.trans hc₂.ext, hc₂.ty, hc₂.void, fun hf => ?_, ?_⟩⟩
    · rw [Form.exprs] at h₂
      rw [Form.exprs, Form.exprs, evalProgn, h₁]
      exact h₂
    · rw [prognMeaning, Form.allFlat, Bool.and_eq_true] at hf
      rw [hc₂.flat hf.2, hc₁.flat hf.1]
    · intro I fuel call hI hcalls σ c hat
      have hexec : (prognMeaning (e :: e' :: es)).exec I.addr call fuel σ =
          e.exec I.addr call fuel σ >>= fun p =>
            (prognMeaning (e' :: es)).exec I.addr call fuel p.2 := by
        simp only [prognMeaning]
        rw [Form.execProgn]
      rw [hexec]
      refine .bind (hc₁.run (hI.of_extends hc₂.ext) hcalls hat) hc₁.ext ?_
      intro o σ₁ c₁ hat₁ hsame₁ hh
      have hrun := hc₂.run hI hcalls hat₁
      rw [Ctx.add_add] at hrun
      exact hrun

theorem progn_sound (hes : SoundProgn run es) : Sound run (.progn es) := by
  intro Γ s hok hM
  rw [Form.ok] at hok
  obtain ⟨r, s', h, hc⟩ := hes hok hM
  have hmeaning : (Form.progn es).meaning = prognMeaning es := by
    simp only [prognMeaning, Form.meaning, Form.adds, Form.ty, Form.lval, Form.flat, Form.exec]
  exact ⟨r, s', by rw [Form.expr, eval, h], by rw [hmeaning]; exact hc⟩

/-- The innermost scope is left. -/
theorem popScope_extends {scopes : List (List FunVar)} (hscopes : s.curfn = some scopes)
    (hk : Extends { s with curfn := some ([] :: scopes) } s') :
    Extends s s'.popScope ∧ s'.popScope.curfn = s.curfn := by
  obtain ⟨new, hnew⟩ := hk.curfn
  have hcurfn : s'.popScope.curfn = s.curfn := by
    simp [St.popScope, hnew, hscopes]
  have hb := hk.building
  refine ⟨⟨⟨hb.bldr, hb.lt, hb.fn⟩, hk.grows, hk.owner, hk.fns, ?_, hk.outer⟩, hcurfn⟩
  rw [hcurfn]
  exact .refl _

theorem scope_sound (hes : SoundProgn run es) : Sound run (.scope es) := by
  intro Γ s hok hM
  rw [Form.ok] at hok
  obtain ⟨vs, rest, hscopes⟩ := hM.scopes
  have hs := hM.building
  have hM₀ : Matches Γ { s with curfn := some ([] :: vs :: rest) } := by
    refine ⟨⟨hs.bldr, hs.lt, hs.fn⟩, ⟨_, _, rfl⟩, ?_, hM.globals, hM.funs, hM.loop⟩
    have hslots := hM.slots
    rw [vars_of_scopes hscopes] at hslots
    rw [vars_of_scopes (s := { s with curfn := some ([] :: vs :: rest) }) rfl, List.nil_append]
    exact hslots.imp fun _ _ h => ⟨h.name, h.shape⟩
  obtain ⟨r, s', h, hc⟩ := hes hok hM₀
  obtain ⟨hk, hcurfn⟩ := popScope_extends hscopes hc.ext
  have hty : (Form.scope es).ty = Form.lastTy es := by rw [Form.ty]
  have hlval : (Form.scope es).lval = Form.lastLval es := by rw [Form.lval]
  have hadds : (Form.scope es).adds = [] := by rw [Form.adds]
  refine ⟨r, s'.popScope, ?_, ⟨?_, hk, ?_, ?_, ?_, ?_⟩⟩
  · rw [Form.expr, eval, hscopes]
    simp only [h, ok_bind]
  · simp only [Form.meaning, hadds]
    exact hM.keep hk hcurfn
  · intro t ht
    simp only [Form.meaning, hty, hlval] at ht ⊢
    have h := hc.ty t ht
    exact ⟨h.type, h.lval, h.ty, h.known⟩
  · intro ht
    exact hc.void (by simpa [Form.meaning, prognMeaning, hty] using ht)
  · intro hf
    exact hc.flat (by simpa [Form.meaning, prognMeaning, Form.flat] using hf)
  · intro I fuel call hI hcalls σ c hat
    simp only [Form.meaning, Form.exec, hadds, hty]
    have hvars : vars ({ s with curfn := some ([] :: vs :: rest) } : St) = vars s := by
      simp [vars, hscopes]
    have hat₀ : At I Γ { s with curfn := some ([] :: vs :: rest) } σ c := by
      refine ⟨hat.pos, hat.cells, hat.next, ?_, hat.globals⟩
      rw [hvars]
      exact hat.places.mono (fun x hx => hx) fun _ _ => rfl
    have hrun := hc.run ⟨hI.graph, hI.fns⟩ hcalls hat₀
    refine Sim.bind (Q := fun r' c' => At I Γ s'.popScope ⟨σ.env, r'.2.mem⟩ c' ∧ Same s c c' ∧
      ∀ t, Form.lastTy es = some t → Holds c' t r r'.1) (Sim.imp hrun ?_ ?_) ?_
    · rintro r' c' ⟨hat', hsame, hh⟩
      have hsame' : Same s c c' := ⟨hsame.stack, hsame.val⟩
      refine ⟨⟨hat'.pos, hat'.cells, hat'.next, ?_, hat'.globals⟩, hsame', hh⟩
      rw [vars_congr hcurfn]
      exact hat.places.mono (fun x => hk.known) fun v => hsame'.read
    · rintro ex c' ⟨hin, hsame, hex⟩
      exact ⟨hin, ⟨hsame.stack, hsame.val⟩, hex⟩
    · rintro r' c' ⟨hat', hsame, hh⟩
      exact .ok ⟨hat', hsame, hh⟩

/-! ## Conditions -/

theorem target_condBr {m : Core} {v : Value} (h : m.read v = some (wrap 1 x)) (a b : Nat) :
    m.target (.condBr v a b) = some (if truth x then a else b) := by
  have hone : ∀ z : BitVec 1, (BitVec.ofInt 1 z.toInt = 1#1) = (z.toInt ≠ 0) := by
    decide
  have htruth : (BitVec.ofInt 1 (wrap 1 x) = 1#1) = (truth x = true) := by
    rw [truth, decide_eq_true_eq]
    exact hone _
  simp only [Core.target, h, Option.map_some, htruth]

/-- A form and the conversion of its result to one bit. -/
theorem Sound.condition (h : Sound run e) (hok : e.ok Γ = true) (hM : Matches Γ s)
    (ht : e.ty = some t) :
    ∃ r₁ s₁ r s', eval run e.expr s = .ok (r₁, s₁) ∧ toCondition r₁ s₁ = .ok (r, s') ∧
      Matches (Γ.add e.adds) s' ∧ Extends s s' ∧ HasTy s' .bool false r ∧
      ∀ {I fuel call}, I.Covers s' → CallsIn I Γ.funs fuel call → ∀ {σ c}, At I Γ s σ c →
        Follows I fuel s c (e.value I.addr call fuel σ) (Γ.add e.adds) s' fun x c' =>
          c'.m.read r.v = some (wrap 1 x) := by
  obtain ⟨r₁, s₁, r₂, s₂, h₁, h₂, hM₂, hk₂, hty₂, -, hrun₂⟩ := h.operand hok hM ht
  obtain ⟨r, is, hconv, hty, hrun⟩ := convertType_sound hM₂.building hty₂ .bool 1
  have hk : Extends s₂ (s₂.emitAll is) := .emitAll hM₂.building is
  refine ⟨r₁, s₁, r, _, h₁, ?_, hM₂.keep hk rfl, hk₂.trans hk, hty, ?_⟩
  · unfold toCondition
    rw [h₂, ok_bind]
    show convertType r₂ IntTy.bool.rtt 1 s₂ >>= _ = _
    rw [hconv]
    rfl
  · intro I fuel call hI hcalls σ c hat
    have hbind : e.value I.addr call fuel σ =
        e.value I.addr call fuel σ >>= fun p => .ok (p.1, p.2) := by
      cases e.value I.addr call fuel σ <;> rfl
    rw [hbind]
    refine .bind (hrun₂ (hI.of_extends hk) hcalls hat) hk₂ ?_
    rintro x σ₁ c₁ hat₁ hsame₁ ⟨hx, hfx⟩
    exact .ok (hrun hI hat₁ hx hfx)

/-! ## Leaving a block -/

theorem Same.jump (s : St) (c : Config) (p : Pos) (n : Nat) :
    Same s c { c with pos := p, prev := n } :=
  ⟨rfl, fun _ _ => rfl⟩

theorem Image.Covers.of_jump (h : I.Covers ((s.emit i).position b)) (hs : Building s) :
    I.Covers (s.emit i) ∧ I.Covers s := by
  have hemit : I.Covers (s.emit i) := ⟨h.graph, h.fns⟩
  exact ⟨hemit, hemit.of_extends (emit_extends hs i)⟩

theorem Matches.jump (h : Matches Γ s) (i : Instr) (hb : b < s.graph.size) :
    Matches Γ ((s.emit i).position b) where
  building := ⟨rfl, by simpa [St.emit, St.emitAll, St.position, St.block] using hb, h.building.fn⟩
  scopes := h.scopes
  slots := h.slots.imp fun _ _ hp =>
    have hp' := hp.mono (emit_extends h.building i)
    ⟨hp'.name, hp'.shape⟩
  globals := h.globals
  funs := h.funs
  loop := h.loop

/-- A branch to the block where the code goes on. -/
theorem At.goto (h : At I Γ s σ c) (hs : Building s) (hI : I.Covers (s.emit i))
    (hi : c.m.target i = some b) : Reaches I.step c { c with pos := ⟨b, 0⟩, prev := s.block } :=
  .single (h.branch hs hI hi)

theorem At.enter (h : At I Γ s σ c) (hs : Building s) (i : Instr) (n : Nat)
    (hhere : ((s.emit i).position b).here = ⟨b, 0⟩) :
    At I Γ ((s.emit i).position b) σ { c with pos := ⟨b, 0⟩, prev := n } :=
  ⟨hhere.symm, h.cells, h.next,
    h.places.mono (fun _ => (emit_extends hs i).known) fun _ _ => rfl, h.globals⟩

/-! ## `cond` -/

theorem exec_cond (addr : String → Int) (σ : Store) :
    (Form.cond e f).exec addr call fuel σ =
      e.value addr call fuel σ >>= fun p =>
        if truth p.1 then
          f.exec addr call fuel p.2 >>= fun q =>
            .ok (.val (wrap 1 p.1), ⟨nowhere f.adds ++ p.2.env, q.2.mem⟩)
        else .ok (.val (wrap 1 p.1), ⟨nowhere f.adds ++ p.2.env, p.2.mem⟩) := by
  simp only [Form.exec, Form.value, bind_assoc]

theorem cond_sound (he : Sound run e) (hf : Sound run f) : Sound run (.cond e f) := by
  intro Γ s hok hM
  simp only [Form.ok, Bool.and_eq_true, Option.isSome_iff_exists] at hok
  obtain ⟨⟨hoke, hokf⟩, t, ht⟩ := hok
  obtain ⟨r₁, s₁, cb, s₂, h₁, h₂, hM₂, hk₂, hty₂, hrun₂⟩ := he.condition hoke hM ht
  obtain ⟨fn, hfn⟩ := Option.isSome_iff_exists.1 hM₂.building.fn
  have hs₂ := hM₂.building
  -- the body is compiled in the first of two blocks, what follows in the second
  have hk₃ := Extends.twoBlocks hs₂ hfn
  have hs₃ := hk₃.building
  have hsize₃ : (twoBlocks fn s₂).graph.size = s₂.graph.size + 2 := twoBlocks_size
  have hlt₃ : s₂.graph.size < (twoBlocks fn s₂).graph.size := by omega
  have hk₄ : Extends s₂ (guardStart fn cb.v s₂) := hk₃.jumpTo _ le_rfl hlt₃
  have hhere₄ : (guardStart fn cb.v s₂).here = ⟨s₂.graph.size, 0⟩ :=
    (twoBlocks_blank hs₂ fn (n := 0) (by decide)).jump hs₃ _
  obtain ⟨rb, s₅, hb, hcb⟩ := hf hokf (hM₂.keep hk₄ rfl)
  have hs₅ := hcb.ext.building
  have hblank : Blank s₅ (s₂.graph.size + 1) :=
    ((twoBlocks_blank hs₂ fn (n := 1) (by decide)).other hs₃ _ (Nat.succ_ne_self _)).extends_ hcb.ext
  have hk₆ : Extends s₂ ((s₅.emit (.br (s₂.graph.size + 1))).position (s₂.graph.size + 1)) :=
    (hk₄.trans hcb.ext).jumpTo _ (Nat.le_succ _) hblank.lt
  have hhere₆ := hblank.jump hs₅ (.br (s₂.graph.size + 1))
  have hM₆ := hcb.ctx.jump (.br (s₂.graph.size + 1)) hblank.lt
  have hM' := hM₆.hide
  rw [Ctx.add_add] at hM'
  refine ⟨cb, _, ?_, ⟨hM', hk₂.trans hk₆, ?_, fun _ => hty₂.lval, ?_, ?_⟩⟩
  · have hcur : ∀ cv s₁ cb s₂, eval run e.expr s = .ok (cv, s₁) → toCondition cv s₁ = .ok (cb, s₂) →
        s₂.curllvmfn = some fn := by
      intro cv s₁' cb' s₂' h₁' h₂'
      cases h₁.symm.trans h₁'
      cases h₂.symm.trans h₂'
      exact hfn
    rw [Form.expr, eval_cond hcur]
    simp only [h₁, h₂, ok_bind, condEnd, hb]
  · rintro u ⟨⟩
    exact hty₂.mono hk₆.later
  · rintro ⟨⟩
  · intro I fuel call hI hcalls σ c hat
    obtain ⟨hI₅', hI₅⟩ := hI.of_jump hs₅
    have hI₄ := hI₅.of_extends hcb.ext
    have hI₃ : I.Covers ((twoBlocks fn s₂).emit _) := ⟨hI₄.graph, hI₄.fns⟩
    simp only [Form.meaning]
    rw [exec_cond]
    refine .bind (hrun₂ (hI₄.of_extends hk₄) hcalls hat) hk₂ ?_
    intro x σ₁ c₁ hat₁ hsame₁ hx
    have hat₃ := hat₁.keep hk₃ rfl (twoBlocks_here hs₂)
    -- at the end of both ways
    have hend : ∀ {σ₂ : Store} {c' : Config}, Same s₂ c₁ c' → c'.pos = ⟨s₂.graph.size + 1, 0⟩ →
        c'.m.mem = σ₂.mem.cells → c'.next = σ₂.mem.next →
        At I (Γ.add (Form.hide f.adds ++ e.adds))
          ((s₅.emit (.br (s₂.graph.size + 1))).position (s₂.graph.size + 1))
          ⟨nowhere f.adds ++ σ₁.env, σ₂.mem⟩ c' ∧
        ∀ u, (Form.cond e f).ty = some u → Holds c' u cb (.val (wrap 1 x)) := by
      intro σ₂ c' hsame hpos hcells hnext
      constructor
      · have hjoin := hat₁.join hM₂ hk₆.later hM₆ hsame (hpos.trans hhere₆.symm) hcells hnext
        rwa [Ctx.add_add] at hjoin
      · rintro u ⟨⟩
        exact ⟨hty₂.lval, by rw [hsame.read hty₂.known, hx], fits_wrap _ _⟩
    cases hx' : truth x with
    | true =>
      have hgo : Reaches I.step c₁ { c₁ with pos := ⟨s₂.graph.size, 0⟩, prev := _ } :=
        hat₃.goto hs₃ hI₃ (by rw [target_condBr hx, hx', if_pos rfl])
      refine .of_leads (P := fun _ => True)
        ⟨_, hgo, hat₁.move hk₄ rfl hhere₄, .jump _ _ _ _, trivial⟩ hk₄ fun c₄ hat₄ hsame₄ _ => ?_
      refine .bind (hcb.run hI₅ hcalls hat₄) hcb.ext fun o σ₂ c₅ hat₅ hsame₅ _ => .ok ?_
      have hsame := (hsame₄.trans hk₄.later hsame₅).trans (hk₄.trans hcb.ext).later
        (.jump _ c₅ ⟨s₂.graph.size + 1, 0⟩ s₅.block)
      obtain ⟨hat₆, hh⟩ := hend hsame rfl hat₅.cells hat₅.next
      exact ⟨_, hat₅.goto hs₅ hI₅' rfl, hat₆, .jump _ _ _ _, hh⟩
    | false =>
      have hgo : Reaches I.step c₁ { c₁ with pos := ⟨s₂.graph.size + 1, 0⟩, prev := _ } :=
        hat₃.goto hs₃ hI₃ (by rw [target_condBr hx, hx', if_neg Bool.false_ne_true])
      obtain ⟨hat₆, hh⟩ := hend (.jump _ c₁ _ _) rfl hat₁.cells hat₁.next
      exact .ok ⟨_, hgo, hat₆, .jump _ _ _ _, hh⟩

end Dolorem.Programs
