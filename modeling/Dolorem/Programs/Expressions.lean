import Dolorem.Programs.Values

/-!
# Operators

`expect_same_number` brings the operands to one type, and the instruction of the
macro computes what `calculate` and `compare` say. Where `calculate` has no
result the machine is stuck.
-/

namespace Dolorem.Programs

open Codegen CodeGraph Words Interp

variable {run : Nat → Bool} {I : Image} {Γ : Ctx} {s s' : St} {σ : Store} {c : Config}
variable {t u : IntTy} {a b r : Rtv} {x y z : Int} {fuel : Nat} {call : Caller} {e f : Form}

theorem IntTy.join_width (t u : IntTy) : (t.join u).width = max t.width u.width := by
  unfold join
  split
  · next h => rw [max_eq_right h.le]
  · next h => rw [max_eq_left (Nat.not_lt.1 h)]

theorem convertOrCrash_sound (hs : Building s) (hr : HasTy s t false r) (u : IntTy) (flags : Nat) :
    ∃ r' is, convertOrCrash r u.rtt flags s = .ok (r', s.emitAll is) ∧
      HasTy (s.emitAll is) u false r' ∧
      ∀ {I Γ σ c x}, I.Covers (s.emitAll is) → At I Γ s σ c → c.m.read r.v = some x → Fits t.width x →
        Leads I s c Γ (s.emitAll is) σ fun c' => c'.m.read r'.v = some (wrap u.width x) := by
  obtain ⟨r', is, hconv, hty, hrun⟩ := convertType_sound hs hr u flags
  exact ⟨r', is, by rw [convertOrCrash, hconv]; rfl, hty, hrun⟩

theorem HasTy.rtt (h : HasTy s t false r) : (⟨r.v.ty, r.t⟩ : Rtt) = t.rtt := by
  rw [h.type, h.ty]
  rfl

theorem expectSameNumber_sound (hs : Building s) (ha : HasTy s t false a) (hb : HasTy s u false b) :
    ∃ a' b' t' is, expectSameNumber a b s = .ok ((a', b'), s.emitAll is) ∧
      HasTy (s.emitAll is) (t.join u) false a' ∧ HasTy (s.emitAll is) t' false b' ∧
      t'.width = (t.join u).width ∧
      ∀ {I Γ σ c x y}, I.Covers (s.emitAll is) → At I Γ s σ c →
        c.m.read a.v = some x → Fits t.width x → c.m.read b.v = some y → Fits u.width y →
        Leads I s c Γ (s.emitAll is) σ fun c' =>
          c'.m.read a'.v = some x ∧ c'.m.read b'.v = some y := by
  unfold expectSameNumber IntTy.join
  simp only [ha.type, hb.type]
  rcases Nat.lt_trichotomy t.width u.width with h | h | h
  · obtain ⟨a', is, hconv, hty, hrun⟩ := convertOrCrash_sound hs ha u 0
    have hk : Extends s (s.emitAll is) := .emitAll hs is
    refine ⟨a', b, u, is, ?_, by rw [if_pos h]; exact hty, hb.mono hk.later, by rw [if_pos h], ?_⟩
    · rw [if_neg h.ne, if_pos h, ← hb.type, hb.rtt, hconv]
      rfl
    · intro I Γ σ c x y hI hat hx hfx hy hfy
      refine (hrun hI hat hx hfx).imp fun c' _ hsame hx' => ⟨?_, ?_⟩
      · rw [hx', hfx.mono h.le]
      · rw [hsame.read hb.known, hy]
  · refine ⟨a, b, u, [], by rw [if_pos h, St.emitAll_nil], ?_, ?_, ?_, ?_⟩
    · rw [if_neg h.not_lt, St.emitAll_nil]
      exact ha
    · rw [St.emitAll_nil]
      exact hb
    · rw [if_neg h.not_lt, h]
    · intro I Γ σ c x y hI hat hx hfx hy hfy
      rw [St.emitAll_nil]
      exact .refl hat ⟨hx, hy⟩
  · obtain ⟨b', is, hconv, hty, hrun⟩ := convertOrCrash_sound hs hb t 0
    have hk : Extends s (s.emitAll is) := .emitAll hs is
    refine ⟨a, b', t, is, ?_, by rw [if_neg h.not_gt]; exact ha.mono hk.later, hty,
      by rw [if_neg h.not_gt], ?_⟩
    · rw [if_neg h.ne', if_neg h.not_gt, ← ha.type, ha.rtt, hconv]
      rfl
    · intro I Γ σ c x y hI hat hx hfx hy hfy
      refine (hrun hI hat hy hfy).imp fun c' _ hsame hy' => ⟨?_, ?_⟩
      · rw [hsame.read ha.known, hx]
      · rw [hy', hfy.mono h.le]

/-- Both operands of a macro of `arithmetic-op` or `comparison-op`. -/
theorem operands_sound (he : Sound run e) (hf : Sound run f) (hoke : e.ok Γ = true)
    (hokf : f.ok (Γ.add e.adds) = true) (hM : Matches Γ s) (ht : e.ty = some t)
    (hu : f.ty = some u) :
    ∃ r₁ s₁ r₂ s₂ r₃ s₃ r₄ s₄ a b t' s₅,
      eval run e.expr s = .ok (r₁, s₁) ∧ prepareRead r₁ s₁ = .ok (r₂, s₂) ∧
      eval run f.expr s₂ = .ok (r₃, s₃) ∧ prepareRead r₃ s₃ = .ok (r₄, s₄) ∧
      expectSameNumber r₂ r₄ s₄ = .ok ((a, b), s₅) ∧
      Matches (Γ.add (f.adds ++ e.adds)) s₅ ∧ Extends s s₅ ∧ HasTy s₅ (t.join u) false a ∧
      HasTy s₅ t' false b ∧ t'.width = (t.join u).width ∧
      (e.flat = true → f.flat = true → s₅.block = s.block) ∧
      ∀ {I fuel call}, I.Covers s₅ → CallsIn I Γ.funs fuel call → ∀ {σ c}, At I Γ s σ c →
        Follows I fuel s c
          (e.value I.addr call fuel σ >>= fun p => f.value I.addr call fuel p.2 >>= fun q =>
            .ok ((p.1, q.1), q.2)) (Γ.add (f.adds ++ e.adds)) s₅ fun xy c' =>
          c'.m.read a.v = some xy.1 ∧ c'.m.read b.v = some xy.2 ∧ Fits (t.join u).width xy.1 ∧
            Fits (t.join u).width xy.2 := by
  obtain ⟨r₁, s₁, r₂, s₂, h₁, h₂, hM₂, hk₂, hty₂, hflat₂, hrun₂⟩ := he.operand hoke hM ht
  obtain ⟨r₃, s₃, r₄, s₄, h₃, h₄, hM₄, hk₄, hty₄, hflat₄, hrun₄⟩ := hf.operand hokf hM₂ hu
  obtain ⟨a, b, t', is, hsame, hta, htb, hwidth, hrun⟩ :=
    expectSameNumber_sound hM₄.building (hty₂.mono hk₄.later) hty₄
  have hk : Extends s₄ (s₄.emitAll is) := .emitAll hM₄.building is
  have hM₅ := hM₄.keep hk rfl
  rw [Ctx.add_add] at hM₅
  refine ⟨r₁, s₁, r₂, s₂, r₃, s₃, r₄, s₄, a, b, t', _, h₁, h₂, h₃, h₄, hsame, hM₅,
    (hk₂.trans hk₄).trans hk, hta, htb, hwidth, fun hfe hff => ?_, ?_⟩
  · rw [St.block_emitAll, hflat₄ hff, hflat₂ hfe]
  · intro I fuel call hI hcalls σ c hat
    have hI₄ := hI.of_extends hk
    refine .bind (hrun₂ (hI₄.of_extends hk₄) hcalls hat) hk₂ ?_
    rintro x σ₁ c₁ hat₁ hsame₁ ⟨hx, hfx⟩
    refine .bind (hrun₄ hI₄ hcalls hat₁) hk₄ ?_
    rintro y σ₂ c₂ hat₂ hsame₂ ⟨hy, hfy⟩
    rw [Ctx.add_add] at hat₂
    have hx₂ : c₂.m.read r₂.v = some x := by rw [hsame₂.read hty₂.known, hx]
    refine .ok ((hrun hI hat₂ hx₂ hfx hy hfy).imp ?_)
    rintro c₃ - - ⟨hx₃, hy₃⟩
    rw [IntTy.join_width]
    exact ⟨hx₃, hy₃, hfx.mono (le_max_left _ _), hfy.mono (le_max_right _ _)⟩

theorem exec_arith (addr : String → Int) (op : ArithOp) (ht : e.ty = some t) (hu : f.ty = some u)
    (σ : Store) :
    (Form.arith op e f).exec addr call fuel σ =
      (e.value addr call fuel σ >>= fun p => f.value addr call fuel p.2 >>= fun q =>
        .ok ((p.1, q.1), q.2)) >>= fun r =>
          match calculate op (t.join u).width r.1.1 r.1.2 with
          | some z => .ok (.val z, r.2)
          | none => .error .wrong := by
  have hty : (Form.arith op e f).ty = some (t.join u) := by simp [Form.ty, ht, hu]
  simp only [Form.exec, Form.value, bind_assoc, hty]
  rfl

theorem arith_sound (op : ArithOp) (he : Sound run e) (hf : Sound run f) :
    Sound run (.arith op e f) := by
  intro Γ s hok hM
  simp only [Form.ok, Bool.and_eq_true, Option.isSome_iff_exists] at hok
  obtain ⟨⟨⟨hoke, hokf⟩, t, ht⟩, u, hu⟩ := hok
  have hty : (Form.arith op e f).ty = some (t.join u) := by simp [Form.ty, ht, hu]
  obtain ⟨r₁, s₁, r₂, s₂, r₃, s₃, r₄, s₄, a, b, t', s₅, h₁, h₂, h₃, h₄, h₅, hM₅, hk₅, hta, htb, hw,
    hflat, hrun⟩ := operands_sound he hf hoke hokf hM ht hu
  have hs₅ := hM₅.building
  have hk : Extends s₅ (s₅.emit (.bin op.int a.v b.v)) := emit_extends hs₅ _
  have hl : a.v.ty = .int (t.join u).width := hta.ty
  refine ⟨{ a with v := ⟨.inst s₅.here, a.v.ty⟩ }, _, ?_, ⟨hM₅.keep hk rfl,
    hk₅.trans hk, ?_, fun _ => hta.lval, ?_, ?_⟩⟩
  · simp only [Form.expr, eval, h₁, h₂, h₃, h₄, h₅, ok_bind, buildArith, hta.type, Ty.isInt,
      if_true]
    rfl
  · intro t₁ ht₁
    cases hty.symm.trans ht₁
    exact ⟨hta.type, hta.lval, hl, known_here hs₅ _⟩
  · intro hf
    simp only [Form.meaning, Form.flat, Bool.and_eq_true] at hf
    rw [St.emit, St.block_emitAll, hflat hf.1 hf.2]
  · intro I fuel call hI hcalls σ c hat
    simp only [Form.meaning]
    rw [exec_arith I.addr op ht hu]
    refine .bind (hrun (hI.of_extends hk) hcalls hat) hk₅ ?_
    rintro ⟨x, y⟩ σ₁ c₁ hat₁ hsame₁ ⟨hx, hy, hfx, hfy⟩
    have hbin := runBin_int op hfx hfy
    -- the instruction has a result when `calculate` has one
    have hperform : perform c₁.m c₁.pos (.bin op.int a.v b.v) =
        (calculate op (t.join u).width x y).map (c₁.m.define c₁.pos) := by
      rw [← hbin, Option.map_map]
      simp only [perform, hl, hx, hy, Option.bind_eq_bind, Option.bind_some]
      cases runBin op.int (BitVec.ofInt (t.join u).width x) (BitVec.ofInt (t.join u).width y) <;> rfl
    cases hz : calculate op (t.join u).width x y with
    | none =>
      rw [hz] at hperform
      exact ⟨c₁, .refl c₁,
        stuck_of_perform (hat₁.fetch hs₅ hI) (.inr ⟨_, _, _, rfl⟩) hperform⟩
    | some z =>
      rw [hz] at hperform
      refine .ok ((hat₁.define hs₅ hI hperform).imp ?_)
      intro c₂ _ _ hval t₁ ht₁
      cases hty.symm.trans ht₁
      exact ⟨hta.lval, hval, fits_calculate hfx hfy hz⟩

theorem exec_cmp (addr : String → Int) (op : CmpOp) (σ : Store) :
    (Form.cmp op e f).exec addr call fuel σ =
      (e.value addr call fuel σ >>= fun p => f.value addr call fuel p.2 >>= fun q =>
        .ok ((p.1, q.1), q.2)) >>= fun r => .ok (.val (bit (compare op r.1.1 r.1.2)), r.2) := by
  simp only [Form.exec, Form.value, bind_assoc]
  rfl

theorem cmp_sound (op : CmpOp) (he : Sound run e) (hf : Sound run f) : Sound run (.cmp op e f) := by
  intro Γ s hok hM
  simp only [Form.ok, Bool.and_eq_true, Option.isSome_iff_exists] at hok
  obtain ⟨⟨⟨hoke, hokf⟩, t, ht⟩, u, hu⟩ := hok
  obtain ⟨r₁, s₁, r₂, s₂, r₃, s₃, r₄, s₄, a, b, t', s₅, h₁, h₂, h₃, h₄, h₅, hM₅, hk₅, hta, htb, hw,
    hflat, hrun⟩ := operands_sound he hf hoke hokf hM ht hu
  have hs₅ := hM₅.building
  have hk : Extends s₅ (s₅.emit (.icmp op.preds.1 a.v b.v)) := emit_extends hs₅ _
  have hl : a.v.ty = .int (t.join u).width := hta.ty
  refine ⟨⟨⟨.inst s₅.here, .int 1⟩, (lowerIntegerType 1 false).t, false⟩, _, ?_,
    ⟨hM₅.keep hk rfl, hk₅.trans hk, ?_, fun _ => rfl, ?_, ?_⟩⟩
  · simp only [Form.expr, eval, h₁, h₂, h₃, h₄, h₅, ok_bind, buildCmp, hta.type, Ty.isInt,
      if_true]
    rfl
  · rintro t₁ ⟨⟩
    exact ⟨rfl, rfl, rfl, known_here hs₅ _⟩
  · intro hf
    simp only [Form.meaning, Form.flat, Bool.and_eq_true] at hf
    rw [St.emit, St.block_emitAll, hflat hf.1 hf.2]
  · intro I fuel call hI hcalls σ c hat
    simp only [Form.meaning]
    rw [exec_cmp I.addr op]
    refine .bind (hrun (hI.of_extends hk) hcalls hat) hk₅ ?_
    rintro ⟨x, y⟩ σ₁ c₁ hat₁ hsame₁ ⟨hx, hy, hfx, hfy⟩
    have hperform : perform c₁.m c₁.pos (.icmp op.preds.1 a.v b.v) =
        some (c₁.m.define c₁.pos (bit (compare op x y))) := by
      simp only [perform, hl, hx, hy, Option.bind_eq_bind, Option.bind_some,
        runPred_int op hfx hfy]
    refine .ok ((hat₁.define hs₅ hI hperform).imp ?_)
    rintro c₂ - - hval t₁ ⟨⟩
    exact ⟨rfl, hval, fits_bit _⟩

theorem not_sound (he : Sound run e) : Sound run (.not e) := by
  intro Γ s hok hM
  simp only [Form.ok, Bool.and_eq_true, Option.isSome_iff_exists] at hok
  obtain ⟨hok, t, ht⟩ := hok
  obtain ⟨r₁, s₁, r₂, s₂, h₁, h₂, hM₂, hk₂, hty₂, hflat₂, hrun₂⟩ := he.operand hok hM ht
  have hs₂ := hM₂.building
  have hk : Extends s₂ (s₂.emit (.not r₂.v)) := emit_extends hs₂ _
  have hl : r₂.v.ty = .int t.width := hty₂.ty
  refine ⟨{ r₂ with v := ⟨.inst s₂.here, r₂.v.ty⟩ }, _, ?_,
    ⟨hM₂.keep hk rfl, hk₂.trans hk, ?_, fun _ => hty₂.lval, ?_, ?_⟩⟩
  · simp only [Form.expr, eval, h₁, h₂, ok_bind]
    rfl
  · intro t₁ ht₁
    cases ht.symm.trans ht₁
    exact ⟨hty₂.type, hty₂.lval, hl, known_here hs₂ _⟩
  · intro hf
    rw [St.emit, St.block_emitAll, hflat₂ (by simpa [Form.meaning, Form.flat] using hf)]
  · intro I fuel call hI hcalls σ c hat
    have hexec : (Form.not e).exec I.addr call fuel σ =
        e.value I.addr call fuel σ >>= fun p => .ok (.val (wrap t.width (-1 - p.1)), p.2) := by
      simp only [Form.exec, Form.value, bind_assoc, ht]
      rfl
    simp only [Form.meaning]
    rw [hexec]
    refine .bind (hrun₂ (hI.of_extends hk) hcalls hat) hk₂ ?_
    rintro x σ₁ c₁ hat₁ hsame₁ ⟨hx, hfx⟩
    have hperform : perform c₁.m c₁.pos (.not r₂.v) =
        some (c₁.m.define c₁.pos (wrap t.width (-1 - x))) := by
      simp only [perform, hl, hx, Option.bind_eq_bind, Option.bind_some, toInt_not hfx]
    refine .ok ((hat₁.define hs₂ hI hperform).imp ?_)
    intro c₂ _ _ hval t₁ ht₁
    cases ht.symm.trans ht₁
    exact ⟨hty₂.lval, hval, fits_wrap _ _⟩

end Dolorem.Programs
