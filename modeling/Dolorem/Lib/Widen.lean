import Mathlib.Data.Int.ModEq

/-!
# Widening integers of fixed width

The same bits are read as an integer with or without a sign. Modulo the width
of the bits the two readings agree, and a sum, difference or product of them
does not tell them apart. Modulo a larger power of two it does, unless the sign
bit is clear or the other factor makes up for the difference: `left_iff`,
`right_iff`.
-/

namespace Widen

inductive RingOp where
  | add
  | sub
  | mul
deriving DecidableEq, Repr

def RingOp.eval : RingOp → Int → Int → Int
  | add, x, y => x + y
  | sub, x, y => x - y
  | mul, x, y => x * y

/-- The integer that the bits `n` stand for. -/
def reading {w : Nat} (signed : Bool) (n : BitVec w) : Int := if signed then n.toInt else n.toNat

variable {w w' : Nat} {op : RingOp} {signed : Bool} {n : BitVec w} {x x' y y' : Int}

theorem ofInt_eq_iff (w : Nat) (x y : Int) :
    BitVec.ofInt w x = BitVec.ofInt w y ↔ x ≡ y [ZMOD (2 ^ w : Nat)] := by
  have hpos : ((2 ^ w : Nat) : Int) ≠ 0 := Int.natCast_ne_zero.2 (Nat.two_pow_pos w).ne'
  constructor
  · intro h
    have hnat := congrArg BitVec.toNat h
    rw [BitVec.toNat_ofInt, BitVec.toNat_ofInt] at hnat
    have hint := congrArg Int.ofNat hnat
    rwa [Int.ofNat_eq_natCast, Int.ofNat_eq_natCast, Int.toNat_of_nonneg (Int.emod_nonneg _ hpos),
      Int.toNat_of_nonneg (Int.emod_nonneg _ hpos)] at hint
  · intro h
    apply BitVec.eq_of_toNat_eq
    rw [BitVec.toNat_ofInt, BitVec.toNat_ofInt, h]

/-- Operations do not depend on the representatives of their operands. -/
theorem RingOp.eval_modEq (op : RingOp) {N : Int} (hx : x ≡ x' [ZMOD N]) (hy : y ≡ y' [ZMOD N]) :
    op.eval x y ≡ op.eval x' y' [ZMOD N] := by
  cases op with
  | add => exact hx.add hy
  | sub => exact hx.sub hy
  | mul => exact hx.mul hy

/-- How far the two readings are apart. -/
theorem reading_sub (signed : Bool) (n : BitVec w) :
    reading signed n - n.toInt =
      if signed = true ∨ 2 * n.toNat < 2 ^ w then 0 else ((2 ^ w : Nat) : Int) := by
  unfold reading
  rw [BitVec.toInt_eq_toNat_cond]
  cases signed with
  | true => simp
  | false =>
    by_cases h : 2 * n.toNat < 2 ^ w
    · simp [h]
    · simp [h]

theorem toInt_modEq_reading (signed : Bool) (n : BitVec w) :
    n.toInt ≡ reading signed n [ZMOD (2 ^ w : Nat)] := by
  rw [Int.modEq_iff_dvd, reading_sub]
  split
  · exact dvd_zero _
  · exact dvd_rfl

/-- The reading with the sign may be used for `n` next to `y`, modulo `2 ^ W`. -/
def Suits (op : RingOp) (signed : Bool) (n : BitVec w) (W : Nat) (y : Int) : Prop :=
  W ≤ w ∨ signed = true ∨ 2 * n.toNat < 2 ^ w ∨ op = .mul ∧ ((2 ^ (W - w) : Nat) : Int) ∣ y

/-- What a difference of one operand is multiplied by. -/
def RingOp.factor : RingOp → Int → Int
  | mul, y => y
  | _, _ => 1

theorem eval_sub_left (op : RingOp) (x x' y : Int) :
    op.eval x' y - op.eval x y = (x' - x) * op.factor y := by
  cases op with
  | add =>
    show x' + y - (x + y) = (x' - x) * 1
    rw [add_sub_add_right_eq_sub, mul_one]
  | sub =>
    show x' - y - (x - y) = (x' - x) * 1
    rw [sub_sub_sub_cancel_right, mul_one]
  | mul => exact (sub_mul x' x y).symm

theorem eval_sub_right (op : RingOp) (x y y' : Int) :
    op.eval x y' - op.eval x y = (y' - y) * op.factor x ∨
      op.eval x y' - op.eval x y = -((y' - y) * op.factor x) := by
  cases op with
  | add =>
    left
    show x + y' - (x + y) = (y' - y) * 1
    rw [add_sub_add_left_eq_sub, mul_one]
  | sub =>
    right
    show x - y' - (x - y) = -((y' - y) * 1)
    rw [sub_sub_sub_cancel_left, mul_one, neg_sub]
  | mul =>
    left
    show x * y' - x * y = (y' - y) * x
    rw [← mul_sub, mul_comm]

/-- The difference of the readings vanishes modulo `2 ^ W`. -/
theorem dvd_reading_sub (op : RingOp) (signed : Bool) (n : BitVec w) (W : Nat) (y : Int) :
    ((2 ^ W : Nat) : Int) ∣ (reading signed n - n.toInt) * op.factor y ↔ Suits op signed n W y := by
  rw [reading_sub]
  unfold Suits
  split
  · next h =>
    rw [zero_mul]
    exact iff_of_true (dvd_zero _) (.inr (h.imp id .inl))
  · next h =>
    obtain ⟨hs, hn⟩ := not_or.1 h
    rw [or_iff_right hs, or_iff_right hn]
    rcases Nat.le_total W w with hle | hle
    · refine iff_of_true ?_ (.inl hle)
      exact Dvd.dvd.mul_right (Int.natCast_dvd_natCast.2 (Nat.pow_dvd_pow 2 hle)) _
    · have hpow : ((2 ^ W : Nat) : Int) = (2 ^ w : Nat) * (2 ^ (W - w) : Nat) := by
        rw [← Int.natCast_mul, ← Nat.pow_add, Nat.add_sub_cancel' hle]
      rw [hpow, mul_dvd_mul_iff_left (Int.natCast_ne_zero.2 (Nat.two_pow_pos w).ne')]
      have hone : ((2 ^ (W - w) : Nat) : Int) ∣ 1 ↔ W ≤ w := by
        rw [← Nat.cast_one, Int.natCast_dvd_natCast, Nat.dvd_one, Nat.pow_eq_one]
        constructor
        · rintro (h | h)
          · exact absurd h (by decide)
          · exact Nat.sub_eq_zero_iff_le.1 h
        · exact fun h => .inr (Nat.sub_eq_zero_of_le h)
      cases op with
      | mul =>
        show ((2 ^ (W - w) : Nat) : Int) ∣ y ↔ _
        constructor
        · exact fun h => .inr ⟨rfl, h⟩
        · rintro (h | h)
          · exact (hone.2 h).trans (one_dvd y)
          · exact h.2
      | _ => exact hone.trans ⟨.inl, fun h => h.resolve_right fun h => nomatch h.1⟩

theorem left_iff (op : RingOp) (signed : Bool) (n : BitVec w) (W : Nat) (y : Int) :
    op.eval n.toInt y ≡ op.eval (reading signed n) y [ZMOD (2 ^ W : Nat)] ↔
      Suits op signed n W y := by
  rw [Int.modEq_iff_dvd, eval_sub_left, dvd_reading_sub]

theorem right_iff (op : RingOp) (signed : Bool) (n : BitVec w) (W : Nat) (y : Int) :
    op.eval y n.toInt ≡ op.eval y (reading signed n) [ZMOD (2 ^ W : Nat)] ↔
      Suits op signed n W y := by
  rw [Int.modEq_iff_dvd, ← dvd_reading_sub]
  rcases eval_sub_right op y n.toInt (reading signed n) with h | h
  · rw [h]
  · rw [h, Int.dvd_neg]

theorem suits_congr {W : Nat} (h : y ≡ y' [ZMOD (2 ^ W : Nat)]) :
    Suits op signed n W y ↔ Suits op signed n W y' := by
  have hdvd : ((2 ^ (W - w) : Nat) : Int) ∣ y ↔ ((2 ^ (W - w) : Nat) : Int) ∣ y' := by
    exact (h.of_dvd (Int.natCast_dvd_natCast.2 (Nat.pow_dvd_pow 2 (Nat.sub_le W w)))).dvd_iff
  unfold Suits
  rw [hdvd]

/-- Two operands that are widened to the width of the wider one with their sign are right when
each may be read so next to the other. -/
theorem eval_iff (op : RingOp) (signed signed' : Bool) (n : BitVec w) (k : BitVec w') :
    BitVec.ofInt (max w w') (op.eval n.toInt k.toInt) =
        BitVec.ofInt (max w w') (op.eval (reading signed n) (reading signed' k)) ↔
      Suits op signed n (max w w') k.toNat ∧ Suits op signed' k (max w w') n.toNat := by
  rw [ofInt_eq_iff]
  have hnat : ∀ {w : Nat} (n : BitVec w), n.toInt ≡ n.toNat [ZMOD (2 ^ w : Nat)] :=
    fun n => toInt_modEq_reading false n
  rcases Nat.le_total w w' with h | h
  · rw [max_eq_right h]
    have hk : Suits op signed' k w' n.toNat := .inl le_rfl
    rw [and_iff_left hk, ← suits_congr (hnat k), ← left_iff]
    have hright := op.eval_modEq (Int.ModEq.refl (reading signed n)) (toInt_modEq_reading signed' k)
    exact ⟨fun h => h.trans hright.symm, fun h => h.trans hright⟩
  · rw [max_eq_left h]
    have hn : Suits op signed n w k.toNat := .inl le_rfl
    rw [and_iff_right hn, ← suits_congr (hnat n), ← right_iff]
    have hleft := op.eval_modEq (toInt_modEq_reading signed n) (Int.ModEq.refl (reading signed' k))
    exact ⟨fun h => h.trans hleft.symm, fun h => h.trans hleft⟩

end Widen
