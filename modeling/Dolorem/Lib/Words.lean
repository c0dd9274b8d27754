import Dolorem.Lib.Widen

/-!
# Words as signed integers

A word of `w` bits is represented by the integer it stands for when it has a
sign: `wrap w x` is the representative of `x`, and `Fits w x` says that `x` is
one. The operations on words are the exact operations on these integers,
followed by `wrap`; division is the one whose exact result need not fit.
-/

namespace Words

def wrap (w : Nat) (x : Int) : Int := (BitVec.ofInt w x).toInt

/-- `x` is the integer some word of `w` bits stands for. -/
def Fits (w : Nat) (x : Int) : Prop := wrap w x = x

instance (w : Nat) (x : Int) : Decidable (Fits w x) := inferInstanceAs (Decidable (wrap w x = x))

variable {w w' : Nat} {x y : Int}

theorem fits_toInt (b : BitVec w) : Fits w b.toInt := by
  unfold Fits wrap
  rw [BitVec.ofInt_toInt]

theorem fits_wrap (w : Nat) (x : Int) : Fits w (wrap w x) := fits_toInt _

theorem wrap_eq_bmod (w : Nat) (x : Int) : wrap w x = x.bmod (2 ^ w) := BitVec.toInt_ofInt x

/-- Words may be widened with their sign. -/
theorem Fits.mono (h : Fits w x) (hw : w ≤ w') : Fits w' x := by
  have hsign := BitVec.toInt_signExtend_of_le (x := BitVec.ofInt w x) hw
  have hx : (BitVec.ofInt w x).toInt = x := h
  rw [hx] at hsign
  rw [← hsign]
  exact fits_toInt _

/-- Extending the sign or truncating. -/
theorem toInt_signExtend (h : Fits w x) (w' : Nat) :
    ((BitVec.ofInt w x).signExtend w').toInt = wrap w' x := by
  show wrap w' (wrap w x) = wrap w' x
  rw [h]

theorem toInt_add (w : Nat) (x y : Int) :
    (BitVec.ofInt w x + BitVec.ofInt w y).toInt = wrap w (x + y) := by
  rw [← BitVec.ofInt_add]
  rfl

theorem toInt_mul (w : Nat) (x y : Int) :
    (BitVec.ofInt w x * BitVec.ofInt w y).toInt = wrap w (x * y) := by
  rw [← BitVec.ofInt_mul]
  rfl

theorem toInt_sub (hx : Fits w x) (hy : Fits w y) :
    (BitVec.ofInt w x - BitVec.ofInt w y).toInt = wrap w (x - y) := by
  have hx : (BitVec.ofInt w x).toInt = x := hx
  have hy : (BitVec.ofInt w y).toInt = y := hy
  rw [BitVec.toInt_sub, hx, hy, wrap_eq_bmod]

theorem wrap_congr (h : x ≡ y [ZMOD (2 ^ w : Nat)]) : wrap w x = wrap w y :=
  congrArg BitVec.toInt ((Widen.ofInt_eq_iff w x y).2 h)

theorem toNat_modEq (b : BitVec w) : (b.toNat : Int) ≡ b.toInt [ZMOD (2 ^ w : Nat)] :=
  (Widen.toInt_modEq_reading false b).symm

theorem toInt_not (hx : Fits w x) : (~~~ BitVec.ofInt w x).toInt = wrap w (-1 - x) := by
  have hx : (BitVec.ofInt w x).toInt = x := hx
  have hnat := toNat_modEq (BitVec.ofInt w x)
  rw [hx] at hnat
  have hpow : ((2 ^ w : Nat) : Int) - 1 ≡ -1 [ZMOD (2 ^ w : Nat)] := by
    rw [Int.modEq_iff_dvd]
    exact ⟨-1, by omega⟩
  rw [BitVec.toInt_not, ← wrap_eq_bmod]
  refine wrap_congr ?_
  exact_mod_cast hpow.sub hnat

/-! ## Division -/

/-- The quotient of two words is a word unless the smallest word is divided by
minus one. -/
theorem fits_tdiv_iff (hx : Fits w x) (hy : Fits w y) (hy0 : y ≠ 0) :
    Fits w (x.tdiv y) ↔
      BitVec.ofInt w x ≠ BitVec.intMin w ∨ BitVec.ofInt w y ≠ -1#w := by
  have hx' : (BitVec.ofInt w x).toInt = x := hx
  have hy' : (BitVec.ofInt w y).toInt = y := hy
  constructor
  · intro h
    by_contra hmin
    obtain ⟨hmin, hone⟩ := not_or.1 hmin
    rw [not_not] at hmin hone
    rw [hmin] at hx'
    rw [hone] at hy'
    cases w with
    | zero =>
      rw [BitVec.toInt_zero_length] at hy'
      exact hy0 hy'.symm
    | succ v =>
      have hx₁ : -2 ^ v = x := (BitVec.toInt_intMin_of_pos (Nat.succ_pos v)).symm.trans hx'
      rw [BitVec.neg_one_eq_allOnes, BitVec.toInt_allOnes, if_pos (Nat.succ_pos v)] at hy'
      have hlt := BitVec.toInt_lt (x := BitVec.ofInt (v + 1) (x.tdiv y))
      rw [show (BitVec.ofInt (v + 1) (x.tdiv y)).toInt = x.tdiv y from h, ← hx₁, ← hy',
        Int.tdiv_neg, Int.tdiv_one, neg_neg] at hlt
      exact lt_irrefl _ hlt
  · intro h
    have hdiv := BitVec.toInt_sdiv_of_ne_or_ne _ _ h
    rw [hx', hy'] at hdiv
    rw [← hdiv]
    exact fits_toInt _

theorem toInt_sdiv (hx : Fits w x) (hy : Fits w y) (h : Fits w (x.tdiv y)) :
    ((BitVec.ofInt w x).sdiv (BitVec.ofInt w y)).toInt = x.tdiv y := by
  have hx : (BitVec.ofInt w x).toInt = x := hx
  have hy : (BitVec.ofInt w y).toInt = y := hy
  rw [BitVec.toInt_sdiv, hx, hy, ← wrap_eq_bmod]
  exact h

theorem toInt_srem (hx : Fits w x) (hy : Fits w y) :
    ((BitVec.ofInt w x).srem (BitVec.ofInt w y)).toInt = x.tmod y := by
  have hx : (BitVec.ofInt w x).toInt = x := hx
  have hy : (BitVec.ofInt w y).toInt = y := hy
  rw [BitVec.toInt_srem, hx, hy]

/-! ## Shifts -/

theorem toNat_of_nonneg (hy : Fits w y) (h : 0 ≤ y) : (BitVec.ofInt w y).toNat = y.toNat := by
  have hy' : (BitVec.ofInt w y).toInt = y := hy
  have hlt := (BitVec.ofInt w y).isLt
  rw [BitVec.toInt_eq_toNat_cond] at hy'
  split at hy' <;> omega

/-- The unsigned reading of a word is below the width when the signed one is. -/
theorem toNat_lt_iff (hy : Fits w y) : (BitVec.ofInt w y).toNat < w ↔ 0 ≤ y ∧ y < w := by
  have hy' : (BitVec.ofInt w y).toInt = y := hy
  rw [BitVec.toInt_eq_toNat_cond] at hy'
  constructor
  · intro h
    -- such a word has its highest bit clear
    have hhalf : 2 * w ≤ 2 ^ w := by
      cases w with
      | zero => exact absurd h (Nat.not_lt_zero _)
      | succ v =>
        have hv := Nat.lt_two_pow_self (n := v)
        rw [pow_succ]
        omega
    rw [if_pos (by omega)] at hy'
    omega
  · rintro ⟨h, hlt⟩
    rw [toNat_of_nonneg hy h]
    omega

theorem toInt_shl (hx : Fits w x) (n : Nat) :
    (BitVec.ofInt w x <<< n).toInt = wrap w (x * 2 ^ n) := by
  have hx : (BitVec.ofInt w x).toInt = x := hx
  have hnat := toNat_modEq (BitVec.ofInt w x)
  rw [hx] at hnat
  rw [BitVec.toInt_shiftLeft, ← wrap_eq_bmod]
  refine wrap_congr ?_
  rw [Nat.shiftLeft_eq, Int.natCast_mul, Int.natCast_pow]
  exact hnat.mul_right _

theorem toInt_ashr (hx : Fits w x) (n : Nat) :
    ((BitVec.ofInt w x).sshiftRight n).toInt = x / 2 ^ n := by
  have hx : (BitVec.ofInt w x).toInt = x := hx
  rw [BitVec.toInt_sshiftRight, hx, Int.shiftRight_eq_div_pow]
  rfl

end Words
