import Dolorem.Codegen.Eval
import Dolorem.Lib.Words

/-!
# Operators on integers

What the macros of `arithmetic-op` and `comparison-op` compute on integers
(`calculate`, `compare`), next to what the LLVM instructions they emit compute
on words (`runBin`, `runPred`). The operands have been brought to one width `w`.
-/

namespace Dolorem.Programs

open Codegen Words

/-- An instruction on words. A division by zero or one that overflows is
undefined behaviour, and a shift by the width or more has no defined result:
nothing is computed. -/
def runBin (op : BinOp) {w : Nat} (a b : BitVec w) : Option (BitVec w) :=
  match op with
  | .add => some (a + b)
  | .sub => some (a - b)
  | .mul => some (a * b)
  | .sdiv => if b = 0#w ∨ a = BitVec.intMin w ∧ b = -1#w then none else some (a.sdiv b)
  | .srem => if b = 0#w ∨ a = BitVec.intMin w ∧ b = -1#w then none else some (a.srem b)
  | .and => some (a &&& b)
  | .or => some (a ||| b)
  | .shl => if b.toNat < w then some (a <<< b.toNat) else none
  | .ashr => if b.toNat < w then some (a.sshiftRight b.toNat) else none
  | _ => none

/-- The predicates of `icmp`. -/
def runPred (pred : Nat) {w : Nat} (a b : BitVec w) : Option Bool :=
  match pred with
  | 32 => some (a == b)
  | 33 => some (a != b)
  | 34 => some (b.ult a)
  | 35 => some (b.ule a)
  | 36 => some (a.ult b)
  | 37 => some (a.ule b)
  | 38 => some (b.slt a)
  | 39 => some (b.sle a)
  | 40 => some (a.slt b)
  | 41 => some (a.sle b)
  | _ => none

/-- The integer a one-bit word stands for. -/
def bit (b : Bool) : Int := if b then -1 else 0

/-- The result of an `arithmetic-op` macro: the exact one, modulo the width. -/
def calculate (op : ArithOp) (w : Nat) (x y : Int) : Option Int :=
  match op with
  | .add => some (wrap w (x + y))
  | .sub => some (wrap w (x - y))
  | .mul => some (wrap w (x * y))
  | .div => if y ≠ 0 ∧ Fits w (x.tdiv y) then some (x.tdiv y) else none
  | .mod => if y ≠ 0 ∧ Fits w (x.tdiv y) then some (x.tmod y) else none
  | .and => some (BitVec.ofInt w x &&& BitVec.ofInt w y).toInt
  | .or => some (BitVec.ofInt w x ||| BitVec.ofInt w y).toInt
  | .shl => if 0 ≤ y ∧ y < w then some (wrap w (x * 2 ^ y.toNat)) else none
  | .shr => if 0 ≤ y ∧ y < w then some (x / 2 ^ y.toNat) else none

/-- The result of a `comparison-op` macro. -/
def compare (op : CmpOp) (x y : Int) : Bool :=
  match op with
  | .eq => x = y
  | .ne => x ≠ y
  | .gt => y < x
  | .ge => y ≤ x
  | .lt => x < y
  | .le => x ≤ y

variable {w : Nat} {x y : Int}

theorem fits_bit (b : Bool) : Fits 1 (bit b) := by
  cases b <;> decide

theorem divisor_iff (hx : Fits w x) (hy : Fits w y) :
    (BitVec.ofInt w y = 0#w ∨ BitVec.ofInt w x = BitVec.intMin w ∧ BitVec.ofInt w y = -1#w) ↔
      ¬ (y ≠ 0 ∧ Fits w (x.tdiv y)) := by
  have hzero : BitVec.ofInt w y = 0#w ↔ y = 0 := by
    rw [← BitVec.toInt_inj, BitVec.toInt_zero]
    exact Iff.of_eq (congrArg (· = 0) hy)
  rw [hzero]
  by_cases hy0 : y = 0
  · simp [hy0]
  · rw [fits_tdiv_iff hx hy hy0]
    simp [hy0]

/-- The instruction of a macro computes what the macro is for. -/
theorem runBin_int (op : ArithOp) (hx : Fits w x) (hy : Fits w y) :
    (runBin op.int (BitVec.ofInt w x) (BitVec.ofInt w y)).map BitVec.toInt =
      calculate op w x y := by
  cases op with
  | add => exact congrArg some (toInt_add w x y)
  | sub => exact congrArg some (toInt_sub hx hy)
  | mul => exact congrArg some (toInt_mul w x y)
  | div =>
    simp only [ArithOp.int, runBin, calculate, divisor_iff hx hy]
    by_cases h : y ≠ 0 ∧ Fits w (x.tdiv y)
    · rw [if_neg (not_not.2 h), if_pos h, Option.map_some, toInt_sdiv hx hy h.2]
    · rw [if_pos h, if_neg h, Option.map_none]
  | mod =>
    simp only [ArithOp.int, runBin, calculate, divisor_iff hx hy]
    by_cases h : y ≠ 0 ∧ Fits w (x.tdiv y)
    · rw [if_neg (not_not.2 h), if_pos h, Option.map_some, toInt_srem hx hy]
    · rw [if_pos h, if_neg h, Option.map_none]
  | and => rfl
  | or => rfl
  | shl =>
    simp only [ArithOp.int, runBin, calculate, toNat_lt_iff hy]
    split
    · next h => rw [Option.map_some, toNat_of_nonneg hy h.1, toInt_shl hx]
    · rfl
  | shr =>
    simp only [ArithOp.int, runBin, calculate, toNat_lt_iff hy]
    split
    · next h => rw [Option.map_some, toNat_of_nonneg hy h.1, toInt_ashr hx]
    · rfl

theorem fits_calculate {op : ArithOp} {z : Int} (hx : Fits w x) (hy : Fits w y)
    (h : calculate op w x y = some z) : Fits w z := by
  rw [← runBin_int op hx hy] at h
  obtain ⟨b, -, rfl⟩ := Option.map_eq_some_iff.1 h
  exact fits_toInt b

/-- The comparisons of `comparison-op` are those of signed words. -/
theorem runPred_int (op : CmpOp) (hx : Fits w x) (hy : Fits w y) :
    runPred op.preds.1 (BitVec.ofInt w x) (BitVec.ofInt w y) = some (compare op x y) := by
  have hx : (BitVec.ofInt w x).toInt = x := hx
  have hy : (BitVec.ofInt w y).toInt = y := hy
  have heq : BitVec.ofInt w x = BitVec.ofInt w y ↔ x = y := by
    rw [← BitVec.toInt_inj, hx, hy]
  cases op with
  | eq | ne =>
    refine congrArg some (Bool.eq_iff_iff.2 ?_)
    simp [compare, heq]
  | gt | lt =>
    refine congrArg some ?_
    simp only [compare, BitVec.slt, hx, hy]
  | ge | le =>
    refine congrArg some ?_
    simp only [compare, BitVec.sle, hx, hy]

end Dolorem.Programs
