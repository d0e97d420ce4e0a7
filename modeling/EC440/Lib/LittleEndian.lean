/-
  32-bit two's complement integers in memory, low byte first, and C's conversion of an
  integer to `int`.
-/
import Mathlib.Algebra.Order.Ring.Int
import Mathlib.Tactic.NormNum

namespace EC440.Lib

/-- Conversion to a 32-bit `int` (modulo 2^32). -/
def toInt32 (x : Int) : Int := Int.bmod x (2 ^ 32)

/-- `x` is the value of a 32-bit `int`. -/
def IsInt32 (x : Int) : Prop := -2 ^ 31 ≤ x ∧ x < 2 ^ 31

instance (x : Int) : Decidable (IsInt32 x) := inferInstanceAs (Decidable (_ ∧ _))

theorem isInt32_toInt32 (x : Int) : IsInt32 (toInt32 x) := by
  unfold IsInt32 toInt32
  have h1 := Int.le_bmod (x := x) (m := 2 ^ 32) (by decide)
  have h2 := Int.bmod_lt (x := x) (m := 2 ^ 32) (by decide)
  omega

theorem toInt32_of_isInt32 {x : Int} (h : IsInt32 x) : toInt32 x = x := by
  unfold IsInt32 at h
  unfold toInt32
  rw [Int.bmod_eq_of_le] <;> omega

/-- Byte `k` of the 32-bit `int` `x`. -/
def intByte (x : Int) (k : Nat) : UInt8 := UInt8.ofNat ((x % 2 ^ 32).toNat / 256 ^ k % 256)

/-- The 32-bit `int` stored at `f 0, …, f 3`. -/
def intAt (f : Nat → UInt8) : Int :=
  toInt32 ((f 0).toNat + 256 * (f 1).toNat + 65536 * (f 2).toNat + 16777216 * (f 3).toNat : Nat)

theorem intAt_congr {f g : Nat → UInt8} (h : ∀ k, k < 4 → f k = g k) : intAt f = intAt g := by
  unfold intAt
  rw [h 0 (by omega), h 1 (by omega), h 2 (by omega), h 3 (by omega)]

theorem intByte_toNat (x : Int) (k : Nat) :
    (intByte x k).toNat = (x % 2 ^ 32).toNat / 256 ^ k % 256 := by
  unfold intByte
  rw [UInt8.toNat_ofNat']
  exact Nat.mod_mod _ _

theorem bytes_sum {n : Nat} (h : n < 2 ^ 32) :
    n / 256 ^ 0 % 256 + 256 * (n / 256 ^ 1 % 256) + 65536 * (n / 256 ^ 2 % 256) +
      16777216 * (n / 256 ^ 3 % 256) = n := by
  have e2 : (256 : Nat) ^ 2 = 65536 := by decide
  have e3 : (256 : Nat) ^ 3 = 16777216 := by decide
  rw [e2, e3, pow_zero, pow_one]
  omega

/-- Storing an `int` and loading it again. -/
theorem intAt_intByte {x : Int} (h : IsInt32 x) : intAt (intByte x) = x := by
  have hlt : (x % 2 ^ 32).toNat < 2 ^ 32 := by omega
  have hsum := bytes_sum hlt
  unfold intAt
  rw [intByte_toNat, intByte_toNat, intByte_toNat, intByte_toNat, hsum]
  have hcast : (((x % 2 ^ 32).toNat : Nat) : Int) = x % 2 ^ 32 := by omega
  rw [hcast]
  unfold toInt32
  rw [show ((2 : Int) ^ 32) = (((2 ^ 32 : Nat)) : Int) by norm_num, Int.emod_bmod]
  exact toInt32_of_isInt32 h

end EC440.Lib
