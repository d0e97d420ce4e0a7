/-
  Memory as bytes, and the 64-bit words in it, low byte first.
-/
import Mathlib.Algebra.Group.Nat.Defs

namespace EC440.Lib

/-- The bytes of the memory. -/
abbrev Mem := Nat → UInt8

/-- The number in the `n` bytes from `a` on. -/
def readBytes (m : Mem) : Nat → Nat → Nat
  | _, 0 => 0
  | a, n + 1 => (m a).toNat + 256 * readBytes m (a + 1) n

/-- The number `v` put into the `n` bytes from `a` on. -/
def writeBytes (m : Mem) (a n v : Nat) : Mem :=
  fun x => if a ≤ x ∧ x < a + n then UInt8.ofNat (v / 256 ^ (x - a)) else m x

theorem readBytes_congr {m m' : Mem} {a n : Nat} (h : ∀ x, a ≤ x → x < a + n → m x = m' x) :
    readBytes m a n = readBytes m' a n := by
  induction n generalizing a with
  | zero => rfl
  | succ n ih =>
    rw [readBytes, readBytes, h a (Nat.le_refl _) (by omega), ih fun x h1 h2 => h x (by omega) (by omega)]

theorem writeBytes_of_notMem {m : Mem} {a n v x : Nat} (h : ¬ (a ≤ x ∧ x < a + n)) : writeBytes m a n v x = m x :=
  if_neg h

/-- What was put into memory is read back. -/
theorem readBytes_writeBytes (m : Mem) (a n v : Nat) : readBytes (writeBytes m a n v) a n = v % 256 ^ n := by
  induction n generalizing a v with
  | zero => rw [readBytes, Nat.pow_zero, Nat.mod_one]
  | succ n ih =>
    have hrest : readBytes (writeBytes m a (n + 1) v) (a + 1) n =
        readBytes (writeBytes m (a + 1) n (v / 256)) (a + 1) n := by
      refine readBytes_congr fun x h1 h2 => ?_
      unfold writeBytes
      rw [if_pos (by omega), if_pos (by omega), Nat.div_div_eq_div_mul, ← Nat.pow_succ',
        show (x - (a + 1)).succ = x - a by omega]
    have hfirst : (writeBytes m a (n + 1) v a).toNat = v % 256 := by
      unfold writeBytes
      rw [if_pos (by omega), Nat.sub_self, Nat.pow_zero, Nat.div_one, UInt8.toNat_ofNat']
    rw [readBytes, hrest, ih, hfirst, Nat.pow_succ', Nat.mod_mul]

def load64 (m : Mem) (a : Nat) : BitVec 64 := BitVec.ofNat 64 (readBytes m a 8)

def store64 (m : Mem) (a : Nat) (v : BitVec 64) : Mem := writeBytes m a 8 v.toNat

theorem load64_store64 (m : Mem) (a : Nat) (v : BitVec 64) : load64 (store64 m a v) a = v := by
  unfold load64 store64
  rw [readBytes_writeBytes, show (256 : Nat) ^ 8 = 2 ^ 64 by decide, Nat.mod_eq_of_lt v.isLt, BitVec.ofNat_toNat,
    BitVec.setWidth_eq]

/-- A word is read from its own bytes only. -/
theorem load64_congr {m m' : Mem} {a : Nat} (h : ∀ x, a ≤ x → x < a + 8 → m x = m' x) : load64 m a = load64 m' a := by
  unfold load64
  rw [readBytes_congr h]

theorem store64_of_notMem {m : Mem} {a x : Nat} {v : BitVec 64} (h : ¬ (a ≤ x ∧ x < a + 8)) : store64 m a v x = m x :=
  writeBytes_of_notMem h

end EC440.Lib
