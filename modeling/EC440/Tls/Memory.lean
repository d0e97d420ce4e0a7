/-
  The kernel side of tls.c: page mappings with a protection, and the bytes behind them.

  mmap, munmap, mprotect and getpagesize are the system's. What tls.c relies on is in `Kernel`:
  the page size is a power of two, and an mmap that succeeds answers with a page-aligned
  address at which nothing is mapped. Which address it is, and whether the call succeeds, is
  left open: both may depend on the mappings and on how many calls there were before.
-/
import Mathlib.Data.Finset.Lattice.Fold
import Mathlib.Algebra.Order.Ring.Nat
import Mathlib.Order.Lattice.Nat

namespace EC440.Tls

structure Kernel where
  pageBits : Nat
  /-- `none` is MAP_FAILED. -/
  mmap : Nat → Finset Nat → Option Nat
  aligned : ∀ n mapped a, mmap n mapped = some a → 2 ^ pageBits ∣ a
  fresh : ∀ n mapped a, mmap n mapped = some a → a ∉ mapped

def Kernel.getpagesize (k : Kernel) : Nat := 2 ^ k.pageBits

/-- No mmap fails. -/
def Kernel.Maps (k : Kernel) : Prop := ∀ n mapped, k.mmap n mapped ≠ none

/-- A kernel that maps each page above all others. -/
def Kernel.upward : Kernel where
  pageBits := 12
  mmap := fun _ mapped => some (2 ^ 12 * (mapped.sup id + 1))
  aligned := by
    rintro n mapped a ⟨⟩
    exact Nat.dvd_mul_right _ _
  fresh := by
    rintro n mapped a ⟨⟩ hmem
    have hle := Finset.le_sup (f := id) hmem
    simp only [id_eq] at hle
    omega

theorem Kernel.upward_maps : Kernel.upward.Maps := fun _ _ h => by cases h

inductive Prot
  | none
  | read
  | write
  deriving DecidableEq, Repr

/-- PROT_WRITE implies PROT_READ on the machines the code is for: memcpy reads a page that was
    unprotected with PROT_WRITE. -/
def Prot.readable : Prot → Bool
  | .none => false
  | .read => true
  | .write => true

def Prot.writable : Prot → Bool
  | .none => false
  | .read => false
  | .write => true

/-- The mapped pages by their first address, and how often mmap was called. -/
structure Memory where
  mapped : Finset Nat := ∅
  prot : Nat → Prot := fun _ => .none
  byte : Nat → UInt8 := fun _ => 0
  mmaps : Nat := 0

namespace Memory

/-- mmap(0, size, prot, MAP_ANON | MAP_PRIVATE, 0, 0): a page of zeros. -/
def mmap (k : Kernel) (size : Nat) (prot : Prot) (m : Memory) : Option Nat × Memory :=
  match k.mmap m.mmaps m.mapped with
  | none => (none, { m with mmaps := m.mmaps + 1 })
  | some a => (some a,
      { mapped := insert a m.mapped
        prot := Function.update m.prot a prot
        byte := fun x => if a ≤ x ∧ x < a + size then 0 else m.byte x
        mmaps := m.mmaps + 1 })

def munmap (address : Nat) (m : Memory) : Memory := { m with mapped := m.mapped.erase address }

/-- `none` where nothing is mapped: tls_protect and tls_unprotect then end the process. -/
def mprotect (address : Nat) (prot : Prot) (m : Memory) : Option Memory :=
  if address ∈ m.mapped then some { m with prot := Function.update m.prot address prot } else none

/-- The page a byte lies in. -/
def base (size x : Nat) : Nat := x - x % size

/-- `*x`: `none` is a fault. -/
def load (size x : Nat) (m : Memory) : Option UInt8 :=
  if base size x ∈ m.mapped ∧ (m.prot (base size x)).readable then some (m.byte x) else none

/-- `*x = b` -/
def store (size x : Nat) (b : UInt8) (m : Memory) : Option Memory :=
  if base size x ∈ m.mapped ∧ (m.prot (base size x)).writable then
    some { m with byte := Function.update m.byte x b }
  else none

/-- memcpy(dst, src, size) between two whole pages. -/
def memcpy (size dst src : Nat) (m : Memory) : Option Memory :=
  if (dst ∈ m.mapped ∧ (m.prot dst).writable) ∧ (src ∈ m.mapped ∧ (m.prot src).readable) then
    some { m with byte := fun x => if dst ≤ x ∧ x < dst + size then m.byte (src + (x - dst)) else m.byte x }
  else none

end Memory

/-! ## Pages do not overlap -/

section
variable {size a b x y : Nat}

theorem base_add (ha : size ∣ a) (hx : x < size) : Memory.base size (a + x) = a := by
  obtain ⟨c, rfl⟩ := ha
  rw [Memory.base, Nat.mul_add_mod, Nat.mod_eq_of_lt hx]
  omega

/-- A byte lies in one page only. -/
theorem page_unique (ha : size ∣ a) (hb : size ∣ b) (hx : x < size) (hy : y < size)
    (h : a + x = b + y) : a = b := by
  rw [← base_add ha hx, h, base_add hb hy]

theorem not_in_page (ha : size ∣ a) (hb : size ∣ b) (hx : x < size) (hne : a ≠ b) :
    ¬ (b ≤ a + x ∧ a + x < b + size) := by
  intro h
  exact hne (page_unique ha hb hx (y := a + x - b) (by omega) (by omega))

end

end EC440.Tls
