/-
  Counting over a finite index set when one index changes.
-/
import Mathlib.Algebra.BigOperators.Group.Finset.Basic
import Mathlib.Algebra.Order.BigOperators.Group.Finset

namespace EC440.Lib

variable {α : Type*}

/-- Two summands that differ only at `a`. -/
theorem sum_change [DecidableEq α] {M : Type*} [AddCommMonoid M] {S : Finset α} {f g : α → M} {a : α} (ha : a ∈ S)
    (h : ∀ x ∈ S, x ≠ a → g x = f x) : ∑ x ∈ S, g x + f a = ∑ x ∈ S, f x + g a := by
  have hg : ∑ x ∈ S.erase a, g x = ∑ x ∈ S.erase a, f x :=
    Finset.sum_congr rfl fun x hx => h x (Finset.mem_of_mem_erase hx) (Finset.ne_of_mem_erase hx)
  rw [← Finset.sum_erase_add S g ha, ← Finset.sum_erase_add S f ha, hg, add_right_comm]

/-- How many indices of `S` satisfy `p`. -/
def count (S : Finset α) (p : α → Bool) : Nat := ∑ x ∈ S, if p x then 1 else 0

theorem count_change [DecidableEq α] {S : Finset α} {p q : α → Bool} {a : α} (ha : a ∈ S)
    (h : ∀ x ∈ S, x ≠ a → q x = p x) :
    count S q + (if p a then 1 else 0) = count S p + (if q a then 1 else 0) :=
  sum_change (f := fun x => if p x then 1 else 0) (g := fun x => if q x then 1 else 0) ha
    fun x hx hne => by simp only [h x hx hne]

theorem count_congr {S : Finset α} {p q : α → Bool} (h : ∀ x ∈ S, q x = p x) :
    count S q = count S p :=
  Finset.sum_congr rfl fun x hx => by rw [h x hx]

theorem count_eq_zero {S : Finset α} {p : α → Bool} :
    count S p = 0 ↔ ∀ x ∈ S, p x = false := by
  simp [count]

theorem count_le (S : Finset α) (p : α → Bool) : count S p ≤ S.card := by
  unfold count
  calc ∑ x ∈ S, (if p x then 1 else 0) ≤ ∑ _x ∈ S, 1 :=
        Finset.sum_le_sum fun x _ => by split <;> omega
    _ = S.card := by simp

end EC440.Lib
