/-
  The first index of an interval of integers that satisfies a test, as a counting loop
  `for (i = lo; i < hi; i++) if (p(i)) break;` finds it.
-/
import Mathlib.Order.Basic
import Mathlib.Data.Int.Init

namespace EC440.Lib

/-- The first of the `n` integers from `lo` on that satisfies `p`. -/
def firstFrom (p : Int → Bool) : Nat → Int → Option Int
  | 0, _ => none
  | n + 1, lo => if p lo then some lo else firstFrom p n (lo + 1)

/-- The first `i` with `lo ≤ i < hi` that satisfies `p`. -/
def firstIn (p : Int → Bool) (lo hi : Int) : Option Int :=
  firstFrom p (hi - lo).toNat lo

theorem firstFrom_eq_some {p : Int → Bool} : ∀ {n : Nat} {lo i : Int},
    firstFrom p n lo = some i ↔ lo ≤ i ∧ i < lo + n ∧ p i = true ∧ ∀ k, lo ≤ k → k < i → p k = false
  | 0, lo, i => by
      simp only [firstFrom, reduceCtorEq, false_iff]
      omega
  | n + 1, lo, i => by
      simp only [firstFrom]
      split
      · next hp =>
          constructor
          · rintro ⟨⟩
            exact ⟨by omega, by omega, hp, fun k h1 h2 => by omega⟩
          · rintro ⟨h1, _, _, h4⟩
            rcases Int.lt_or_eq_of_le h1 with h | h
            · rw [h4 lo (by omega) h] at hp; cases hp
            · rw [h]
      · next hp =>
          rw [firstFrom_eq_some]
          have hp' : p lo = false := by simpa using hp
          constructor
          · rintro ⟨h1, h2, h3, h4⟩
            refine ⟨by omega, by omega, h3, fun k hk hki => ?_⟩
            rcases Int.lt_or_eq_of_le hk with h | h
            · exact h4 k (by omega) hki
            · rw [← h]; exact hp'
          · rintro ⟨h1, h2, h3, h4⟩
            have : lo ≠ i := by rintro rfl; rw [h3] at hp'; cases hp'
            exact ⟨by omega, by omega, h3, fun k hk hki => h4 k (by omega) hki⟩

theorem firstFrom_eq_none {p : Int → Bool} : ∀ {n : Nat} {lo : Int},
    firstFrom p n lo = none ↔ ∀ i, lo ≤ i → i < lo + n → p i = false
  | 0, lo => by
      simp only [firstFrom, true_iff]
      intro i h1 h2; omega
  | n + 1, lo => by
      simp only [firstFrom]
      split
      · next hp =>
          simp only [reduceCtorEq, false_iff]
          intro h
          rw [h lo (by omega) (by omega)] at hp; cases hp
      · next hp =>
          rw [firstFrom_eq_none]
          have hp' : p lo = false := by simpa using hp
          constructor
          · intro h i h1 h2
            rcases Int.lt_or_eq_of_le h1 with h3 | h3
            · exact h i (by omega) (by omega)
            · rw [← h3]; exact hp'
          · intro h i h1 h2
            exact h i (by omega) (by omega)

theorem firstIn_eq_some {p : Int → Bool} {lo hi i : Int} :
    firstIn p lo hi = some i ↔ lo ≤ i ∧ i < hi ∧ p i = true ∧ ∀ k, lo ≤ k → k < i → p k = false := by
  unfold firstIn
  rw [firstFrom_eq_some]
  constructor
  · rintro ⟨h1, h2, h3⟩; exact ⟨h1, by omega, h3⟩
  · rintro ⟨h1, h2, h3⟩; exact ⟨h1, by omega, h3⟩

theorem firstIn_eq_none {p : Int → Bool} {lo hi : Int} :
    firstIn p lo hi = none ↔ ∀ i, lo ≤ i → i < hi → p i = false := by
  unfold firstIn
  rw [firstFrom_eq_none]
  constructor
  · intro h i h1 h2; exact h i h1 (by omega)
  · intro h i h1 h2; exact h i h1 (by omega)

/-- A test that one index of the interval alone satisfies finds that index. -/
theorem firstIn_unique {p : Int → Bool} {lo hi i : Int} (h1 : lo ≤ i) (h2 : i < hi) (hp : p i = true)
    (hu : ∀ k, lo ≤ k → k < hi → p k = true → k = i) : firstIn p lo hi = some i := by
  rw [firstIn_eq_some]
  refine ⟨h1, h2, hp, fun k hk hki => ?_⟩
  cases hpk : p k with
  | false => rfl
  | true => have := hu k hk (by omega) hpk; omega

end EC440.Lib
