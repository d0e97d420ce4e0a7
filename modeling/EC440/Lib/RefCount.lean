/-
  Holders that refer to shared objects through slots, and how many slots refer to one object.

  `refs n slots p` counts the pairs of a holder below `n` and one of its slots that refers to
  `p`. A counter kept beside the object is right when it equals this number; the lemmas say how
  the number changes when one holder's slots change.
-/
import EC440.Lib.Count

namespace EC440.Lib

variable {β : Type*} [DecidableEq β]

def refs (n : Nat) (slots : Nat → List β) (p : β) : Nat :=
  ∑ i ∈ Finset.range n, (slots i).count p

theorem refs_congr {n : Nat} {f g : Nat → List β} {p : β}
    (h : ∀ i < n, (g i).count p = (f i).count p) : refs n g p = refs n f p :=
  Finset.sum_congr rfl fun i hi => h i (Finset.mem_range.mp hi)

/-- One holder's slots change. -/
theorem refs_change {n i : Nat} {f g : Nat → List β} (p : β) (hi : i < n)
    (h : ∀ j < n, j ≠ i → g j = f j) :
    refs n g p + (f i).count p = refs n f p + (g i).count p :=
  sum_change (f := fun j => (f j).count p) (g := fun j => (g j).count p) (Finset.mem_range.mpr hi)
    fun j hj hne => by simp only [h j (Finset.mem_range.mp hj) hne]

/-- A new holder. -/
theorem refs_succ (n : Nat) (slots : Nat → List β) (p : β) :
    refs (n + 1) slots p = refs n slots p + (slots n).count p :=
  Finset.sum_range_succ _ n

theorem count_le_refs {n i : Nat} {slots : Nat → List β} {p : β} (hi : i < n) :
    (slots i).count p ≤ refs n slots p :=
  Finset.single_le_sum (f := fun j => (slots j).count p) (fun _ _ => Nat.zero_le _)
    (Finset.mem_range.mpr hi)

theorem refs_pos {n i : Nat} {slots : Nat → List β} {p : β} (hi : i < n) (hp : p ∈ slots i) :
    0 < refs n slots p :=
  lt_of_lt_of_le (List.count_pos_iff.mpr hp) (count_le_refs hi)

theorem refs_eq_zero {n : Nat} {slots : Nat → List β} {p : β} :
    refs n slots p = 0 ↔ ∀ i < n, p ∉ slots i := by
  unfold refs
  rw [Finset.sum_eq_zero_iff]
  simp only [Finset.mem_range, List.count_eq_zero]

/-- A single reference: no other holder has it. -/
theorem refs_eq_one {n i j : Nat} {slots : Nat → List β} {p : β} (h : refs n slots p = 1) (hi : i < n)
    (hj : j < n) (hp : p ∈ slots i) (hne : j ≠ i) : p ∉ slots j := by
  intro hpj
  have hch := refs_change (f := slots) (g := Function.update slots i []) p hi
    fun k _ hk => Function.update_of_ne hk _ _
  have hj' : 0 < refs n (Function.update slots i []) p :=
    refs_pos hj (by rwa [Function.update_of_ne hne])
  have hi' := List.count_pos_iff.mpr hp
  rw [Function.update_self, List.count_nil] at hch
  omega

/-- In slots without repetition a new entry in place of `p` leaves none of `p`. -/
theorem count_set {l : List β} {k : Nat} {p q r : β} (hk : l[k]? = some p) (hpq : q ≠ p) :
    (l.set k q).count r + (if r = p then 1 else 0) = l.count r + (if r = q then 1 else 0) := by
  obtain ⟨hlt, hget⟩ := List.getElem?_eq_some_iff.mp hk
  rw [List.count_set hlt, hget]
  have hpos : r = p → 0 < l.count r := fun h => by
    rw [List.count_pos_iff, h, ← hget]
    exact List.getElem_mem hlt
  have h1 : (p == r) = decide (r = p) := by rw [beq_eq_decide]; simp [eq_comm]
  have h2 : (q == r) = decide (r = q) := by rw [beq_eq_decide]; simp [eq_comm]
  rw [h1, h2]
  simp only [decide_eq_true_eq]
  by_cases hrp : r = p
  · have := hpos hrp
    have hrq : r ≠ q := fun h => hpq (h.symm.trans hrp)
    rw [if_pos hrp, if_neg hrq]
    omega
  · rw [if_neg hrp]
    omega

end EC440.Lib
