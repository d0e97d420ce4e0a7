/-
  The hash table of tls.c: what Find and Remove answer, and when their walk is defined.

  A walk stops at the first live item of its thread. `Clear` says that it meets no destroyed
  item before: then Find is right (`Clear.find`). tls_destroy frees an item that stays in its
  bucket, so after it the walks that come past are no longer clear.
-/
import EC440.Tls.Tls

namespace EC440.Tls

open EC440.Lib

variable {s s' : State} {t : UInt64} {i : Nat} {it : Item} {l : List Nat}

/-- The live item `it` of thread `t`. -/
def State.Owns (s : State) (t : UInt64) (i : Nat) (it : Item) : Prop := s.items i = some it ∧ it.tid = t

/-- Every item before the first live one of `t` is live. -/
def State.Clear (s : State) (t : UInt64) : Prop :=
  ∀ i ∈ (s.table (hashFunction t)).takeWhile (fun i => !(s.items i).any (·.tid = t)), s.items i ≠ none

instance : Decidable (s.Clear t) :=
  inferInstanceAs (Decidable (∀ i ∈ List.takeWhile _ _, s.items i ≠ none))

/-- The table and the items it leads to. -/
structure TableOk (s : State) : Prop where
  items_lt : ∀ i it, s.items i = some it → i < s.nextItem
  linked : ∀ i it, s.items i = some it → i ∈ s.table (hashFunction it.tid)
  owner : ∀ i j it jt, s.items i = some it → s.items j = some jt → it.tid = jt.tid → i = j

theorem State.walk_some (h : s.walk t l = some (some i)) : ∃ it, s.Owns t i it := by
  induction l with
  | nil => cases h
  | cons j l ih =>
    simp only [State.walk] at h
    obtain ⟨jt, hj, h⟩ := Option.bind_eq_some_iff.mp h
    split at h
    · next ht =>
      simp only [Option.some.injEq] at h
      exact ⟨jt, by rw [← h]; exact ⟨hj, ht⟩⟩
    · exact ih h

/-- A walk that ends at NULL has met live items of other threads only. -/
theorem State.walk_none (h : s.walk t l = some none) : ∀ i ∈ l, ∃ it, s.items i = some it ∧ it.tid ≠ t := by
  induction l with
  | nil => simp
  | cons j l ih =>
    simp only [State.walk] at h
    obtain ⟨jt, hj, h⟩ := Option.bind_eq_some_iff.mp h
    split at h
    · simp at h
    · next ht =>
      intro i hi
      rcases List.mem_cons.mp hi with rfl | hi
      · exact ⟨jt, hj, ht⟩
      · exact ih h i hi

theorem State.walk_defined : s.walk t l ≠ none ↔
    ∀ i ∈ l.takeWhile (fun i => !(s.items i).any (·.tid = t)), s.items i ≠ none := by
  induction l with
  | nil => simp [State.walk]
  | cons j l ih =>
    rw [State.walk, List.takeWhile_cons]
    cases hj : s.items j with
    | none => simp [hj]
    | some jt =>
      by_cases ht : jt.tid = t
      · simp [ht]
      · simpa [ht, hj] using ih

theorem State.find_some (h : s.find t = some (some i)) : ∃ it, s.Owns t i it := State.walk_some h

theorem State.clear_iff : s.Clear t ↔ s.find t ≠ none := State.walk_defined.symm

theorem TableOk.find_none (hs : TableOk s) (h : s.find t = some none) : ¬ s.Owns t i it := by
  rintro ⟨hi, rfl⟩
  obtain ⟨jt, hj, hne⟩ := State.walk_none h i (hs.linked i it hi)
  rw [hi, Option.some.injEq] at hj
  exact hne (by rw [hj])

theorem TableOk.unique (hs : TableOk s) {j : Nat} {jt : Item} (h : s.Owns t i it) (h' : s.Owns t j jt) :
    i = j ∧ it = jt := by
  have hij := hs.owner i j it jt h.1 h'.1 (h.2.trans h'.2.symm)
  rw [← hij] at h'
  exact ⟨hij, Option.some.inj (h.1.symm.trans h'.1)⟩

/-- Find on a clear walk. -/
theorem TableOk.find_owns (hs : TableOk s) (hc : s.Clear t) (h : s.Owns t i it) :
    s.find t = some (some i) := by
  cases hf : s.find t with
  | none => exact absurd hf (State.clear_iff.mp hc)
  | some o =>
    cases o with
    | none => exact absurd h (hs.find_none hf)
    | some j =>
      obtain ⟨jt, hj⟩ := State.find_some hf
      rw [(hs.unique h hj).1]

theorem State.find_null (hc : s.Clear t) (h : ∀ i it, ¬ s.Owns t i it) : s.find t = some none := by
  cases hf : s.find t with
  | none => exact absurd hf (State.clear_iff.mp hc)
  | some o =>
    cases o with
    | none => rfl
    | some j =>
      obtain ⟨jt, hj⟩ := State.find_some hf
      exact absurd hj (h j jt)

theorem State.find_cases (hc : s.Clear t) :
    s.find t = some none ∨ ∃ i it, s.find t = some (some i) ∧ s.Owns t i it := by
  cases hf : s.find t with
  | none => exact absurd hf (State.clear_iff.mp hc)
  | some o =>
    cases o with
    | none => exact .inl rfl
    | some j =>
      obtain ⟨jt, hj⟩ := State.find_some hf
      exact .inr ⟨j, jt, rfl, hj⟩

/-- The same without a clear walk. -/
theorem State.find_trichotomy (s : State) (t : UInt64) :
    s.find t = none ∨ s.find t = some none ∨ ∃ i it, s.find t = some (some i) ∧ s.Owns t i it := by
  by_cases hc : s.Clear t
  · exact .inr (State.find_cases hc)
  · rw [State.clear_iff, not_not] at hc
    exact .inl hc

/-- No item of the table is destroyed: then every walk is clear. -/
def Live (s : State) : Prop := ∀ b, ∀ i ∈ s.table b, s.items i ≠ none

/-- A new item at the front of its list. -/
theorem Live.insert (h : Live s) (hitems : s'.items = Function.update s.items s.nextItem (some it))
    (htable : s'.table = Function.update s.table (hashFunction t) (s.nextItem :: s.table (hashFunction t))) :
    Live s' := by
  intro b i hi
  rw [htable] at hi
  rw [hitems]
  by_cases hin : i = s.nextItem
  · rw [hin, Function.update_self]
    simp
  · rw [Function.update_of_ne hin]
    by_cases hb : b = hashFunction t
    · rw [hb, Function.update_self] at hi
      exact h _ i ((List.mem_cons.mp hi).resolve_left hin)
    · rw [Function.update_of_ne hb] at hi
      exact h b i hi

theorem Live.clear (h : Live s) (t : UInt64) : s.Clear t :=
  fun i hi => h _ i ((List.takeWhile_prefix _).subset hi)

/-! ## Remove -/

theorem State.removeWalk_snd (temp : Option Nat) :
    (s.removeWalk t temp l).map Prod.snd = s.walk t l := by
  induction l generalizing temp with
  | nil => rfl
  | cons j l ih =>
    simp only [State.removeWalk, State.walk]
    cases s.items j with
    | none => rfl
    | some jt =>
      simp only [Option.bind_some]
      split
      · rfl
      · exact ih (some j)

/-- Past the head, `temp` is set. -/
theorem State.removeWalk_fst {j : Nat} {temp current : Option Nat}
    (h : s.removeWalk t (some j) l = some (temp, current)) : temp ≠ none := by
  induction l generalizing j with
  | nil =>
    simp only [State.removeWalk, Option.some.injEq, Prod.mk.injEq] at h
    rw [← h.1]
    simp
  | cons m l ih =>
    simp only [State.removeWalk] at h
    obtain ⟨mt, -, h⟩ := Option.bind_eq_some_iff.mp h
    split at h
    · simp only [Option.some.injEq, Prod.mk.injEq] at h
      rw [← h.1]
      simp
    · exact ih h

/-- Remove returns what Find does, when Find returns an item. -/
theorem State.remove_some (h : s.find t = some (some i)) : s.remove t = some (some i) := by
  obtain ⟨it, hi, -⟩ := State.find_some h
  unfold State.find at h
  unfold State.remove
  cases hb : s.table (hashFunction t) with
  | nil =>
    rw [hb] at h
    cases h
  | cons j l =>
    rw [hb, ← State.removeWalk_snd none] at h
    obtain ⟨⟨temp, current⟩, hw, rfl⟩ := Option.map_eq_some_iff.mp h
    by_cases htemp : temp = none
    · simp [hw, htemp]
    · simp [hw, htemp, hi]

/-- Remove walks as Find does. -/
theorem State.remove_lost (h : s.find t = none) : s.remove t = none := by
  unfold State.find at h
  unfold State.remove
  rw [← State.removeWalk_snd none, Option.map_eq_none_iff] at h
  cases hb : s.table (hashFunction t) with
  | nil =>
    rw [hb] at h
    cases h
  | cons j l =>
    rw [hb] at h
    simp [h]

theorem State.remove_nil (h : s.table (hashFunction t) = []) : s.remove t = some none := by
  unfold State.remove
  rw [h]

/-- Where Find returns NULL in a non-empty bucket, Remove dereferences NULL. -/
theorem State.remove_none (h : s.find t = some none) (hb : s.table (hashFunction t) ≠ []) :
    s.remove t = none := by
  unfold State.find at h
  unfold State.remove
  cases hl : s.table (hashFunction t) with
  | nil => exact absurd hl hb
  | cons j l =>
    rw [hl, ← State.removeWalk_snd none] at h
    obtain ⟨⟨temp, current⟩, hw, hcur⟩ := Option.map_eq_some_iff.mp h
    have htemp : temp ≠ none := by
      simp only [State.removeWalk] at hw
      obtain ⟨jt, -, hw⟩ := Option.bind_eq_some_iff.mp hw
      split at hw
      · simp only [Option.some.injEq, Prod.mk.injEq] at hw
        rw [← hw.2] at hcur
        cases hcur
      · exact State.removeWalk_fst hw
    simp only [] at hcur
    simp [hw, hcur, htemp]

end EC440.Tls
