/-
  Singly linked chains given by a successor function `next : α → Option α`, as an array of
  next-links or a list of heap cells is. `Seg next o l o'` says that following `next` from
  `o` passes exactly the cells `l` and then stands at `o'`; a chain is a segment that ends
  at `none`. The lemmas say how chains are split, extended by a new last cell, cut, and left
  alone by changes of other cells.
-/
import Mathlib.Data.List.Nodup
import Mathlib.Logic.Function.Basic

namespace EC440.Lib

variable {α : Type*}

/-- Following `next` from `o` visits exactly `l`, in order, and ends at `o'`. -/
def Seg (next : α → Option α) : Option α → List α → Option α → Prop
  | o, [], o' => o = o'
  | none, _ :: _, _ => False
  | some a, b :: l, o' => a = b ∧ Seg next (next a) l o'

/-- Following `next` from `o` visits exactly `l` and then ends. -/
def Linked (next : α → Option α) (o : Option α) (l : List α) : Prop :=
  Seg next o l none

@[simp] theorem seg_nil {next : α → Option α} {o o' : Option α} : Seg next o [] o' ↔ o = o' := by
  simp [Seg]

@[simp] theorem seg_cons {next : α → Option α} {o o' : Option α} {b : α} {l : List α} :
    Seg next o (b :: l) o' ↔ o = some b ∧ Seg next (next b) l o' := by
  cases o with
  | none => simp [Seg]
  | some a =>
      simp only [Seg, Option.some.injEq]
      constructor
      · rintro ⟨rfl, h⟩; exact ⟨rfl, h⟩
      · rintro ⟨rfl, h⟩; exact ⟨rfl, h⟩

theorem seg_append {next : α → Option α} {l₁ l₂ : List α} : ∀ {o o' : Option α},
    Seg next o (l₁ ++ l₂) o' ↔ ∃ m, Seg next o l₁ m ∧ Seg next m l₂ o' := by
  induction l₁ with
  | nil => intro o o'; simp
  | cons b l ih =>
      intro o o'
      simp only [List.cons_append, seg_cons, ih]
      constructor
      · rintro ⟨ho, m, h1, h2⟩; exact ⟨m, ⟨ho, h1⟩, h2⟩
      · rintro ⟨m, ⟨ho, h1⟩, h2⟩; exact ⟨ho, m, h1, h2⟩

theorem Seg.congr {next next' : α → Option α} {l : List α} : ∀ {o o' : Option α},
    (∀ a ∈ l, next' a = next a) → Seg next o l o' → Seg next' o l o' := by
  induction l with
  | nil => intro o o' _ h; simpa using h
  | cons b l ih =>
      intro o o' hc h
      rw [seg_cons] at h ⊢
      refine ⟨h.1, ?_⟩
      rw [hc b List.mem_cons_self]
      exact ih (fun a ha => hc a (List.mem_cons_of_mem b ha)) h.2

theorem Linked.congr {next next' : α → Option α} {o : Option α} {l : List α}
    (h : Linked next o l) (hc : ∀ a ∈ l, next' a = next a) : Linked next' o l :=
  Seg.congr hc h

theorem Linked.unique {next : α → Option α} : ∀ {l l' : List α} {o : Option α},
    Linked next o l → Linked next o l' → l = l'
  | [], [], _, _, _ => rfl
  | [], b :: l', o, h, h' => by
      simp only [Linked, seg_nil, seg_cons] at h h'
      rw [h] at h'; exact absurd h'.1 (by simp)
  | b :: l, [], o, h, h' => by
      simp only [Linked, seg_nil, seg_cons] at h h'
      rw [h'] at h; exact absurd h.1 (by simp)
  | b :: l, c :: l', o, h, h' => by
      simp only [Linked, seg_cons] at h h'
      have hbc : b = c := Option.some.inj (h.1.symm.trans h'.1)
      subst hbc
      rw [Linked.unique h.2 h'.2]

theorem Linked.head_mem {next : α → Option α} {a : α} {l : List α}
    (h : Linked next (some a) l) : a ∈ l := by
  cases l with
  | nil => simp [Linked] at h
  | cons b l =>
      simp only [Linked, seg_cons, Option.some.injEq] at h
      rw [h.1]; exact List.mem_cons_self

theorem Linked.ne_nil {next : α → Option α} {a : α} {l : List α}
    (h : Linked next (some a) l) : l ≠ [] := List.ne_nil_of_mem h.head_mem

/-- The walk along a chain, bounded by `n` cells. -/
def walk (next : α → Option α) : Nat → Option α → List α
  | 0, _ => []
  | _ + 1, none => []
  | n + 1, some a => a :: walk next n (next a)

theorem Linked.walk_eq {next : α → Option α} : ∀ {l : List α} {n : Nat} {o : Option α},
    Linked next o l → l.length ≤ n → walk next n o = l
  | [], n, o, h, _ => by
      simp only [Linked, seg_nil] at h
      subst h
      cases n <;> rfl
  | b :: l, n, o, h, hn => by
      simp only [Linked, seg_cons] at h
      obtain ⟨rfl, h⟩ := h
      cases n with
      | zero => simp at hn
      | succ n =>
          rw [List.length_cons] at hn
          rw [walk, Linked.walk_eq h (by omega)]

theorem walk_congr {next next' : α → Option α} {P : α → Prop}
    (hn : ∀ a, P a → next' a = next a) (hP : ∀ a b, P a → next a = some b → P b) :
    ∀ (n : Nat) (o : Option α), (∀ a, o = some a → P a) → walk next' n o = walk next n o
  | 0, _, _ => rfl
  | _ + 1, none, _ => rfl
  | n + 1, some a, h => by
      have ha := h a rfl
      rw [walk, walk, hn a ha]
      exact congrArg _ (walk_congr hn hP n (next a) (fun b hb => hP a b ha hb))

/-- Ending the chain at `a` cuts off what follows. -/
theorem Linked.cut {next : α → Option α} {o : Option α} {l r : List α} {a : α}
    (h : Linked next o (l ++ a :: r)) {next' : α → Option α}
    (ha : next' a = none) (hl : ∀ b ∈ l, next' b = next b) :
    Linked next' o (l ++ [a]) := by
  obtain ⟨m, h1, h2⟩ := seg_append.mp h
  refine seg_append.mpr ⟨m, Seg.congr hl h1, ?_⟩
  simp only [seg_cons] at h2 ⊢
  exact ⟨h2.1, ha⟩

section Update

variable [DecidableEq α]

/-- Linking a cell `j` outside the chain behind its last cell `a`. -/
theorem Linked.snoc {next : α → Option α} {o : Option α} {l : List α} {a j : α}
    (h : Linked next o (l ++ [a])) (hnd : (l ++ [a]).Nodup) (hj : j ∉ l ++ [a]) :
    Linked (Function.update (Function.update next a (some j)) j none) o (l ++ [a] ++ [j]) := by
  have haj : a ≠ j := by rintro rfl; simp at hj
  obtain ⟨m, hl, hm⟩ := seg_append.mp h
  have hma : m = some a := by simp only [seg_cons] at hm; exact hm.1
  have hal : a ∉ l := by
    rw [List.nodup_append] at hnd
    exact fun ha => hnd.2.2 a ha a (List.mem_singleton_self a) rfl
  unfold Linked
  rw [List.append_assoc]
  refine seg_append.mpr ⟨m, Seg.congr (fun b hb => ?_) hl, ?_⟩
  · have hbj : b ≠ j := by rintro rfl; exact hj (List.mem_append_left _ hb)
    have hba : b ≠ a := by rintro rfl; exact hal hb
    rw [Function.update_of_ne hbj, Function.update_of_ne hba]
  · rw [hma]
    simp [Function.update_of_ne haj]

end Update

end EC440.Lib
