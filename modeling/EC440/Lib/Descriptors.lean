/-
  The descriptor table of a process, and the system calls that change it, where they succeed.
  `α` is what a descriptor refers to.

  A call that makes a descriptor takes the lowest number that is free. dup2 of a descriptor that is
  not open fails and changes nothing.
-/
import Mathlib.Data.List.Basic

namespace EC440.Lib

structure Descriptors (α : Type) where
  slots : List (Option α)
  deriving DecidableEq, Repr

namespace Descriptors

variable {α : Type} {d : Descriptors α} {x y : α} {fd fd' : Nat}

/-- What a descriptor refers to, if it is open. -/
def file (d : Descriptors α) (fd : Nat) : Option α := (d.slots[fd]?).join

def lowest (d : Descriptors α) : Nat := d.slots.findIdx Option.isNone

def put (d : Descriptors α) (fd : Nat) (x : α) : Descriptors α :=
  ⟨(d.slots ++ List.replicate (fd + 1 - d.slots.length) none).set fd (some x)⟩

/-- open, creat, and each end of a pipe. -/
def allocate (d : Descriptors α) (x : α) : Nat × Descriptors α := (d.lowest, d.put d.lowest x)

def close (d : Descriptors α) (fd : Nat) : Descriptors α := ⟨d.slots.set fd none⟩

def dup2 (d : Descriptors α) (oldfd newfd : Nat) : Descriptors α :=
  match d.file oldfd with
  | none => d
  | some x => d.put newfd x

def map {β : Type} (f : α → β) (d : Descriptors α) : Descriptors β := ⟨d.slots.map (Option.map f)⟩

theorem file_map {β : Type} (f : α → β) (d : Descriptors α) (fd : Nat) : (d.map f).file fd = (d.file fd).map f := by
  rw [map, file, List.getElem?_map, file]
  cases d.slots[fd]? with
  | none => rfl
  | some x => rfl

theorem file_put_self (d : Descriptors α) (fd : Nat) (x : α) : (d.put fd x).file fd = some x := by
  rw [put, file, List.getElem?_set_self (by simp; omega), Option.join_some]

theorem file_put_ne (d : Descriptors α) (x : α) (hne : fd' ≠ fd) : (d.put fd x).file fd' = d.file fd' := by
  rw [put, file, List.getElem?_set_ne (Ne.symm hne), file]
  rcases Nat.lt_or_ge fd' d.slots.length with hlt | hge
  · rw [List.getElem?_append_left hlt]
  · rw [List.getElem?_append_right hge, List.getElem?_replicate, List.getElem?_eq_none hge]
    split <;> rfl

theorem file_lowest (d : Descriptors α) : d.file d.lowest = none := by
  rw [file, lowest]
  by_cases hlt : d.slots.findIdx Option.isNone < d.slots.length
  · have hnone := List.findIdx_getElem (w := hlt)
    rw [List.getElem?_eq_getElem hlt, Option.join_some]
    exact Option.isNone_iff_eq_none.mp hnone
  · rw [List.getElem?_eq_none (Nat.not_lt.mp hlt)]
    rfl

/-- A descriptor that is open is not taken. -/
theorem lowest_ne (h : d.file fd = some x) : fd ≠ d.lowest := by
  intro heq
  rw [heq, file_lowest] at h
  cases h

theorem file_allocate (d : Descriptors α) (x : α) : (d.allocate x).2.file (d.allocate x).1 = some x :=
  file_put_self d d.lowest x

theorem file_allocate_open (h : d.file fd = some x) : (d.allocate y).2.file fd = some x := by
  rw [allocate, file_put_ne d y (lowest_ne h), h]

theorem file_close_self (d : Descriptors α) (fd : Nat) : (d.close fd).file fd = none := by
  rw [close, file]
  rcases Nat.lt_or_ge fd d.slots.length with hlt | hge
  · rw [List.getElem?_set_self hlt, Option.join_some]
  · rw [List.getElem?_eq_none (by simpa using hge)]
    rfl

theorem file_close_ne (d : Descriptors α) (hne : fd' ≠ fd) : (d.close fd).file fd' = d.file fd' := by
  rw [close, file, List.getElem?_set_ne (Ne.symm hne), file]

theorem dup2_closed (h : d.file fd = none) (fd' : Nat) : d.dup2 fd fd' = d := by
  rw [dup2, h]

theorem file_dup2_ne {newfd : Nat} (d : Descriptors α) (fd : Nat) (hne : fd' ≠ newfd) :
    (d.dup2 fd newfd).file fd' = d.file fd' := by
  cases h : d.file fd with
  | none => rw [dup2_closed h]
  | some x =>
    rw [dup2, h]
    exact file_put_ne d x hne

/-- The new descriptor refers to the file of the old one, or stays as it is. -/
theorem file_dup2_self (d : Descriptors α) (fd newfd : Nat) :
    (d.dup2 fd newfd).file newfd = (d.file fd).or (d.file newfd) := by
  cases h : d.file fd with
  | none => rw [dup2_closed h, Option.none_or]
  | some x =>
    rw [dup2, h]
    exact file_put_self d newfd x

/-! ## Where a descriptor's file comes from -/

theorem of_file_allocate (h : (d.allocate y).2.file fd = some x) : x = y ∨ d.file fd = some x := by
  by_cases hfd : fd = d.lowest
  · rw [hfd, allocate, file_put_self] at h
    exact .inl (Option.some.inj h).symm
  · rw [allocate, file_put_ne d y hfd] at h
    exact .inr h

theorem of_file_close (h : (d.close fd').file fd = some x) : d.file fd = some x := by
  by_cases hfd : fd = fd'
  · rw [hfd, file_close_self] at h
    cases h
  · rwa [file_close_ne d hfd] at h

theorem of_file_dup2 {oldfd newfd : Nat} (h : (d.dup2 oldfd newfd).file fd = some x) : ∃ fd', d.file fd' = some x := by
  by_cases hfd : fd = newfd
  · rw [hfd, file_dup2_self] at h
    cases hold : d.file oldfd with
    | none =>
      rw [hold, Option.none_or] at h
      exact ⟨newfd, h⟩
    | some y =>
      rw [hold, Option.some_or] at h
      exact ⟨oldfd, hold.trans h⟩
  · rw [file_dup2_ne d oldfd hfd] at h
    exact ⟨fd, h⟩

end Descriptors

end EC440.Lib
