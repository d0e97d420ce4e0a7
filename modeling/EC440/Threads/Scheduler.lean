/-
  The scheduler of threads.c: the statuses of the thread table and the round-robin search of
  schedule(). What a thread does when it is switched back in (its saved registers) is kept by
  the models that use the scheduler, as a program counter for each thread.
-/
import Mathlib.Data.Fin.Basic
import Mathlib.Logic.Function.Basic

namespace EC440.Threads

inductive Status
  | exited
  | running
  | ready
  | empty
  | blocked
  deriving DecidableEq, Repr

def maxThreads : Nat := 128

/-- A slot of TCB_Table. -/
abbrev Tid := Fin 128

/-- The slot of the thread that runs main. -/
def mainTid : Tid := ⟨0, by decide⟩

/-- The first statement of schedule(): a running thread becomes ready. -/
def preempt {ι : Type*} [DecidableEq ι] (status : ι → Status) (tid : ι) : ι → Status :=
  if status tid = .running then Function.update status tid .ready else status

/-- `current_tid` in the loop of schedule(). -/
def nextTid (t : Tid) : Tid := if h : t.val = maxThreads - 1 then 0 else ⟨t.val + 1, by
  have := t.isLt
  unfold maxThreads at h
  omega⟩

/-- The loop of schedule(). It goes round the table, so it ends within `maxThreads` rounds or
    never; `none` is the loop that does not end. -/
def search (status : Tid → Status) : Nat → Tid → Option Tid
  | 0, _ => none
  | n + 1, t => if status (nextTid t) = .ready then some (nextTid t) else search status n (nextTid t)

/-- The thread schedule() switches to. -/
def pick (status : Tid → Status) (tid : Tid) : Option Tid := search (preempt status tid) maxThreads tid

/-! ## A switch to any ready thread -/

section
variable {ι : Type*} [DecidableEq ι] {status : ι → Status} {t u v : ι}

/-- The statuses after a switch from `t` to `u`. -/
def switched (status : ι → Status) (t u : ι) : ι → Status :=
  Function.update (preempt status t) u .running

theorem preempt_self (h : status t = .running) : preempt status t t = .ready := by
  rw [preempt, if_pos h, Function.update_self]

theorem preempt_of_ne (h : u ≠ t) : preempt status t u = status u := by
  unfold preempt
  split
  · exact Function.update_of_ne h _ _
  · rfl

theorem preempt_not_running (h : status t ≠ .running) : preempt status t = status := if_neg h

theorem preempt_ready_of_ne (h : preempt status t u = .ready) (hne : u ≠ t) : status u = .ready := by
  rwa [preempt_of_ne hne] at h

theorem switched_self : switched status t u u = .running := Function.update_self _ _ _

theorem switched_of_ne (h : v ≠ u) : switched status t u v = preempt status t v := Function.update_of_ne h _ _

theorem switched_blocked (hu : preempt status t u = .ready) :
    switched status t u v = .blocked ↔ status v = .blocked := by
  by_cases hvu : v = u
  · rw [hvu, switched_self]
    refine iff_of_false (by simp) fun hb => ?_
    by_cases hut : u = t
    · rw [hut, preempt_not_running (by rw [← hut, hb]; simp), ← hut, hb] at hu
      cases hu
    · rw [preempt_of_ne hut, hb] at hu
      cases hu
  · rw [switched_of_ne hvu]
    by_cases hvt : v = t
    · rw [hvt]
      by_cases hr : status t = .running
      · rw [preempt_self hr, hr]
        simp
      · rw [preempt_not_running hr]
    · rw [preempt_of_ne hvt]

/-- Only the thread switched to runs, if only the one switched from did. -/
theorem switched_running (h : ∀ v, status v = .running → v = t) (hv : switched status t u v = .running) :
    v = u := by
  by_contra hvu
  rw [switched_of_ne hvu] at hv
  by_cases hvt : v = t
  · rw [hvt] at hv
    by_cases hr : status t = .running
    · rw [preempt_self hr] at hv
      cases hv
    · rw [preempt_not_running hr] at hv
      exact hr hv
  · rw [preempt_of_ne hvt] at hv
    exact hvt (h v hv)

end

/-! ## The round-robin search -/

/-- The slot `k` places after `t`. -/
def after (t : Tid) (k : Nat) : Tid := ⟨(t.val + k) % 128, Nat.mod_lt _ (by decide)⟩

/-- How far the search of schedule() has to go from `t` to `u`: 1 to 128. -/
def rounds (t u : Tid) : Nat := (u.val + 127 - t.val) % 128 + 1

/-- How far `u` is ahead of `t`: 0 to 127. -/
def distance (t u : Tid) : Nat := (u.val + 128 - t.val) % 128

theorem after_rounds (t u : Tid) : after t (rounds t u) = u := by
  apply Fin.ext
  have ht := t.isLt
  have hu := u.isLt
  simp only [after, rounds]
  omega

theorem rounds_after {t : Tid} {k : Nat} (h1 : 1 ≤ k) (h2 : k ≤ 128) : rounds t (after t k) = k := by
  have ht := t.isLt
  simp only [after, rounds]
  omega

theorem nextTid_eq (t : Tid) : nextTid t = after t 1 := by
  apply Fin.ext
  have ht := t.isLt
  unfold nextTid maxThreads
  split
  · next h =>
    simp only [after, h]
    rfl
  · simp only [after]
    omega

theorem after_after (t : Tid) (j k : Nat) : after (after t j) k = after t (j + k) := by
  apply Fin.ext
  simp only [after]
  omega

/-- schedule() finds the first ready slot after `t`. -/
theorem search_spec {status : Tid → Status} {n : Nat} {t u : Tid} (h : search status n t = some u) :
    ∃ k, 1 ≤ k ∧ k ≤ n ∧ u = after t k ∧ status u = .ready ∧
      ∀ j, 1 ≤ j → j < k → status (after t j) ≠ .ready := by
  induction n generalizing t with
  | zero => cases h
  | succ n ih =>
    rw [search, nextTid_eq] at h
    split at h
    · next hr =>
      rw [Option.some.injEq] at h
      exact ⟨1, le_rfl, by omega, h.symm, h ▸ hr, fun j h1 h2 => by omega⟩
    · next hr =>
      obtain ⟨k, h1, h2, hu, hready, hskip⟩ := ih h
      refine ⟨k + 1, by omega, by omega, ?_, hready, fun j hj1 hj2 => ?_⟩
      · rw [hu, after_after, Nat.add_comm]
      · by_cases hj : j = 1
        · rw [hj]
          exact hr
        · have hskip' := hskip (j - 1) (by omega) (by omega)
          rw [after_after, show 1 + (j - 1) = j by omega] at hskip'
          exact hskip'

theorem pick_ready {status : Tid → Status} {t u : Tid} (h : pick status t = some u) :
    preempt status t u = .ready := by
  obtain ⟨_, -, -, -, hready, -⟩ := search_spec h
  exact hready

/-- The search ends when there is a ready slot. -/
theorem search_returns {status : Tid → Status} {n k : Nat} {t : Tid} (h1 : 1 ≤ k) (hn : k ≤ n)
    (hr : status (after t k) = .ready) : ∃ u, search status n t = some u := by
  induction n generalizing t k with
  | zero => omega
  | succ n ih =>
    rw [search, nextTid_eq]
    split
    · exact ⟨_, rfl⟩
    · next hne =>
      have hk : k ≠ 1 := fun hk => hne (hk ▸ hr)
      refine ih (k := k - 1) (by omega) (by omega) ?_
      rw [after_after, show 1 + (k - 1) = k by omega]
      exact hr

theorem pick_returns {status : Tid → Status} {t u : Tid} (hr : preempt status t u = .ready) :
    ∃ v, pick status t = some v := by
  have hle : rounds t u ≤ 128 := by unfold rounds; omega
  refine search_returns (k := rounds t u) (Nat.le_add_left 1 _) hle ?_
  rw [after_rounds]
  exact hr

/-- No ready thread is passed over. -/
theorem pick_first {status : Tid → Status} {t u v : Tid} (h : pick status t = some u)
    (hv : preempt status t v = .ready) : rounds t u ≤ rounds t v := by
  obtain ⟨k, h1, h2, hu, -, hskip⟩ := search_spec h
  have h2' : k ≤ 128 := h2
  rw [hu, rounds_after h1 h2']
  by_contra hlt
  have hpos : 1 ≤ rounds t v := Nat.le_add_left 1 _
  refine hskip (rounds t v) hpos (by omega) ?_
  rw [after_rounds]
  exact hv

/-- A switch keeps the order in which the ready threads come up. -/
theorem pick_order {status : Tid → Status} {t u v w : Tid} (h : pick status t = some u)
    (hv : preempt status t v = .ready) (hvw : rounds t v < rounds t w) : distance u v < distance u w := by
  have hle := pick_first h hv
  have ht := t.isLt
  have hu := u.isLt
  have hv' := v.isLt
  have hw := w.isLt
  unfold rounds at hle hvw
  unfold distance
  omega

theorem rounds_eq_distance {t u : Tid} (h : t ≠ u) : rounds t u = distance t u := by
  have ht := t.isLt
  have hu := u.isLt
  have hne : t.val ≠ u.val := fun he => h (Fin.ext he)
  unfold rounds distance
  omega

theorem distance_self (t : Tid) : distance t t = 0 := by
  have ht := t.isLt
  unfold distance
  omega

theorem rounds_self (t : Tid) : rounds t t = 128 := by
  have ht := t.isLt
  unfold rounds
  omega

theorem rounds_lt {t u : Tid} (h : u ≠ t) : rounds t u < 128 := by
  have ht := t.isLt
  have hu := u.isLt
  have hne : t.val ≠ u.val := fun he => h (Fin.ext he.symm)
  unfold rounds
  omega

end EC440.Threads
