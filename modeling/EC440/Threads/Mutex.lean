/-
  pthread_mutex_lock and pthread_mutex_unlock of threads.c, one statement at a time, for any set
  of threads. A region between lock() and unlock(), in which SIGALRM is blocked, is one step.

  The scheduler may switch to any ready thread; schedule() of the code is one of these choices.
  `wait_list` with its tail pointer is a list: insert_tail appends, get_head takes the front.

  pthread_mutex_unlock hands the mutex to the first waiter, but sets the state to 1, which is
  UNLOCKED. A thread that calls pthread_mutex_lock before the waiter has released the mutex again
  finds it free. Mutual exclusion holds in the runs in which no thread does (`mutex_exclusive`).
-/
import EC440.Lib.Run
import EC440.Threads.Scheduler

namespace EC440.Threads

open EC440.Lib

/-- mutex_state; the enumeration gives LOCKED the value 0 and UNLOCKED the value 1. -/
inductive MutexState
  | locked
  | unlocked
  deriving DecidableEq, Repr

/-- Where a thread is: in user code outside and inside its critical section, or before a
    statement of the two functions. -/
inductive Pc
  | user
  | lockTest
  | lockGrab
  | lockWait
  | lockSchedule
  | lockReturn
  | critical
  | unlockTest
  | unlockFree
  | unlockHand
  | unlockSchedule
  | unlockReturn
  deriving DecidableEq, Repr

/-- The thread table, the mutex and the threads' program counters. `handed` is a history
    variable: the thread that the last pthread_mutex_unlock took from the wait list, until that
    thread's own pthread_mutex_unlock. No statement reads it. -/
structure Mutex (ι : Type*) where
  status : ι → Status
  tid : ι
  pc : ι → Pc
  state : MutexState
  waitList : List ι
  handed : Option ι

inductive Input (ι : Type*)
  | lock
  | unlock
  | statement
  | schedule (u : ι)
  | alarm (u : ι)
  deriving DecidableEq, Repr

variable {ι : Type*}

section
variable [DecidableEq ι]

namespace Mutex

def setPc (pc : Pc) (s : Mutex ι) : Mutex ι := { s with pc := Function.update s.pc s.tid pc }

/-- The next statement of the running thread. -/
def statement (s : Mutex ι) : Option (Mutex ι) :=
  match s.pc s.tid with
  | .lockTest => some (s.setPc (if s.state = .unlocked then .lockGrab else .lockWait))
  | .lockGrab => some { s.setPc .critical with state := .locked }
  | .lockWait => some
      { s.setPc .lockSchedule with
        status := Function.update s.status s.tid .blocked
        waitList := s.waitList ++ [s.tid] }
  | .lockReturn => some (s.setPc .critical)
  | .unlockTest => some (s.setPc (if s.waitList = [] then .unlockFree else .unlockHand))
  | .unlockFree => some { s.setPc .user with state := .unlocked, handed := none }
  | .unlockHand =>
      match s.waitList with
      | [] => none
      | nextThread :: rest => some
          { s.setPc .unlockSchedule with
            waitList := rest
            state := .unlocked
            status := Function.update s.status nextThread .ready
            handed := some nextThread }
  | .unlockReturn => some (s.setPc .user)
  | _ => none

/-- schedule(), called by a thread whose program counter becomes `pc`. -/
def switch (pc : Pc) (u : ι) (s : Mutex ι) : Option (Mutex ι) :=
  if preempt s.status s.tid u = .ready then
    some { s.setPc pc with status := switched s.status s.tid u, tid := u }
  else none

def step (s : Mutex ι) : Input ι → Option (Unit × Mutex ι)
  | .lock => if s.pc s.tid = .user then some ((), s.setPc .lockTest) else none
  | .unlock => if s.pc s.tid = .critical then some ((), s.setPc .unlockTest) else none
  | .statement => s.statement.map fun s => ((), s)
  | .schedule u =>
      match s.pc s.tid with
      | .lockSchedule => (s.switch .lockReturn u).map fun s => ((), s)
      | .unlockSchedule => (s.switch .unlockReturn u).map fun s => ((), s)
      | _ => none
  | .alarm u => (s.switch (s.pc s.tid) u).map fun s => ((), s)

end Mutex

end

/-- The mutex is initialised, no thread has called it, and only `tid` runs. -/
structure Mutex.Initial (s : Mutex ι) : Prop where
  pc : ∀ t, s.pc t = .user
  state : s.state = .unlocked
  waitList : s.waitList = []
  handed : s.handed = none
  running : s.status s.tid = .running
  others : ∀ t, t ≠ s.tid → s.status t ≠ .running ∧ s.status t ≠ .blocked

/-- Alarms are taken in user code. -/
def UserAlarm (s : Mutex ι) : Input ι → Prop
  | .alarm _ => s.pc s.tid = .user ∨ s.pc s.tid = .critical
  | _ => True

/-- At most one thread is between the return of its pthread_mutex_lock and the start of its
    pthread_mutex_unlock. -/
def Exclusive (s : Mutex ι) : Prop := ∀ t u, s.pc t = .critical → s.pc u = .critical → t = u

/-- No pthread_mutex_lock is called while a thread that was taken from the wait list has still to
    release the mutex. -/
def NoLockWhileHanded (s : Mutex ι) : Input ι → Prop
  | .lock => s.handed = none
  | _ => True

/-! ## The invariant -/

/-- From the statement that takes the mutex to the one that gives it up. -/
def Pc.Holds : Pc → Prop
  | .lockGrab => True
  | .critical => True
  | .unlockTest => True
  | .unlockFree => True
  | .unlockHand => True
  | _ => False

/-- Inside the two functions; only the running thread is there. -/
def Pc.Transient : Pc → Prop
  | .user => False
  | .critical => False
  | .lockReturn => False
  | .unlockReturn => False
  | _ => True

/-- A thread that holds the mutex or was handed it. -/
def Mutex.Owner (s : Mutex ι) (t : ι) : Prop := (s.pc t).Holds ∨ s.handed = some t

structure Mutex.Inv (s : Mutex ι) : Prop where
  owner : ∀ t u, s.Owner t → s.Owner u → t = u
  free : s.state = .unlocked → s.handed = none → ∀ t, (s.pc t).Holds → s.pc t = .lockGrab
  transient : ∀ t, (s.pc t).Transient → t = s.tid
  test : ∀ t, s.pc t = .lockTest → s.handed = none
  waiting : ∀ t, s.pc t = .lockReturn → t ∈ s.waitList ∨ s.handed = some t
  blocked : ∀ t ∈ s.waitList, s.status t = .blocked ∧ (s.pc t = .lockSchedule ∨ s.pc t = .lockReturn)
  handed : ∀ t, s.handed = some t → t ∉ s.waitList ∧ (s.pc t = .lockReturn ∨ (s.pc t).Holds)
  nodup : s.waitList.Nodup
  run : (s.status s.tid = .running ∧ s.pc s.tid ≠ .lockSchedule) ∨
    (s.status s.tid = .blocked ∧ s.pc s.tid = .lockSchedule ∧ s.tid ∈ s.waitList)

variable {s s' : Mutex ι} {t u : ι}

theorem Mutex.Inv.exclusive (h : s.Inv) : Exclusive s := fun t u ht hu =>
  h.owner t u (.inl (by rw [ht]; trivial)) (.inl (by rw [hu]; trivial))

theorem Mutex.Initial.inv (h : s.Initial) : s.Inv := by
  have hno : ∀ t, ¬ s.Owner t := by
    rintro t (ht | ht)
    · rw [h.pc t] at ht
      exact ht
    · rw [h.handed] at ht
      cases ht
  refine ⟨fun t _ ht _ => absurd ht (hno t), fun _ _ t ht => absurd (.inl ht) (hno t), fun t ht => ?_,
    fun t ht => h.handed, fun t ht => ?_, fun t ht => ?_, fun t ht => absurd (.inr ht) (hno t), ?_,
    .inl ⟨h.running, by rw [h.pc]; simp⟩⟩
  · rw [h.pc t] at ht
    exact ht.elim
  · rw [h.pc t] at ht
    cases ht
  · rw [h.waitList] at ht
    cases ht
  · rw [h.waitList]
    exact List.nodup_nil

/-- A running thread is in no wait list. -/
theorem Mutex.Inv.not_waiting (h : s.Inv) (hpc : s.pc s.tid ≠ .lockSchedule) :
    s.status s.tid = .running ∧ s.tid ∉ s.waitList := by
  obtain ⟨hrun, -⟩ := h.run.resolve_right fun hb => hpc hb.2.1
  refine ⟨hrun, fun hin => ?_⟩
  rw [(h.blocked _ hin).1] at hrun
  cases hrun

/-- The running thread holds the mutex, and so no other does. -/
theorem Mutex.Inv.holds (h : s.Inv) (hp : (s.pc s.tid).Holds) : ∀ t, s.Owner t → t = s.tid :=
  fun t ht => h.owner t s.tid ht (.inl hp)

/-- A thread that was handed the mutex is not elsewhere. -/
theorem Mutex.Inv.not_handed (h : s.Inv) (hret : s.pc t ≠ .lockReturn) (hp : ¬ (s.pc t).Holds) :
    s.handed ≠ some t := fun hha => (h.handed t hha).2.elim hret hp

/-- Without a thread that was handed it, a free mutex has no owner, except before `lockGrab`. -/
theorem Mutex.Inv.no_owner (h : s.Inv) (hst : s.state = .unlocked) (hha : s.handed = none)
    (hpc : s.pc s.tid ≠ .lockGrab) : ¬ s.Owner t := by
  rintro (ht | ht)
  · have hg := h.free hst hha t ht
    rw [h.transient t (by rw [hg]; trivial)] at hg
    exact hpc hg
  · rw [hha] at ht
    cases ht

/-- A thread that is woken and returns was handed the mutex. -/
theorem Mutex.Inv.handed_return (h : s.Inv) (hpc : s.pc s.tid = .lockReturn) : s.handed = some s.tid :=
  (h.waiting _ hpc).resolve_left (h.not_waiting (by rw [hpc]; simp)).2

variable [DecidableEq ι]

theorem Mutex.setPc_self (s : Mutex ι) (p : Pc) : (s.setPc p).pc s.tid = p := Function.update_self _ _ _

theorem Mutex.setPc_of_ne (p : Pc) (h : t ≠ s.tid) : (s.setPc p).pc t = s.pc t := Function.update_of_ne h _ _

/-- The running thread goes on to `p` and leaves the wait list and the statuses alone. -/
theorem Mutex.Inv.local (h : s.Inv) (p : Pc) (st : MutexState) (hpc : s.pc s.tid ≠ .lockSchedule)
    (howner : p.Holds → ∀ t, s.Owner t → t = s.tid) (hst : st = .unlocked → s.state = .unlocked)
    (hfree : p.Holds → st = .unlocked → s.handed = none → p = .lockGrab)
    (htest : p = .lockTest → s.handed = none) (hret : p ≠ .lockReturn) (hsch : p ≠ .lockSchedule)
    (hhanded : s.handed = some s.tid → p.Holds) :
    ({ s.setPc p with state := st } : Mutex ι).Inv := by
  obtain ⟨hrun, hnw⟩ := h.not_waiting hpc
  have hself : ({ s.setPc p with state := st } : Mutex ι).pc s.tid = p := s.setPc_self p
  have hother : ∀ t, t ≠ s.tid → ({ s.setPc p with state := st } : Mutex ι).pc t = s.pc t :=
    fun t ht => s.setPc_of_ne p ht
  have hown : ∀ t, ({ s.setPc p with state := st } : Mutex ι).Owner t → (t = s.tid ∧ p.Holds) ∨ s.Owner t := by
    rintro t (ht | ht)
    · by_cases htt : t = s.tid
      · rw [htt, hself] at ht
        exact .inl ⟨htt, ht⟩
      · rw [hother t htt] at ht
        exact .inr (.inl ht)
    · exact .inr (.inr ht)
  refine
    { owner := fun t u ht hu => ?_
      free := fun hun hha t ht => ?_, transient := fun t ht => ?_, test := fun t ht => ?_
      waiting := fun t ht => ?_, blocked := fun t ht => ?_, handed := fun t ht => ?_
      nodup := h.nodup, run := .inl ⟨hrun, fun hp => hsch (hself.symm.trans hp)⟩ }
  · rcases hown t ht with ⟨rfl, hp⟩ | ht'
    · rcases hown u hu with ⟨rfl, -⟩ | hu'
      · rfl
      · exact (howner hp u hu').symm
    · rcases hown u hu with ⟨rfl, hp⟩ | hu'
      · exact howner hp t ht'
      · exact h.owner t u ht' hu'
  all_goals
    by_cases htt : t = s.tid
  · rw [htt, hself] at ht ⊢
    exact hfree ht hun hha
  · rw [hother t htt] at ht ⊢
    exact h.free (hst hun) hha t ht
  · exact htt
  · rw [hother t htt] at ht
    exact h.transient t ht
  · rw [htt, hself] at ht
    exact htest ht
  · rw [hother t htt] at ht
    exact h.test t ht
  · rw [htt, hself] at ht
    exact absurd ht hret
  · rw [hother t htt] at ht
    exact h.waiting t ht
  · exact absurd (htt ▸ ht) hnw
  · rw [hother t htt]
    exact h.blocked t ht
  · rw [htt, hself]
    exact ⟨hnw, .inr (hhanded (htt ▸ ht))⟩
  · rw [hother t htt]
    exact h.handed t ht

/-- The running thread gives the mutex up, and no other holds it. -/
theorem Mutex.Inv.none_holds (h : s.Inv) (hp : (s.pc s.tid).Holds) {p : Pc} (hq : ¬ p.Holds) (t : ι) :
    ¬ ((s.setPc p).pc t).Holds := by
  intro ht
  by_cases htt : t = s.tid
  · rw [htt, s.setPc_self] at ht
    exact hq ht
  · rw [Mutex.setPc_of_ne _ htt] at ht
    exact htt (h.holds hp t (.inl ht))

/-- pthread_mutex_lock joins the wait list. -/
theorem Mutex.Inv.lockWait (h : s.Inv) (hpc : s.pc s.tid = .lockWait) :
    ({ s.setPc .lockSchedule with
        status := Function.update s.status s.tid .blocked
        waitList := s.waitList ++ [s.tid] } : Mutex ι).Inv := by
  obtain ⟨-, hnw⟩ := h.not_waiting (by rw [hpc]; simp)
  have hha : s.handed ≠ some s.tid := h.not_handed (by rw [hpc]; simp) (by rw [hpc]; exact id)
  have hself := s.setPc_self .lockSchedule
  have hother : ∀ t, t ≠ s.tid → (s.setPc .lockSchedule).pc t = s.pc t := fun t ht => s.setPc_of_ne _ ht
  have hholds : ∀ t, ((s.setPc .lockSchedule).pc t).Holds → (s.pc t).Holds := by
    intro t ht
    by_cases htt : t = s.tid
    · rw [htt, hself] at ht
      exact ht.elim
    · rwa [hother t htt] at ht
  refine
    { owner := fun t u ht hu => h.owner t u (ht.imp_left (hholds t)) (hu.imp_left (hholds u))
      free := fun hst hno t ht => ?_, transient := fun t ht => ?_, test := fun t ht => ?_
      waiting := fun t ht => ?_, blocked := fun t ht => ?_, handed := fun t ht => ?_
      nodup := List.nodup_append.mpr ⟨h.nodup, by simp, fun a ha b hb hab =>
        hnw (by rw [← List.mem_singleton.mp hb, ← hab]; exact ha)⟩
      run := .inr ⟨Function.update_self _ _ _, hself, List.mem_append_right _ (List.mem_singleton_self _)⟩ }
  all_goals
    by_cases htt : t = s.tid
  · rw [htt] at ht
    rw [hself] at ht
    exact ht.elim
  · rw [hother t htt] at ht ⊢
    exact h.free hst hno t ht
  · exact htt
  · rw [hother t htt] at ht
    exact h.transient t ht
  · rw [htt] at ht
    exact absurd (hself.symm.trans ht) (by simp)
  · rw [hother t htt] at ht
    exact h.test t ht
  · rw [htt] at ht
    exact absurd (hself.symm.trans ht) (by simp)
  · rw [hother t htt] at ht
    exact (h.waiting t ht).imp_left (List.mem_append_left _)
  · rw [htt]
    exact ⟨Function.update_self _ _ _, .inl hself⟩
  · obtain ⟨hb, hp⟩ := h.blocked t ((List.mem_append.mp ht).resolve_right fun hm => htt (List.mem_singleton.mp hm))
    rw [← hother t htt] at hp
    exact ⟨(Function.update_of_ne htt _ _).trans hb, hp⟩
  · exact absurd (htt ▸ ht) hha
  · obtain ⟨hn, hp⟩ := h.handed t ht
    rw [← hother t htt] at hp
    refine ⟨fun hin => ?_, hp⟩
    exact (List.mem_append.mp hin).elim hn fun hm => htt (List.mem_singleton.mp hm)

/-- pthread_mutex_unlock without waiters. -/
theorem Mutex.Inv.unlockFree (h : s.Inv) (hpc : s.pc s.tid = .unlockFree) :
    ({ s.setPc .user with state := .unlocked, handed := none } : Mutex ι).Inv := by
  have hall := h.holds (by rw [hpc]; trivial)
  obtain ⟨hrun, hnw⟩ := h.not_waiting (by rw [hpc]; simp)
  have hself := s.setPc_self .user
  have hno : ∀ t, ¬ ((s.setPc .user).pc t).Holds := h.none_holds (by rw [hpc]; trivial) id
  refine
    { owner := fun t u ht => ?_
      free := fun _ _ t ht => absurd ht (hno t)
      transient := fun t ht => ?_
      test := fun _ _ => rfl
      waiting := fun t ht => ?_
      blocked := fun t ht => ?_
      handed := fun t ht => by cases ht
      nodup := h.nodup
      run := .inl ⟨hrun, fun hp => absurd (hself.symm.trans hp) (by simp)⟩ }
  · exact ht.elim (fun ht => absurd ht (hno t)) fun ht => by cases ht
  all_goals
    by_cases htt : t = s.tid
  · exact htt
  · exact h.transient t (by rw [← Mutex.setPc_of_ne .user htt]; exact ht)
  · rw [htt] at ht
    exact absurd (hself.symm.trans ht) (by simp)
  · have hret : s.pc t = .lockReturn := (Mutex.setPc_of_ne .user htt).symm.trans ht
    exact .inl ((h.waiting t hret).resolve_right fun hha => htt (hall t (.inr hha)))
  · exact absurd (htt ▸ ht) hnw
  · have hb := h.blocked t ht
    rw [← Mutex.setPc_of_ne .user htt] at hb
    exact hb

/-- pthread_mutex_unlock hands the mutex to the first waiter. -/
theorem Mutex.Inv.unlockHand (h : s.Inv) (hpc : s.pc s.tid = .unlockHand) {nextThread : ι} {rest : List ι}
    (hw : s.waitList = nextThread :: rest) :
    ({ s.setPc .unlockSchedule with
        waitList := rest
        state := .unlocked
        status := Function.update s.status nextThread .ready
        handed := some nextThread } : Mutex ι).Inv := by
  have hall := h.holds (by rw [hpc]; trivial)
  obtain ⟨hrun, hnw⟩ := h.not_waiting (by rw [hpc]; simp)
  have hself := s.setPc_self .unlockSchedule
  have hmem : ∀ t, t ∈ s.waitList ↔ t = nextThread ∨ t ∈ rest := by
    rw [hw]
    simp
  have hnd : nextThread ∉ rest ∧ rest.Nodup := by
    have := h.nodup
    rw [hw] at this
    exact List.nodup_cons.mp this
  have hnext : nextThread ≠ s.tid := fun hn => hnw ((hmem _).mpr (.inl hn.symm))
  have hpn : s.pc nextThread = .lockReturn := by
    refine (h.blocked nextThread ((hmem _).mpr (.inl rfl))).2.resolve_left fun hs => hnext ?_
    exact h.transient nextThread (by rw [hs]; trivial)
  have hno : ∀ t, ¬ ((s.setPc .unlockSchedule).pc t).Holds := h.none_holds (by rw [hpc]; trivial) id
  have hown : ∀ t, ((s.setPc .unlockSchedule).pc t).Holds ∨ some nextThread = some t → t = nextThread :=
    fun t ht => (Option.some.inj (ht.resolve_left (hno t))).symm
  refine
    { owner := fun t u ht hu => (hown t ht).trans (hown u hu).symm
      free := fun _ hha => by cases hha
      transient := fun t ht => ?_
      test := fun t ht => ?_
      waiting := fun t ht => ?_
      blocked := fun t ht => ?_
      handed := fun t ht => ?_
      nodup := hnd.2
      run := .inl ⟨(Function.update_of_ne hnext.symm _ _).trans hrun,
        fun hp => absurd (hself.symm.trans hp) (by simp)⟩ }
  all_goals
    by_cases htt : t = s.tid
  · exact htt
  · exact h.transient t (by rw [← Mutex.setPc_of_ne .unlockSchedule htt]; exact ht)
  · rw [htt] at ht
    exact absurd (hself.symm.trans ht) (by simp)
  · have htest : s.pc t = .lockTest := (Mutex.setPc_of_ne .unlockSchedule htt).symm.trans ht
    exact absurd (h.transient t (by rw [htest]; trivial)) htt
  · rw [htt] at ht
    exact absurd (hself.symm.trans ht) (by simp)
  · have hret : s.pc t = .lockReturn := (Mutex.setPc_of_ne .unlockSchedule htt).symm.trans ht
    have hin := (h.waiting t hret).resolve_right fun hha => htt (hall t (.inr hha))
    rcases (hmem t).mp hin with rfl | hin
    · exact .inr rfl
    · exact .inl hin
  · exact absurd ((hmem t).mpr (.inr ht)) (htt ▸ hnw)
  · obtain ⟨hb, hp⟩ := h.blocked t ((hmem t).mpr (.inr ht))
    have hne : t ≠ nextThread := fun hn => hnd.1 (hn ▸ ht)
    rw [← Mutex.setPc_of_ne .unlockSchedule htt] at hp
    exact ⟨(Function.update_of_ne hne _ _).trans hb, hp⟩
  · exact absurd ((Option.some.inj ht).trans htt) hnext
  · obtain rfl := Option.some.inj ht
    exact ⟨hnd.1, .inl ((Mutex.setPc_of_ne .unlockSchedule htt).trans hpn)⟩

/-- What a switch does: the thread that ran stops at `p`, and `u` runs. -/
structure Mutex.Switched (s : Mutex ι) (p : Pc) (u : ι) (s' : Mutex ι) : Prop where
  ready : preempt s.status s.tid u = .ready
  self : s'.pc s.tid = p
  other : ∀ t, t ≠ s.tid → s'.pc t = s.pc t
  waitList : s'.waitList = s.waitList
  handed : s'.handed = s.handed
  state : s'.state = s.state
  status : s'.status = switched s.status s.tid u
  running : s'.status s'.tid = .running

theorem Mutex.switched_of_switch {p : Pc} (hs : s.switch p u = some s') : s.Switched p u s' := by
  unfold Mutex.switch at hs
  split at hs
  · next hu =>
    rw [Option.some.injEq] at hs
    subst hs
    exact ⟨hu, s.setPc_self p, fun t ht => s.setPc_of_ne p ht, rfl, rfl, rfl, rfl, switched_self⟩
  · cases hs

/-- The program counter of a thread that is switched out, from the one it had. -/
def Leaves (pc p : Pc) : Prop :=
  (pc = p ∧ (p = .user ∨ p = .critical)) ∨ (pc = .lockSchedule ∧ p = .lockReturn) ∨
    (pc = .unlockSchedule ∧ p = .unlockReturn)

section
variable {pc p : Pc} (h : Leaves pc p)
include h

theorem Leaves.holds : p.Holds ↔ pc.Holds := by
  rcases h with ⟨rfl, -⟩ | ⟨rfl, rfl⟩ | ⟨rfl, rfl⟩ <;> exact Iff.rfl

theorem Leaves.not_transient : ¬ p.Transient := by
  rcases h with ⟨-, rfl | rfl⟩ | ⟨-, rfl⟩ | ⟨-, rfl⟩ <;> exact id

theorem Leaves.lockReturn : p = .lockReturn ↔ pc = .lockSchedule := by
  rcases h with ⟨rfl, rfl | rfl⟩ | ⟨rfl, rfl⟩ | ⟨rfl, rfl⟩ <;> simp

/-- No thread is switched out between taking the mutex and the return of pthread_mutex_lock. -/
theorem Leaves.ne : pc ≠ .lockGrab ∧ pc ≠ .lockReturn := by
  rcases h with ⟨rfl, rfl | rfl⟩ | ⟨rfl, -⟩ | ⟨rfl, -⟩ <;> simp

end

/-- A switch to a ready thread. -/
theorem Mutex.Inv.switch (h : s.Inv) {p : Pc} (hp : Leaves (s.pc s.tid) p) (hs : s.switch p u = some s') :
    s'.Inv := by
  obtain ⟨hu, hself, hother, hwait, hhand, hstate, hstatus, hrunning⟩ := Mutex.switched_of_switch hs
  have hholds : ∀ t, (s'.pc t).Holds ↔ (s.pc t).Holds := by
    intro t
    by_cases htt : t = s.tid
    · rw [htt, hself]
      exact hp.holds
    · rw [hother t htt]
  have hnt : ∀ t, ¬ (s'.pc t).Transient := by
    intro t ht
    by_cases htt : t = s.tid
    · rw [htt, hself] at ht
      exact hp.not_transient ht
    · rw [hother t htt] at ht
      exact htt (h.transient t ht)
  -- a thread that waits is blocked, and the thread switched to is not
  have hblocked : ∀ t ∈ s.waitList, s'.status t = .blocked := fun t ht => by
    rw [hstatus]
    exact (switched_blocked hu).mpr (h.blocked t ht).1
  refine
    { owner := fun t v ht hv => ?_
      free := fun hst hha t ht => ?_
      transient := fun t ht => absurd ht (hnt t)
      test := fun t ht => absurd (by rw [ht]; trivial) (hnt t)
      waiting := fun t ht => ?_
      blocked := fun t ht => ?_
      handed := fun t ht => ?_
      nodup := hwait ▸ h.nodup
      run := .inl ⟨hrunning, fun hsc => hnt _ (by rw [hsc]; trivial)⟩ }
  · unfold Mutex.Owner at ht hv
    rw [hholds, hhand] at ht hv
    exact h.owner t v ht hv
  · have hg := h.free (hstate ▸ hst) (hhand ▸ hha) t ((hholds t).mp ht)
    rw [h.transient t (by rw [hg]; trivial)] at hg
    exact absurd hg hp.ne.1
  · rw [hwait, hhand]
    by_cases htt : t = s.tid
    · rw [htt, hself, hp.lockReturn] at ht
      obtain ⟨-, hne⟩ | ⟨-, -, hin⟩ := h.run
      · exact absurd ht hne
      · exact .inl (htt ▸ hin)
    · rw [hother t htt] at ht
      exact h.waiting t ht
  · rw [hwait] at ht
    refine ⟨hblocked t ht, ?_⟩
    by_cases htt : t = s.tid
    · have hsc : s.pc s.tid = .lockSchedule := by
        by_contra hne
        exact (h.not_waiting hne).2 (htt ▸ ht)
      rw [htt, hself]
      exact .inr (hp.lockReturn.mpr hsc)
    · rw [hother t htt]
      exact (h.blocked t ht).2
  · rw [hhand] at ht
    obtain ⟨hn, hpc⟩ := h.handed t ht
    refine ⟨hwait ▸ hn, hpc.imp (fun hret => ?_) (hholds t).mpr⟩
    by_cases htt : t = s.tid
    · exact absurd (htt ▸ hret) hp.ne.2
    · rw [hother t htt]
      exact hret

/-! ## Runs -/

/-- One statement of the running thread. -/
theorem Mutex.Inv.statement (h : s.Inv) (hs : s.statement = some s') : s'.Inv := by
  have hstep : ∀ p : Pc, p ≠ .lockTest → p ≠ .lockReturn → p ≠ .lockSchedule → s.pc s.tid ≠ .lockSchedule →
      (p.Holds → s.Owner s.tid) → (s.pc s.tid ≠ .lockReturn → p.Holds → (s.pc s.tid).Holds ∧ s.pc s.tid ≠ .lockGrab) →
      (s.handed = some s.tid → p.Holds) → (s.setPc p).Inv := by
    intro p h1 h2 h3 hpc hown hsame hha
    refine h.local p s.state hpc (fun hp t ht => h.owner t _ ht (hown hp)) id (fun hp hst hno => ?_)
      (fun hp => absurd hp h1) h2 h3 hha
    by_cases hret : s.pc s.tid = .lockReturn
    · rw [h.handed_return hret] at hno
      cases hno
    · obtain ⟨hh, hg⟩ := hsame hret hp
      exact absurd (h.free hst hno _ hh) hg
  unfold Mutex.statement at hs
  split at hs
  case h_1 hpc =>
    rw [Option.some.injEq] at hs
    rw [← hs]
    by_cases hst : s.state = .unlocked
    · rw [if_pos hst]
      have hno := h.test _ hpc
      refine h.local .lockGrab s.state (by rw [hpc]; simp) (fun _ t ht => ?_) id (fun _ _ _ => rfl) (by simp)
        (by simp) (by simp) (fun _ => trivial)
      exact absurd ht (h.no_owner hst hno (by rw [hpc]; simp))
    · rw [if_neg hst]
      refine hstep .lockWait (by simp) (by simp) (by simp) (by rw [hpc]; simp) (by rintro ⟨⟩)
        (fun _ hh => hh.elim) (fun hha => ?_)
      rw [h.test _ hpc] at hha
      cases hha
  case h_2 hpc =>
    rw [Option.some.injEq] at hs
    rw [← hs]
    exact h.local .critical .locked (by rw [hpc]; simp) (fun _ => h.holds (by rw [hpc]; trivial)) (by simp)
      (by simp) (by simp) (by simp) (by simp) (fun _ => trivial)
  case h_3 hpc =>
    rw [Option.some.injEq] at hs
    rw [← hs]
    exact h.lockWait hpc
  case h_4 hpc =>
    rw [Option.some.injEq] at hs
    rw [← hs]
    exact hstep .critical (by simp) (by simp) (by simp) (by rw [hpc]; simp)
      (fun _ => .inr (h.handed_return hpc)) (fun hne => absurd hpc hne) (fun _ => trivial)
  case h_5 hpc =>
    rw [Option.some.injEq] at hs
    rw [← hs]
    have hhold : (s.pc s.tid).Holds := by rw [hpc]; trivial
    split
    · exact hstep .unlockFree (by simp) (by simp) (by simp) (by rw [hpc]; simp) (fun _ => .inl hhold)
        (fun _ _ => ⟨hhold, by rw [hpc]; simp⟩) (fun _ => trivial)
    · exact hstep .unlockHand (by simp) (by simp) (by simp) (by rw [hpc]; simp) (fun _ => .inl hhold)
        (fun _ _ => ⟨hhold, by rw [hpc]; simp⟩) (fun _ => trivial)
  case h_6 hpc =>
    rw [Option.some.injEq] at hs
    rw [← hs]
    exact h.unlockFree hpc
  case h_7 hpc =>
    split at hs
    · cases hs
    · next nextThread rest hw =>
      rw [Option.some.injEq] at hs
      rw [← hs]
      exact h.unlockHand hpc hw
  case h_8 hpc =>
    rw [Option.some.injEq] at hs
    rw [← hs]
    refine hstep .user (by simp) (by simp) (by simp) (by rw [hpc]; simp) (by rintro ⟨⟩) (fun _ hh => hh.elim)
      (fun hha => absurd hha (h.not_handed (by rw [hpc]; simp) (by rw [hpc]; exact id)))
  case h_9 => cases hs

/-- One step with alarms in user code only and no pthread_mutex_lock while the mutex is handed on. -/
theorem Mutex.Inv.step (h : s.Inv) {i : Input ι} (halarm : UserAlarm s i) (hlock : NoLockWhileHanded s i)
    (hs : s.step i = some ((), s')) : s'.Inv := by
  cases i with
  | lock =>
    simp only [Mutex.step] at hs
    split at hs
    · next hpc =>
      simp only [Option.some.injEq, Prod.mk.injEq, true_and] at hs
      rw [← hs]
      refine h.local .lockTest s.state (by rw [hpc]; simp) (by rintro ⟨⟩) id (by rintro ⟨⟩) (fun _ => hlock)
        (by simp) (by simp) (fun hha => ?_)
      rw [show s.handed = none from hlock] at hha
      cases hha
    · cases hs
  | unlock =>
    simp only [Mutex.step] at hs
    split at hs
    · next hpc =>
      simp only [Option.some.injEq, Prod.mk.injEq, true_and] at hs
      rw [← hs]
      have hhold : (s.pc s.tid).Holds := by rw [hpc]; trivial
      refine h.local .unlockTest s.state (by rw [hpc]; simp) (fun _ => h.holds hhold) id (fun _ hst hno => ?_)
        (by simp) (by simp) (by simp) (fun _ => trivial)
      have hg := h.free hst hno _ hhold
      rw [hpc] at hg
      cases hg
    · cases hs
  | statement =>
    obtain ⟨s₁, h₁, hs⟩ := Option.map_eq_some_iff.mp hs
    simp only [Prod.mk.injEq, true_and] at hs
    rw [← hs]
    exact h.statement h₁
  | schedule u =>
    simp only [Mutex.step] at hs
    split at hs
    · next hpc =>
      obtain ⟨s₁, h₁, hs⟩ := Option.map_eq_some_iff.mp hs
      simp only [Prod.mk.injEq, true_and] at hs
      rw [← hs]
      exact h.switch (.inr (.inl ⟨hpc, rfl⟩)) h₁
    · next hpc =>
      obtain ⟨s₁, h₁, hs⟩ := Option.map_eq_some_iff.mp hs
      simp only [Prod.mk.injEq, true_and] at hs
      rw [← hs]
      exact h.switch (.inr (.inr ⟨hpc, rfl⟩)) h₁
    · cases hs
  | alarm u =>
    obtain ⟨s₁, h₁, hs⟩ := Option.map_eq_some_iff.mp hs
    simp only [Prod.mk.injEq, true_and] at hs
    rw [← hs]
    exact h.switch (.inl ⟨rfl, halarm⟩) h₁

/-- In every run, under every order of switches, in which no pthread_mutex_lock is called between
    a pthread_mutex_unlock that wakes a waiter and the pthread_mutex_unlock of that waiter, at most
    one thread is in its critical section. -/
theorem mutex_exclusive {s₀ : Mutex ι} (h₀ : s₀.Initial) {es : List (Input ι × Unit)}
    (hrun : Run (Guarded Mutex.step fun s i => UserAlarm s i ∧ NoLockWhileHanded s i) s₀ es s) :
    Exclusive s := by
  refine (hrun.invariant (I := Mutex.Inv) h₀.inv ?_).exclusive
  intro s e s' hs ⟨⟨halarm, hlock⟩, hstep⟩
  exact hs.step halarm hlock hstep

/-! ## The scheduler of the code -/

/-- The switches of schedule(). -/
def RoundRobin (s : Mutex Tid) : Input Tid → Prop
  | .schedule u => pick s.status s.tid = some u
  | .alarm u => pick s.status s.tid = some u
  | _ => True

instance (s : Mutex Tid) : DecidablePred (RoundRobin s)
  | .lock => inferInstanceAs (Decidable True)
  | .unlock => inferInstanceAs (Decidable True)
  | .statement => inferInstanceAs (Decidable True)
  | .schedule u => inferInstanceAs (Decidable (pick s.status s.tid = some u))
  | .alarm u => inferInstanceAs (Decidable (pick s.status s.tid = some u))

instance (s : Mutex ι) : DecidablePred (UserAlarm s)
  | .lock => inferInstanceAs (Decidable True)
  | .unlock => inferInstanceAs (Decidable True)
  | .statement => inferInstanceAs (Decidable True)
  | .schedule _ => inferInstanceAs (Decidable True)
  | .alarm _ => inferInstanceAs (Decidable (_ ∨ _))

instance (s : Mutex ι) : DecidablePred (NoLockWhileHanded s)
  | .lock => inferInstanceAs (Decidable (s.handed = none))
  | .unlock => inferInstanceAs (Decidable True)
  | .statement => inferInstanceAs (Decidable True)
  | .schedule _ => inferInstanceAs (Decidable True)
  | .alarm _ => inferInstanceAs (Decidable True)

/-- Threads 0, 1 and 2 are ready to go; 0 runs. -/
def threeThreads : Mutex Tid where
  status := fun t => if t = mainTid then .running else if t.val < 3 then .ready else .empty
  tid := mainTid
  pc := fun _ => .user
  state := .unlocked
  waitList := []
  handed := none

theorem threeThreads_initial : threeThreads.Initial := by
  refine ⟨fun _ => rfl, rfl, rfl, rfl, rfl, fun t ht => ?_⟩
  have hne : t ≠ mainTid := ht
  simp only [threeThreads, if_neg hne]
  split <;> exact ⟨by simp, by simp⟩

theorem run_of_inputs (G : Mutex Tid → Input Tid → Prop) [∀ s, DecidablePred (G s)] (is : List (Input Tid))
    (p : Mutex Tid → Bool)
    (h : ((exec Mutex.step (fun s i => decide (G s i)) threeThreads is).map fun q => p q.2) = some true) :
    ∃ es s, Run (Guarded Mutex.step G) threeThreads es s ∧ p s = true := by
  obtain ⟨⟨es, s⟩, he, hp⟩ := Option.map_eq_some_iff.mp h
  exact ⟨[] ++ es, s, exec_run (fun s i _ h => of_decide_eq_true h) .start he, hp⟩

/-- Thread 1 waits for thread 0, is handed the mutex and releases it; then thread 2 locks it. -/
theorem mutex_exclusive_handover : ∃ es s,
    Run (Guarded Mutex.step fun s i => UserAlarm s i ∧ NoLockWhileHanded s i) threeThreads es s ∧
      Exclusive s ∧ s.pc 2 = .critical := by
  obtain ⟨es, s, hrun, hp⟩ := run_of_inputs (fun s i => UserAlarm s i ∧ NoLockWhileHanded s i)
    [.lock, .statement, .statement, .alarm 1, .lock, .statement, .statement, .schedule 0, .unlock, .statement,
      .statement, .schedule 1, .statement, .unlock, .statement, .statement, .alarm 2, .lock, .statement,
      .statement] (fun s => decide (s.pc 2 = .critical)) (by decide +kernel)
  exact ⟨es, s, hrun, mutex_exclusive threeThreads_initial hrun, of_decide_eq_true hp⟩

/-- Under round robin: thread 1 waits for thread 0 and is handed the mutex; an alarm in its
    critical section lets thread 2 in. -/
theorem handover_breaks_exclusion :
    ¬ ∀ (s₀ s : Mutex Tid) (es : List (Input Tid × Unit)), s₀.Initial →
      Run (Guarded Mutex.step fun s i => UserAlarm s i ∧ RoundRobin s i) s₀ es s → Exclusive s := by
  intro hall
  obtain ⟨es, s, hrun, hp⟩ := run_of_inputs (fun s i => UserAlarm s i ∧ RoundRobin s i)
    [.lock, .statement, .statement, .alarm 1, .lock, .statement, .statement, .schedule 2, .alarm 0, .unlock,
      .statement, .statement, .schedule 1, .statement, .alarm 2, .lock, .statement, .statement]
    (fun s => decide (s.pc 1 = .critical ∧ s.pc 2 = .critical)) (by decide +kernel)
  obtain ⟨h1, h2⟩ := of_decide_eq_true hp
  exact absurd (hall _ s es threeThreads_initial hrun 1 2 h1 h2) (by decide)

end EC440.Threads
