/-
  Waiters of a mutex, with alarms between any two statements.

  pthread_mutex_lock and pthread_mutex_unlock look at the mutex first and mask the alarm only for
  the change that follows. A thread that found the mutex locked may join the wait list after it
  was freed, and a thread that found the wait list empty may free the mutex after another thread
  has joined it; nobody is then left to wake the waiter. As long as what a thread found is still
  so when it acts (`StillTrue`), every waiter has a thread that will take it from the list.
-/
import EC440.Threads.Mutex

namespace EC440.Threads

open EC440.Lib

variable {ι : Type*} {s s' : Mutex ι} {t u : ι}

/-- A thread that holds the mutex or is about to, that has been taken from the wait list and has
    not returned, or that is in pthread_mutex_unlock before its change. -/
def Mutex.Keeper (s : Mutex ι) (u : ι) : Prop :=
  (s.pc u).Holds ∨ ((s.pc u = .lockSchedule ∨ s.pc u = .lockReturn) ∧ u ∉ s.waitList)

/-- A thread that blocks itself still finds the mutex locked, and one that frees the mutex still
    finds the wait list empty. -/
def StillTrue (s : Mutex ι) : Input ι → Prop
  | .statement => (s.pc s.tid = .lockWait → s.state = .locked) ∧ (s.pc s.tid = .unlockFree → s.waitList = [])
  | _ => True

structure Mutex.Queued (s : Mutex ι) : Prop where
  blocked : ∀ t ∈ s.waitList, s.status t = .blocked ∧ (s.pc t = .lockSchedule ∨ s.pc t = .lockReturn)
  nodup : s.waitList.Nodup
  run : s.status s.tid = .running ∨ (s.status s.tid = .blocked ∧ s.pc s.tid = .lockSchedule)
  locked : s.state = .locked → ∃ u, (s.pc u).Holds
  keeper : s.waitList ≠ [] → ∃ u, s.Keeper u

theorem Mutex.Initial.queued (h : s.Initial) : s.Queued where
  blocked := fun t ht => by rw [h.waitList] at ht; cases ht
  nodup := by rw [h.waitList]; exact List.nodup_nil
  run := .inl h.running
  locked := fun hl => by rw [h.state] at hl; cases hl
  keeper := fun hne => absurd h.waitList hne

/-- A thread that runs a statement is in no wait list. -/
theorem Mutex.Queued.not_waiting (h : s.Queued) (hpc : s.pc s.tid ≠ .lockSchedule) :
    s.status s.tid = .running ∧ s.tid ∉ s.waitList := by
  have hrun := h.run.resolve_right fun hb => hpc hb.2
  refine ⟨hrun, fun hin => ?_⟩
  rw [(h.blocked _ hin).1] at hrun
  cases hrun

variable [DecidableEq ι]

/-- The running thread goes on to `p`, in no wait list. -/
theorem Mutex.Queued.local (h : s.Queued) (p : Pc) (st : MutexState) (hpc : s.pc s.tid ≠ .lockSchedule)
    (hlocked : st = .locked → ∃ u, ((s.setPc p).pc u).Holds)
    (hkeeper : s.waitList ≠ [] → ∃ u, (s.setPc p).Keeper u) : ({ s.setPc p with state := st } : Mutex ι).Queued := by
  obtain ⟨hrun, hnw⟩ := h.not_waiting hpc
  refine ⟨fun t ht => ?_, h.nodup, .inl hrun, hlocked, hkeeper⟩
  obtain ⟨hb, hp⟩ := h.blocked t ht
  have htt : t ≠ s.tid := by
    rintro rfl
    exact hnw ht
  rw [← Mutex.setPc_of_ne p htt] at hp
  exact ⟨hb, hp⟩

/-- The running thread becomes a keeper, or stays one. -/
theorem Mutex.Queued.hold (h : s.Queued) (p : Pc) (st : MutexState) (hpc : s.pc s.tid ≠ .lockSchedule)
    (hp : p.Holds) : ({ s.setPc p with state := st } : Mutex ι).Queued := by
  have hself : ((s.setPc p).pc s.tid).Holds := by rw [s.setPc_self]; exact hp
  exact h.local p st hpc (fun _ => ⟨s.tid, hself⟩) fun _ => ⟨s.tid, .inl hself⟩

/-- The running thread is no keeper and goes on to `p`. -/
theorem Mutex.Queued.idle (h : s.Queued) (p : Pc) (hpc : s.pc s.tid ≠ .lockSchedule) (hret : s.pc s.tid ≠ .lockReturn)
    (hold : ¬ (s.pc s.tid).Holds) : (s.setPc p).Queued := by
  have hne : ∀ u, s.Keeper u → u ≠ s.tid := by
    rintro u hu rfl
    obtain hh | ⟨hp | hp, -⟩ := hu
    · exact hold hh
    · exact hpc hp
    · exact hret hp
  refine h.local p s.state hpc (fun hl => ?_) fun hw => ?_
  · obtain ⟨u, hu⟩ := h.locked hl
    exact ⟨u, by rw [Mutex.setPc_of_ne p (hne u (.inl hu))]; exact hu⟩
  · obtain ⟨u, hu⟩ := h.keeper hw
    refine ⟨u, ?_⟩
    unfold Mutex.Keeper
    rw [Mutex.setPc_of_ne p (hne u hu)]
    exact hu

/-- pthread_mutex_lock joins the wait list of a mutex that is still locked. -/
theorem Mutex.Queued.lockWait (h : s.Queued) (hpc : s.pc s.tid = .lockWait) (hl : s.state = .locked) :
    ({ s.setPc .lockSchedule with
        status := Function.update s.status s.tid .blocked
        waitList := s.waitList ++ [s.tid] } : Mutex ι).Queued := by
  obtain ⟨-, hnw⟩ := h.not_waiting (by rw [hpc]; simp)
  obtain ⟨u, hu⟩ := h.locked hl
  have hus : u ≠ s.tid := by
    rintro rfl
    rw [hpc] at hu
    exact hu
  have hu' : ((s.setPc .lockSchedule).pc u).Holds := by rw [Mutex.setPc_of_ne _ hus]; exact hu
  refine ⟨fun t ht => ?_, ?_, .inr ⟨Function.update_self _ _ _, s.setPc_self _⟩, fun _ => ⟨u, hu'⟩,
    fun _ => ⟨u, .inl hu'⟩⟩
  · by_cases htt : t = s.tid
    · rw [htt]
      exact ⟨Function.update_self _ _ _, .inl (s.setPc_self _)⟩
    · obtain ⟨hb, hp⟩ := h.blocked t ((List.mem_append.mp ht).resolve_right fun hm => htt (List.mem_singleton.mp hm))
      rw [← Mutex.setPc_of_ne .lockSchedule htt] at hp
      exact ⟨(Function.update_of_ne htt _ _).trans hb, hp⟩
  · refine List.nodup_append.mpr ⟨h.nodup, by simp, fun a ha b hb hab => hnw ?_⟩
    rw [← List.mem_singleton.mp hb, ← hab]
    exact ha

/-- pthread_mutex_unlock takes the first waiter, which keeps the others. -/
theorem Mutex.Queued.unlockHand (h : s.Queued) (hpc : s.pc s.tid = .unlockHand) {nextThread : ι} {rest : List ι}
    (hw : s.waitList = nextThread :: rest) :
    ({ s.setPc .unlockSchedule with
        waitList := rest
        state := .unlocked
        status := Function.update s.status nextThread .ready
        handed := some nextThread } : Mutex ι).Queued := by
  obtain ⟨hrun, hnw⟩ := h.not_waiting (by rw [hpc]; simp)
  have hnd := h.nodup
  rw [hw] at hnw hnd
  obtain ⟨hnext, hrest⟩ := List.nodup_cons.mp hnd
  rw [List.mem_cons, not_or] at hnw
  have hpn := (h.blocked nextThread (by rw [hw]; exact List.mem_cons_self)).2
  rw [← Mutex.setPc_of_ne .unlockSchedule (Ne.symm hnw.1)] at hpn
  refine ⟨fun t ht => ?_, hrest, .inl ((Function.update_of_ne hnw.1 _ _).trans hrun), fun hl => ?_,
    fun _ => ⟨nextThread, .inr ⟨hpn, hnext⟩⟩⟩
  · obtain ⟨hb, hp⟩ := h.blocked t (by rw [hw]; exact List.mem_cons_of_mem _ ht)
    have htn : t ≠ nextThread := by
      rintro rfl
      exact hnext ht
    have htt : t ≠ s.tid := by
      rintro rfl
      exact hnw.2 ht
    rw [← Mutex.setPc_of_ne .unlockSchedule htt] at hp
    exact ⟨(Function.update_of_ne htn _ _).trans hb, hp⟩
  · cases hl

/-- The program counter of a thread that is switched out at any point. -/
def LeavesAt (pc p : Pc) : Prop :=
  p = pc ∨ (pc = .lockSchedule ∧ p = .lockReturn) ∨ (pc = .unlockSchedule ∧ p = .unlockReturn)

/-- A switch, by an alarm anywhere or by schedule(). -/
theorem Mutex.Queued.switch (h : s.Queued) {p : Pc} (hp : LeavesAt (s.pc s.tid) p)
    (hs : s.switch p u = some s') : s'.Queued := by
  obtain ⟨hu, hself, hother, hwait, -, hstate, hstatus, hrunning⟩ := Mutex.switched_of_switch hs
  -- a switch leaves a thread on its side of every test below
  have hholds : ∀ t, (s.pc t).Holds → (s'.pc t).Holds := by
    intro t ht
    by_cases htt : t = s.tid
    · rw [htt] at ht ⊢
      rw [hself]
      obtain rfl | ⟨he, -⟩ | ⟨he, -⟩ := hp
      · exact ht
      · rw [he] at ht
        exact ht.elim
      · rw [he] at ht
        exact ht.elim
    · rw [hother t htt]
      exact ht
  have hqueue : ∀ t, s.pc t = .lockSchedule ∨ s.pc t = .lockReturn → s'.pc t = .lockSchedule ∨ s'.pc t = .lockReturn := by
    intro t ht
    by_cases htt : t = s.tid
    · rw [htt] at ht ⊢
      rw [hself]
      obtain rfl | ⟨-, he⟩ | ⟨he, -⟩ := hp
      · exact ht
      · exact .inr he
      · rw [he] at ht
        exact absurd ht (by simp)
    · rw [hother t htt]
      exact ht
  refine ⟨fun t ht => ?_, by rw [hwait]; exact h.nodup, .inl hrunning, fun hl => ?_,
    fun hw => ?_⟩
  · rw [hwait] at ht
    obtain ⟨hb, hpc⟩ := h.blocked t ht
    exact ⟨by rw [hstatus]; exact (switched_blocked hu).mpr hb, hqueue t hpc⟩
  · rw [hstate] at hl
    obtain ⟨v, hv⟩ := h.locked hl
    exact ⟨v, hholds v hv⟩
  · rw [hwait] at hw
    obtain ⟨v, hv | ⟨hpc, hn⟩⟩ := h.keeper hw
    · exact ⟨v, .inl (hholds v hv)⟩
    · exact ⟨v, .inr ⟨hqueue v hpc, by rw [hwait]; exact hn⟩⟩

/-! ## Runs -/

/-- One statement of the running thread. -/
theorem Mutex.Queued.statement (h : s.Queued) (hstill : StillTrue s .statement) (hs : s.statement = some s') :
    s'.Queued := by
  unfold Mutex.statement at hs
  split at hs
  case h_1 hpc =>
    rw [Option.some.injEq] at hs
    rw [← hs]
    split
    · exact h.hold .lockGrab s.state (by rw [hpc]; simp) trivial
    · exact h.idle .lockWait (by rw [hpc]; simp) (by rw [hpc]; simp) (by rw [hpc]; exact id)
  case h_2 hpc =>
    rw [Option.some.injEq] at hs
    rw [← hs]
    exact h.hold .critical .locked (by rw [hpc]; simp) trivial
  case h_3 hpc =>
    rw [Option.some.injEq] at hs
    rw [← hs]
    exact h.lockWait hpc (hstill.1 hpc)
  case h_4 hpc =>
    rw [Option.some.injEq] at hs
    rw [← hs]
    exact h.hold .critical s.state (by rw [hpc]; simp) trivial
  case h_5 hpc =>
    rw [Option.some.injEq] at hs
    rw [← hs]
    split
    · exact h.hold .unlockFree s.state (by rw [hpc]; simp) trivial
    · exact h.hold .unlockHand s.state (by rw [hpc]; simp) trivial
  case h_6 hpc =>
    rw [Option.some.injEq] at hs
    rw [← hs]
    have hnil := hstill.2 hpc
    have hfree := h.local .user .unlocked (by rw [hpc]; simp) (by rintro ⟨⟩) fun hw => absurd hnil hw
    exact ⟨hfree.blocked, hfree.nodup, hfree.run, hfree.locked, hfree.keeper⟩
  case h_7 hpc =>
    split at hs
    · cases hs
    · next nextThread rest hw =>
      rw [Option.some.injEq] at hs
      rw [← hs]
      exact h.unlockHand hpc hw
  case h_8 hpc =>
    rw [Option.some.injEq] at hs
    rw [← hs]
    exact h.idle .user (by rw [hpc]; simp) (by rw [hpc]; simp) (by rw [hpc]; exact id)
  case h_9 => cases hs

theorem Mutex.Queued.step (h : s.Queued) {i : Input ι} (hstill : StillTrue s i) (hs : s.step i = some ((), s')) :
    s'.Queued := by
  cases i with
  | lock =>
    simp only [Mutex.step] at hs
    split at hs
    · next hpc =>
      cases hs
      exact h.idle .lockTest (by rw [hpc]; simp) (by rw [hpc]; simp) (by rw [hpc]; exact id)
    · cases hs
  | unlock =>
    simp only [Mutex.step] at hs
    split at hs
    · next hpc =>
      cases hs
      exact h.hold .unlockTest s.state (by rw [hpc]; simp) trivial
    · cases hs
  | statement =>
    obtain ⟨s₁, h₁, hs⟩ := Option.map_eq_some_iff.mp hs
    cases hs
    exact h.statement hstill h₁
  | schedule u =>
    simp only [Mutex.step] at hs
    split at hs
    · next hpc =>
      obtain ⟨s₁, h₁, hs⟩ := Option.map_eq_some_iff.mp hs
      cases hs
      exact h.switch (.inr (.inl ⟨hpc, rfl⟩)) h₁
    · next hpc =>
      obtain ⟨s₁, h₁, hs⟩ := Option.map_eq_some_iff.mp hs
      cases hs
      exact h.switch (.inr (.inr ⟨hpc, rfl⟩)) h₁
    · cases hs
  | alarm u =>
    obtain ⟨s₁, h₁, hs⟩ := Option.map_eq_some_iff.mp hs
    cases hs
    exact h.switch (.inl rfl) h₁

instance (s : Mutex ι) : DecidablePred (StillTrue s)
  | .statement => inferInstanceAs (Decidable ((s.pc s.tid = .lockWait → s.state = .locked) ∧
      (s.pc s.tid = .unlockFree → s.waitList = [])))
  | .lock => inferInstanceAs (Decidable True)
  | .unlock => inferInstanceAs (Decidable True)
  | .schedule _ => inferInstanceAs (Decidable True)
  | .alarm _ => inferInstanceAs (Decidable True)

end EC440.Threads
