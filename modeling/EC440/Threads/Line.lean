/-
  What a mutex is for: a line of threads, the first of which has the mutex. A thread joins at the
  end, enters when it is first, and leaves from the front, so threads enter in the order in which
  they joined (`Lines.in_order`). A mutex on which nobody stands can be destroyed.

  pthread_mutex_lock and pthread_mutex_unlock, statement by statement (`Mutex`), are such a line:
  the thread that holds the mutex or was handed it, and after it the wait list. This is for alarms
  in user code and no pthread_mutex_lock while the mutex is handed on.
-/
import EC440.Threads.Waiters

namespace EC440.Threads

open EC440.Lib

/-- EBUSY of errno.h -/
def ebusy : Int := 16

/-- What happens to a mutex, with what the call returns. -/
inductive Action (ι : Type*)
  | init
  | destroy (r : Int)
  | join (t : ι)
  | enter (t : ι) (r : Int)
  | leave (t : ι)
  deriving DecidableEq, Repr

/-- The thread that has the mutex, the threads that wait for it, and whether the mutex was handed on
    when it was last given up. -/
structure Line (ι : Type*) where
  inside : Option ι
  waiting : List ι
  handed : Bool
  deriving DecidableEq, Repr

variable {ι μ : Type*}

/-- `none` is a mutex that is not initialised. A thread that had to wait gets EBUSY with the mutex. -/
inductive Line.Step : Option (Line ι) → Action ι → Option (Line ι) → Prop
  | init : Line.Step none .init (some ⟨none, [], false⟩)
  | destroy : Line.Step (some ⟨none, [], false⟩) (.destroy 0) none
  | busy {l : Line ι} (h : l.inside ≠ none ∨ l.waiting ≠ []) : Line.Step (some l) (.destroy (-1)) (some l)
  | join {l : Line ι} {t : ι} (hinside : l.inside ≠ some t) (hwaiting : t ∉ l.waiting) :
      Line.Step (some l) (.join t) (some { l with waiting := l.waiting ++ [t] })
  | enter {t : ι} {q : List ι} {handed : Bool} :
      Line.Step (some ⟨none, t :: q, handed⟩) (.enter t (if handed then ebusy else 0)) (some ⟨some t, q, handed⟩)
  | leave {t : ι} {q : List ι} {handed : Bool} :
      Line.Step (some ⟨some t, q, handed⟩) (.leave t) (some ⟨none, q, !q.isEmpty⟩)

/-! ## A line for each mutex -/

section
variable [DecidableEq μ]

/-- Any number of mutexes; one event happens to one of them, or to none. -/
inductive Lines.Step : (μ → Option (Line ι)) → Option (μ × Action ι) → (μ → Option (Line ι)) → Prop
  | quiet {a : μ → Option (Line ι)} : Lines.Step a none a
  | act {a : μ → Option (Line ι)} {m : μ} {act : Action ι} {l : Option (Line ι)} (h : Line.Step (a m) act l) :
      Lines.Step a (some (m, act)) (Function.update a m l)

/-- The threads that joined the line of `m`, in order. -/
def joined (m : μ) (os : List (Option (μ × Action ι))) : List ι :=
  os.filterMap fun o => match o with
    | some (n, .join t) => if n = m then some t else none
    | _ => none

/-- The threads that entered, in order. -/
def entered (m : μ) (os : List (Option (μ × Action ι))) : List ι :=
  os.filterMap fun o => match o with
    | some (n, .enter t _) => if n = m then some t else none
    | _ => none

/-- Nobody waits for a mutex that is not initialised. -/
def waitingAt (a : μ → Option (Line ι)) (m : μ) : List ι := ((a m).map Line.waiting).getD []

variable {a a' : μ → Option (Line ι)} {m n : μ} {act : Action ι} {l l' : Option (Line ι)}
  {o : Option (μ × Action ι)} {os : List (Option (μ × Action ι))}

theorem joined_snoc : joined m (os ++ [o]) = joined m os ++ joined m [o] := List.filterMap_append

theorem entered_snoc : entered m (os ++ [o]) = entered m os ++ entered m [o] := List.filterMap_append

/-- A thread joins at the end of the line and enters from its front. -/
theorem Line.Step.waiting (h : Line.Step l act l') :
    (l.map Line.waiting).getD [] ++ joined n [some (n, act)] =
      entered n [some (n, act)] ++ (l'.map Line.waiting).getD [] := by
  cases h with
  | init => rfl
  | destroy => rfl
  | busy => exact List.append_nil _
  | join => simp [joined, entered]
  | enter => simp [joined, entered]
  | leave => simp [joined, entered]

theorem Lines.Step.waiting (h : Lines.Step a o a') (m : μ) :
    waitingAt a m ++ joined m [o] = entered m [o] ++ waitingAt a' m := by
  cases h with
  | quiet => exact List.append_nil _
  | @act n act l h =>
    unfold waitingAt
    by_cases hn : n = m
    · rw [← hn, Function.update_self]
      exact h.waiting
    · rw [Function.update_of_ne (Ne.symm hn)]
      have hj : joined m [some (n, act)] = [] := by cases act <;> simp [joined, hn]
      have he : entered m [some (n, act)] = [] := by cases act <;> simp [entered, hn]
      rw [hj, he, List.append_nil, List.nil_append]

/-- First come, first served: the threads that have entered and those that wait, put together, are
    the threads that joined. -/
theorem Lines.in_order (hrun : Run Lines.Step (fun _ : μ => none) os a) (m : μ) :
    joined m os = entered m os ++ waitingAt a m := by
  refine hrun.invariant_trace (I := fun os a => joined m os = entered m os ++ waitingAt a m) rfl ?_
  intro os a o a' h hs
  rw [joined_snoc, entered_snoc, h, List.append_assoc, hs.waiting m, List.append_assoc]

end

/-! ## The statements of threads.c -/

/-- The thread that has the mutex has returned from pthread_mutex_lock with it, and has not reached
    the change of pthread_mutex_unlock. -/
def Pc.Inside : Pc → Prop
  | .critical => True
  | .unlockTest => True
  | .unlockFree => True
  | .unlockHand => True
  | _ => False

/-- Those inside hold the mutex. -/
theorem Pc.Inside.holds {p : Pc} (h : p.Inside) : p.Holds := by
  cases p <;> first | exact h | exact h.elim

/-- What the running thread found is still so. -/
structure Mutex.Tested (s : Mutex ι) : Prop where
  grab : s.pc s.tid = .lockGrab → s.handed = none
  wait : s.pc s.tid = .lockWait → s.state = .locked
  free : s.pc s.tid = .unlockFree → s.waitList = []
  hand : s.pc s.tid = .unlockHand → s.waitList ≠ []

structure Mutex.Good (s : Mutex ι) : Prop where
  inv : s.Inv
  queued : s.Queued
  tested : s.Tested

/-- What a step does to the mutex. -/
def Mutex.act (s : Mutex ι) : Input ι → Option (Action ι)
  | .statement =>
      match s.pc s.tid with
      | .lockTest => if s.state = .unlocked then some (.join s.tid) else none
      | .lockGrab => some (.enter s.tid 0)
      | .lockWait => some (.join s.tid)
      | .lockReturn => some (.enter s.tid ebusy)
      | .unlockFree => some (.leave s.tid)
      | .unlockHand => some (.leave s.tid)
      | _ => none
  | _ => none

/-- The mutex as a line: in front of the wait list stands a thread that is about to enter. -/
structure Mutex.Lined (s : Mutex ι) (l : Line ι) : Prop where
  inside : ∀ t, l.inside = some t ↔ (s.pc t).Inside
  waiting : ∃ next : Option ι, (∀ t, next = some t ↔ s.Owner t ∧ ¬ (s.pc t).Inside) ∧
    l.waiting = next.toList ++ s.waitList
  handed : l.handed = s.handed.isSome

variable {s s' : Mutex ι} {t u : ι} {i : Input ι}

theorem Mutex.Tested.of_pc {p : Pc} (h : s.pc s.tid = p) (hgrab : p ≠ .lockGrab) (hwait : p ≠ .lockWait)
    (hfree : p ≠ .unlockFree) (hhand : p ≠ .unlockHand) : s.Tested := by
  refine ⟨fun he => ?_, fun he => ?_, fun he => ?_, fun he => ?_⟩
  · exact absurd (h.symm.trans he) hgrab
  · exact absurd (h.symm.trans he) hwait
  · exact absurd (h.symm.trans he) hfree
  · exact absurd (h.symm.trans he) hhand

/-- A mutex nobody uses; a thread may still be on its way out of pthread_mutex_unlock. -/
theorem Mutex.Good.fresh (hpc : ∀ t, s.pc t = .user ∨ s.pc t = .unlockReturn) (hstate : s.state = .unlocked)
    (hwait : s.waitList = []) (hhanded : s.handed = none) (hrun : s.status s.tid = .running) : s.Good := by
  have hne : ∀ t p, p ≠ Pc.user → p ≠ Pc.unlockReturn → s.pc t ≠ p := by
    intro t p h1 h2 he
    rcases hpc t with hp | hp
    · exact h1 (he.symm.trans hp)
    · exact h2 (he.symm.trans hp)
  have hholds : ∀ t, ¬ (s.pc t).Holds := by
    intro t ht
    rcases hpc t with hp | hp
    all_goals
      rw [hp] at ht
      exact ht
  have howner : ∀ t, ¬ s.Owner t := by
    rintro t (ht | ht)
    · exact hholds t ht
    · rw [hhanded] at ht
      cases ht
  have htrans : ∀ t, ¬ (s.pc t).Transient := by
    intro t ht
    rcases hpc t with hp | hp
    all_goals
      rw [hp] at ht
      exact ht
  refine ⟨?_, ?_, ?_⟩
  · refine
      { owner := fun t u ht => absurd ht (howner t)
        free := fun _ _ t ht => absurd ht (hholds t)
        transient := fun t ht => absurd ht (htrans t)
        test := fun _ _ => hhanded
        waiting := fun t ht => absurd ht (hne t _ (by simp) (by simp))
        blocked := fun t ht => ?_
        handed := fun t ht => absurd (.inr ht) (howner t)
        nodup := by rw [hwait]; exact List.nodup_nil
        run := .inl ⟨hrun, hne _ _ (by simp) (by simp)⟩ }
    rw [hwait] at ht
    cases ht
  · refine ⟨fun t ht => ?_, by rw [hwait]; exact List.nodup_nil, .inl hrun, fun hl => ?_, fun hn => absurd hwait hn⟩
    · rw [hwait] at ht
      cases ht
    · rw [hstate] at hl
      cases hl
  · exact .of_pc rfl (hne _ _ (by simp) (by simp)) (hne _ _ (by simp) (by simp)) (hne _ _ (by simp) (by simp))
      (hne _ _ (by simp) (by simp))

/-- Nothing that the line shows has changed. -/
theorem Mutex.Lined.same {l : Line ι} (h : s.Lined l) (hinside : ∀ t, (s'.pc t).Inside ↔ (s.pc t).Inside)
    (hholds : ∀ t, (s'.pc t).Holds ↔ (s.pc t).Holds) (hwait : s'.waitList = s.waitList)
    (hhanded : s'.handed = s.handed) : s'.Lined l := by
  obtain ⟨next, hnext, hl⟩ := h.waiting
  refine ⟨fun t => (h.inside t).trans (hinside t).symm, ⟨next, fun t => ?_, by rw [hwait]; exact hl⟩,
    by rw [hhanded]; exact h.handed⟩
  rw [hnext t, hinside t]
  unfold Mutex.Owner
  rw [hholds t, hhanded]

/-- A free mutex has nobody in its line. -/
theorem Mutex.Good.empty (h : s.Good) (hst : s.state = .unlocked) (hhanded : s.handed = none)
    (hgrab : s.pc s.tid ≠ .lockGrab) (hsch : s.pc s.tid ≠ .lockSchedule) :
    (∀ t, ¬ s.Owner t) ∧ s.waitList = [] := by
  have hno : ∀ t, ¬ s.Owner t := fun t => h.inv.no_owner hst hhanded hgrab
  refine ⟨hno, ?_⟩
  by_contra hne
  obtain ⟨u, hu | ⟨hu | hu, hn⟩⟩ := h.queued.keeper hne
  · exact hno u (.inl hu)
  · rw [h.inv.transient u (by rw [hu]; trivial)] at hu
    exact hsch hu
  · exact hno u (.inr ((h.inv.waiting u hu).resolve_left hn))

/-- A label that does nothing, or one that the line can follow. -/
def Line.Follows (l : Line ι) (act : Option (Action ι)) (l' : Line ι) : Prop :=
  match act with
  | none => l' = l
  | some act => Line.Step (some l) act (some l')

/-- An owner that has not entered stands in front of the line, and nobody is inside. -/
theorem Mutex.Lined.outside {l : Line ι} (h : s.Lined l) (hinv : s.Inv) (ho : s.Owner t) (hpc : ¬ (s.pc t).Inside) :
    l = ⟨none, t :: s.waitList, s.handed.isSome⟩ := by
  obtain ⟨inside, waiting, handed⟩ := l
  obtain ⟨next, hnext, hl⟩ := h.waiting
  have hin : inside = none := by
    cases hc : inside with
    | none => rfl
    | some u =>
      have hu := (h.inside u).mp hc
      rw [hinv.owner u t (.inl hu.holds) ho] at hu
      exact absurd hu hpc
  rw [(hnext t).mpr ⟨ho, hpc⟩] at hl
  rw [Line.mk.injEq]
  exact ⟨hin, hl, h.handed⟩

/-- A thread that is inside leaves the wait list to wait. -/
theorem Mutex.Lined.inside_eq {l : Line ι} (h : s.Lined l) (hinv : s.Inv) (hpc : (s.pc t).Inside) :
    l = ⟨some t, s.waitList, s.handed.isSome⟩ := by
  obtain ⟨inside, waiting, handed⟩ := l
  obtain ⟨next, hnext, hl⟩ := h.waiting
  have hno : next = none := by
    cases hc : next with
    | none => rfl
    | some u =>
      obtain ⟨hu, hn⟩ := (hnext u).mp hc
      rw [hinv.owner u t hu (.inl hpc.holds)] at hn
      exact absurd hpc hn
  rw [hno] at hl
  rw [Line.mk.injEq]
  exact ⟨(h.inside t).mpr hpc, hl, h.handed⟩

theorem Mutex.Inv.lined_outside (h : s.Inv) (ho : s.Owner t) (hpc : ¬ (s.pc t).Inside) :
    s.Lined ⟨none, t :: s.waitList, s.handed.isSome⟩ := by
  refine ⟨fun u => iff_of_false (by simp) fun hu => hpc ?_, ⟨some t, fun u => ⟨fun hu => ?_, fun hu => ?_⟩, rfl⟩, rfl⟩
  · rw [h.owner t u ho (.inl hu.holds)]
    exact hu
  · rw [← Option.some.inj hu]
    exact ⟨ho, hpc⟩
  · rw [h.owner t u ho hu.1]

theorem Mutex.Inv.lined_inside (h : s.Inv) (hpc : (s.pc t).Inside) : s.Lined ⟨some t, s.waitList, s.handed.isSome⟩ := by
  refine ⟨fun u => ⟨fun hu => ?_, fun hu => ?_⟩, ⟨none, fun u => iff_of_false (by simp) fun hu => hu.2 ?_, rfl⟩, rfl⟩
  · rw [← Option.some.inj hu]
    exact hpc
  · rw [h.owner t u (.inl hpc.holds) (.inl hu.holds)]
  · rw [h.owner u t hu.1 (.inl hpc.holds)]
    exact hpc

theorem Mutex.lined_free (hno : ∀ t, ¬ s.Owner t) : s.Lined ⟨none, s.waitList, s.handed.isSome⟩ :=
  ⟨fun u => iff_of_false (by simp) fun hu => hno u (.inl hu.holds),
    ⟨none, fun u => iff_of_false (by simp) fun hu => hno u hu.1, rfl⟩, rfl⟩

theorem Mutex.Lined.free {l : Line ι} (h : s.Lined l) (hno : ∀ t, ¬ s.Owner t) :
    l = ⟨none, s.waitList, s.handed.isSome⟩ := by
  obtain ⟨inside, waiting, handed⟩ := l
  obtain ⟨next, hnext, hl⟩ := h.waiting
  have hnone : next = none := Option.eq_none_iff_forall_ne_some.mpr fun u hu => hno u ((hnext u).mp hu).1
  rw [hnone] at hl
  rw [Line.mk.injEq]
  exact ⟨Option.eq_none_iff_forall_ne_some.mpr fun u hu => hno u (.inl ((h.inside u).mp hu).holds), hl, h.handed⟩

section
variable [DecidableEq ι]

/-- A switch ends in user code, or at the end of a call. -/
theorem Mutex.Inv.tested_switch (h : s.Inv) {p : Pc} (hp : Leaves (s.pc s.tid) p) (hs : s.switch p u = some s') :
    s'.Tested := by
  obtain ⟨-, hself, hother, -, -, -, -, -⟩ := Mutex.switched_of_switch hs
  have hnt : ¬ (s'.pc s'.tid).Transient := by
    intro ht
    by_cases htt : s'.tid = s.tid
    · rw [htt, hself] at ht
      exact hp.not_transient ht
    · rw [hother _ htt] at ht
      exact htt (h.transient _ ht)
  refine .of_pc rfl ?_ ?_ ?_ ?_
  all_goals
    intro he
    rw [he] at hnt
    exact hnt trivial

theorem Mutex.Good.tested_statement (h : s.Good) (hs : s.statement = some s') : s'.Tested := by
  unfold Mutex.statement at hs
  split at hs
  case h_1 hpc =>
    rw [Option.some.injEq] at hs
    rw [← hs]
    split
    · have hself : (s.setPc .lockGrab).pc (s.setPc .lockGrab).tid = .lockGrab := s.setPc_self _
      exact ⟨fun _ => h.inv.test _ hpc, by rw [hself]; simp, by rw [hself]; simp, by rw [hself]; simp⟩
    · next hst =>
      have hself : (s.setPc .lockWait).pc (s.setPc .lockWait).tid = .lockWait := s.setPc_self _
      refine ⟨by rw [hself]; simp, fun _ => ?_, by rw [hself]; simp, by rw [hself]; simp⟩
      have hlocked : s.state = .locked := by
        cases hc : s.state with
        | locked => rfl
        | unlocked => exact absurd hc hst
      exact hlocked
  case h_5 hpc =>
    rw [Option.some.injEq] at hs
    rw [← hs]
    split
    · next hnil =>
      have hself : (s.setPc .unlockFree).pc (s.setPc .unlockFree).tid = .unlockFree := s.setPc_self _
      exact ⟨by rw [hself]; simp, by rw [hself]; simp, fun _ => hnil, by rw [hself]; simp⟩
    · next hne =>
      have hself : (s.setPc .unlockHand).pc (s.setPc .unlockHand).tid = .unlockHand := s.setPc_self _
      exact ⟨by rw [hself]; simp, by rw [hself]; simp, by rw [hself]; simp, fun _ => hne⟩
  case h_7 hpc =>
    split at hs
    · cases hs
    · rw [Option.some.injEq] at hs
      rw [← hs]
      exact .of_pc (s.setPc_self .unlockSchedule) (by simp) (by simp) (by simp) (by simp)
  case h_9 => cases hs
  all_goals
    rw [Option.some.injEq] at hs
    rw [← hs]
  · exact .of_pc (s.setPc_self .critical) (by simp) (by simp) (by simp) (by simp)
  · exact .of_pc (s.setPc_self .lockSchedule) (by simp) (by simp) (by simp) (by simp)
  · exact .of_pc (s.setPc_self .critical) (by simp) (by simp) (by simp) (by simp)
  · exact .of_pc (s.setPc_self .user) (by simp) (by simp) (by simp) (by simp)
  · exact .of_pc (s.setPc_self .user) (by simp) (by simp) (by simp) (by simp)

/-- The steps with alarms in user code only. -/
theorem Mutex.step_cases (halarm : UserAlarm s i) (hs : s.step i = some ((), s')) :
    (i = .lock ∧ s.pc s.tid = .user ∧ s' = s.setPc .lockTest) ∨
      (i = .unlock ∧ s.pc s.tid = .critical ∧ s' = s.setPc .unlockTest) ∨
      (i = .statement ∧ s.statement = some s') ∨
      (s.act i = none ∧ ∃ p u, Leaves (s.pc s.tid) p ∧ s.switch p u = some s') := by
  cases i with
  | lock =>
    simp only [Mutex.step] at hs
    split at hs
    · next hpc =>
      cases hs
      exact .inl ⟨rfl, hpc, rfl⟩
    · cases hs
  | unlock =>
    simp only [Mutex.step] at hs
    split at hs
    · next hpc =>
      cases hs
      exact .inr (.inl ⟨rfl, hpc, rfl⟩)
    · cases hs
  | statement =>
    obtain ⟨s₁, h₁, hs⟩ := Option.map_eq_some_iff.mp hs
    cases hs
    exact .inr (.inr (.inl ⟨rfl, h₁⟩))
  | schedule u =>
    simp only [Mutex.step] at hs
    split at hs
    · next hpc =>
      obtain ⟨s₁, h₁, hs⟩ := Option.map_eq_some_iff.mp hs
      cases hs
      exact .inr (.inr (.inr ⟨rfl, _, u, .inr (.inl ⟨hpc, rfl⟩), h₁⟩))
    · next hpc =>
      obtain ⟨s₁, h₁, hs⟩ := Option.map_eq_some_iff.mp hs
      cases hs
      exact .inr (.inr (.inr ⟨rfl, _, u, .inr (.inr ⟨hpc, rfl⟩), h₁⟩))
    · cases hs
  | alarm u =>
    obtain ⟨s₁, h₁, hs⟩ := Option.map_eq_some_iff.mp hs
    cases hs
    exact .inr (.inr (.inr ⟨rfl, _, u, .inl ⟨rfl, halarm⟩, h₁⟩))

/-- One step with alarms in user code only, and no pthread_mutex_lock while the mutex is handed on. -/
theorem Mutex.Good.step (h : s.Good) (halarm : UserAlarm s i) (hlock : NoLockWhileHanded s i)
    (hs : s.step i = some ((), s')) : s'.Good := by
  refine ⟨h.inv.step halarm hlock hs, h.queued.step ?_ hs, ?_⟩
  · cases i with
    | statement => exact ⟨h.tested.wait, h.tested.free⟩
    | lock => trivial
    | unlock => trivial
    | schedule u => trivial
    | alarm u => trivial
  · obtain ⟨-, -, rfl⟩ | ⟨-, -, rfl⟩ | ⟨-, hst⟩ | ⟨-, p, u, hp, hsw⟩ := Mutex.step_cases halarm hs
    · exact .of_pc (s.setPc_self .lockTest) (by simp) (by simp) (by simp) (by simp)
    · exact .of_pc (s.setPc_self .unlockTest) (by simp) (by simp) (by simp) (by simp)
    · exact h.tested_statement hst
    · exact h.inv.tested_switch hp hsw

/-! ## The line of a mutex -/

/-- A property of the running thread's place that it keeps going on to `p`. -/
theorem Mutex.setPc_iff {P : Pc → Prop} {p : Pc} (h : P p ↔ P (s.pc s.tid)) (t : ι) :
    P ((s.setPc p).pc t) ↔ P (s.pc t) := by
  by_cases htt : t = s.tid
  · rw [htt, s.setPc_self]
    exact h
  · rw [Mutex.setPc_of_ne p htt]

theorem Leaves.inside {pc p : Pc} (h : Leaves pc p) : p.Inside ↔ pc.Inside := by
  rcases h with ⟨rfl, -⟩ | ⟨rfl, rfl⟩ | ⟨rfl, rfl⟩ <;> exact Iff.rfl

theorem Mutex.Lined.switch {l : Line ι} (h : s.Lined l) {p : Pc} (hp : Leaves (s.pc s.tid) p)
    (hs : s.switch p u = some s') : s'.Lined l := by
  obtain ⟨-, hself, hother, hwait, hhanded, -, -, -⟩ := Mutex.switched_of_switch hs
  refine h.same (fun t => ?_) (fun t => ?_) hwait hhanded
  all_goals
    by_cases htt : t = s.tid
  · rw [htt, hself]
    exact hp.inside
  · rw [hother t htt]
  · rw [htt, hself]
    exact hp.holds
  · rw [hother t htt]

/-- The running thread finds the mutex free. -/
theorem Mutex.Lined.lockTest {l : Line ι} (h : s.Lined l) (hg : s.Good) (hpc : s.pc s.tid = .lockTest)
    (hst : s.state = .unlocked) (hg' : (s.setPc .lockGrab).Good) :
    ∃ l', l.Follows (some (.join s.tid)) l' ∧ (s.setPc .lockGrab).Lined l' := by
  obtain ⟨hno, hnil⟩ := hg.empty hst (hg.inv.test _ hpc) (by rw [hpc]; simp) (by rw [hpc]; simp)
  have hself := s.setPc_self .lockGrab
  have hl' := hg'.inv.lined_outside (t := s.tid) (.inl (by rw [hself]; trivial)) (by rw [hself]; exact id)
  refine ⟨_, ?_, hl'⟩
  have hjoin : Line.Step (some ⟨none, [], s.handed.isSome⟩) (.join s.tid) (some ⟨none, [s.tid], s.handed.isSome⟩) :=
    .join (by simp) List.not_mem_nil
  rw [h.free hno, hnil]
  unfold Line.Follows
  dsimp only
  rw [show (s.setPc .lockGrab).waitList = [] from hnil]
  exact hjoin

/-- It takes the mutex. -/
theorem Mutex.Lined.lockGrab {l : Line ι} (h : s.Lined l) (hg : s.Good) (hpc : s.pc s.tid = .lockGrab)
    (hg' : ({ s.setPc .critical with state := .locked } : Mutex ι).Good) :
    ∃ l', l.Follows (some (.enter s.tid 0)) l' ∧ ({ s.setPc .critical with state := .locked } : Mutex ι).Lined l' := by
  have hself := s.setPc_self .critical
  refine ⟨_, ?_, hg'.inv.lined_inside (t := s.tid) (by rw [hself]; trivial)⟩
  rw [h.outside hg.inv (t := s.tid) (.inl (by rw [hpc]; trivial)) (by rw [hpc]; exact id), hg.tested.grab hpc]
  have henter : Line.Step (some ⟨none, s.tid :: s.waitList, false⟩) (.enter s.tid (if false then ebusy else 0)) _ := .enter
  unfold Line.Follows
  dsimp only
  rw [show (s.setPc .critical).handed = none from hg.tested.grab hpc]
  exact henter

/-- It joins the wait list. -/
theorem Mutex.Lined.lockWait {l : Line ι} (h : s.Lined l) (hg : s.Good) (hpc : s.pc s.tid = .lockWait) :
    ∃ l', l.Follows (some (.join s.tid)) l' ∧
      ({ s.setPc .lockSchedule with
          status := Function.update s.status s.tid .blocked
          waitList := s.waitList ++ [s.tid] } : Mutex ι).Lined l' := by
  obtain ⟨next, hnext, hl⟩ := h.waiting
  have hnot : ¬ s.Owner s.tid := by
    rintro (ho | ho)
    · rw [hpc] at ho
      exact ho
    · exact hg.inv.not_handed (by rw [hpc]; simp) (by rw [hpc]; exact id) ho
  have hinside : ∀ t, ((s.setPc .lockSchedule).pc t).Inside ↔ (s.pc t).Inside :=
    s.setPc_iff (by rw [hpc]; exact Iff.rfl)
  have hholds : ∀ t, ((s.setPc .lockSchedule).pc t).Holds ↔ (s.pc t).Holds :=
    s.setPc_iff (by rw [hpc]; exact Iff.rfl)
  refine ⟨{ l with waiting := l.waiting ++ [s.tid] }, .join (fun hin => ?_) (fun hin => ?_), ?_⟩
  · have := (h.inside s.tid).mp hin
    rw [hpc] at this
    exact this
  · rw [hl, List.mem_append, Option.mem_toList] at hin
    rcases hin with hin | hin
    · exact hnot ((hnext _).mp hin).1
    · exact (hg.inv.not_waiting (by rw [hpc]; simp)).2 hin
  · refine ⟨fun t => (h.inside t).trans (hinside t).symm, ⟨next, fun t => (hnext t).trans ?_, ?_⟩, h.handed⟩
    · exact and_congr (or_congr (hholds t).symm Iff.rfl) (not_congr (hinside t).symm)
    · rw [hl, List.append_assoc]

/-- It returns after it was handed the mutex. -/
theorem Mutex.Lined.lockReturn {l : Line ι} (h : s.Lined l) (hg : s.Good) (hpc : s.pc s.tid = .lockReturn)
    (hg' : (s.setPc .critical).Good) :
    ∃ l', l.Follows (some (.enter s.tid ebusy)) l' ∧ (s.setPc .critical).Lined l' := by
  have hself := s.setPc_self .critical
  have hhanded := hg.inv.handed_return hpc
  refine ⟨_, ?_, hg'.inv.lined_inside (t := s.tid) (by rw [hself]; trivial)⟩
  rw [h.outside hg.inv (t := s.tid) (.inr hhanded) (by rw [hpc]; exact id)]
  unfold Line.Follows
  dsimp only
  rw [show (s.setPc .critical).handed = some s.tid from hhanded, hhanded]
  have henter : Line.Step (some ⟨none, s.tid :: s.waitList, true⟩) (.enter s.tid (if true then ebusy else 0)) _ := .enter
  exact henter

/-- It frees the mutex. -/
theorem Mutex.Lined.unlockFree {l : Line ι} (h : s.Lined l) (hg : s.Good) (hpc : s.pc s.tid = .unlockFree) :
    ∃ l', l.Follows (some (.leave s.tid)) l' ∧
      ({ s.setPc .user with state := .unlocked, handed := none } : Mutex ι).Lined l' := by
  have hnil := hg.tested.free hpc
  have hno : ∀ t, ¬ ({ s.setPc .user with state := .unlocked, handed := none } : Mutex ι).Owner t := by
    rintro t (ht | ht)
    · exact hg.inv.none_holds (by rw [hpc]; trivial) id t ht
    · cases ht
  refine ⟨_, ?_, Mutex.lined_free hno⟩
  rw [h.inside_eq hg.inv (t := s.tid) (by rw [hpc]; trivial)]
  unfold Line.Follows
  dsimp only
  rw [show (s.setPc .user).waitList = [] from hnil, hnil]
  exact .leave

/-- It hands the mutex on. -/
theorem Mutex.Lined.unlockHand {l : Line ι} (h : s.Lined l) (hg : s.Good) (hpc : s.pc s.tid = .unlockHand)
    {nextThread : ι} {rest : List ι} (hw : s.waitList = nextThread :: rest)
    (hg' : ({ s.setPc .unlockSchedule with
        waitList := rest
        state := .unlocked
        status := Function.update s.status nextThread .ready
        handed := some nextThread } : Mutex ι).Good) :
    ∃ l', l.Follows (some (.leave s.tid)) l' ∧
      ({ s.setPc .unlockSchedule with
        waitList := rest
        state := .unlocked
        status := Function.update s.status nextThread .ready
        handed := some nextThread } : Mutex ι).Lined l' := by
  refine ⟨_, ?_, hg'.inv.lined_outside (t := nextThread) (.inr rfl) fun hin => ?_⟩
  · rw [h.inside_eq hg.inv (t := s.tid) (by rw [hpc]; trivial), hw]
    exact .leave
  · exact hg.inv.none_holds (by rw [hpc]; trivial) (p := .unlockSchedule) id nextThread hin.holds

/-- A statement that does not change the line. -/
theorem Mutex.Lined.setPc {l : Line ι} (h : s.Lined l) {p : Pc} (hinside : p.Inside ↔ (s.pc s.tid).Inside)
    (hholds : p.Holds ↔ (s.pc s.tid).Holds) : (s.setPc p).Lined l :=
  h.same (s.setPc_iff hinside) (s.setPc_iff hholds) rfl rfl

/-- One statement of the running thread. -/
theorem Mutex.Lined.statement {l : Line ι} (h : s.Lined l) (hg : s.Good) (hg' : s'.Good)
    (hs : s.statement = some s') : ∃ l', l.Follows (s.act .statement) l' ∧ s'.Lined l' := by
  unfold Mutex.statement at hs
  unfold Mutex.act
  split at hs
  case h_9 => cases hs
  case h_7 hpc =>
    split at hs
    · cases hs
    · next hw =>
      rw [Option.some.injEq] at hs
      subst hs
      rw [hpc]
      exact h.unlockHand hg hpc hw hg'
  all_goals
    rw [Option.some.injEq] at hs
    subst hs
    rename_i hpc
    rw [hpc]
    dsimp only
  · by_cases hst : s.state = .unlocked
    · rw [if_pos hst] at hg' ⊢
      rw [if_pos hst]
      exact h.lockTest hg hpc hst hg'
    · rw [if_neg hst] at hg' ⊢
      rw [if_neg hst]
      exact ⟨l, rfl, h.setPc (by rw [hpc]; exact Iff.rfl) (by rw [hpc]; exact Iff.rfl)⟩
  · exact h.lockGrab hg hpc hg'
  · exact h.lockWait hg hpc
  · exact h.lockReturn hg hpc hg'
  · split
    all_goals exact ⟨l, rfl, h.setPc (by rw [hpc]; exact Iff.rfl) (by rw [hpc]; exact Iff.rfl)⟩
  · exact h.unlockFree hg hpc
  · exact ⟨l, rfl, h.setPc (by rw [hpc]; exact Iff.rfl) (by rw [hpc]; exact Iff.rfl)⟩

/-- One step of the machine is a step of the line. -/
theorem Mutex.Lined.step {l : Line ι} (h : s.Lined l) (hg : s.Good) (halarm : UserAlarm s i)
    (hlock : NoLockWhileHanded s i) (hs : s.step i = some ((), s')) :
    ∃ l', l.Follows (s.act i) l' ∧ s'.Lined l' := by
  have hg' := hg.step halarm hlock hs
  obtain ⟨rfl, hpc, rfl⟩ | ⟨rfl, hpc, rfl⟩ | ⟨rfl, hst⟩ | ⟨hact, p, u, hp, hsw⟩ := Mutex.step_cases halarm hs
  · exact ⟨l, rfl, h.setPc (by rw [hpc]; exact Iff.rfl) (by rw [hpc]; exact Iff.rfl)⟩
  · exact ⟨l, rfl, h.setPc (by rw [hpc]; exact Iff.rfl) (by rw [hpc]; exact Iff.rfl)⟩
  · exact h.statement hg hg' hst
  · rw [hact]
    exact ⟨l, rfl, h.switch hp hsw⟩

/-- No step, or one. -/
def Mutex.Moves (s : Mutex ι) (act : Option (Action ι)) (s' : Mutex ι) : Prop :=
  (act = none ∧ s' = s) ∨ ∃ i, UserAlarm s i ∧ NoLockWhileHanded s i ∧ s.step i = some ((), s') ∧ s.act i = act

theorem Mutex.Moves.good {act : Option (Action ι)} (h : s.Moves act s') (hg : s.Good) : s'.Good := by
  obtain ⟨-, rfl⟩ | ⟨i, halarm, hlock, hs, -⟩ := h
  · exact hg
  · exact hg.step halarm hlock hs

theorem Mutex.Moves.lined {act : Option (Action ι)} {l : Line ι} (h : s.Moves act s') (hg : s.Good) (hl : s.Lined l) :
    ∃ l', l.Follows act l' ∧ s'.Lined l' := by
  obtain ⟨rfl, rfl⟩ | ⟨i, halarm, hlock, hs, rfl⟩ := h
  · exact ⟨l, rfl, hl⟩
  · exact hl.step hg halarm hlock hs

theorem Mutex.Moves.statement {act : Option (Action ι)} (h : s.statement = some s') (ha : s.act .statement = act) :
    s.Moves act s' :=
  .inr ⟨.statement, trivial, trivial, by rw [Mutex.step, h]; rfl, ha⟩

end

end EC440.Threads
