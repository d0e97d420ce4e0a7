/-
  The release of the first round of a barrier, for every count. The last thread to arrive makes
  every participant ready before it first calls schedule(), unless it is also the first: then it
  blocks itself, and nobody is left to release it.
-/
import EC440.Threads.BarrierRuns

namespace EC440.Threads

open EC440.Lib

variable {P : Finset Tid} {s s' b : Barrier} {t a : Tid}

/-! ## The code up to the first schedule() -/

/-- EINVAL -/
def einval : Int := 22

/-- pthread_barrier_init; its result and the barrier. -/
def Barrier.barrierInit (count : UInt32) (s : Barrier) : Int × Barrier :=
  if count = 0 then (einval, s)
  else (0, { s with flag := 0, callingThread := none, count := count, left := count })

/-- From the while loop of pthread_barrier_wait on: where schedule() is called next. -/
def Barrier.loopSchedule (s : Barrier) : Option (BarrierPc × Barrier) :=
  if s.left ≠ 0 then some (.inWhile, s)
  else if s.flag = 1 then
    s.callingThread.map fun c => (.inLast, { s with flag := 0, status := Function.update s.status c .ready })
  else some (.inLast, s)

/-- The first call of schedule() in pthread_barrier_wait, and the state it is made in. -/
def Barrier.firstSchedule (s : Barrier) : Option (BarrierPc × Barrier) :=
  let s := { s with left := s.left - 1, entered := Function.update s.entered s.tid (s.entered s.tid + 1) }
  if s.flag ≠ 1 then
    some (.inIf, { s with
      status := Function.update s.status s.tid .blocked
      callingThread := some s.tid
      flag := 1 })
  else s.loopSchedule

theorem waitLoop_eq (s : Barrier) : s.waitLoop = s.loopSchedule.bind fun q => q.2.schedule q.1 := by
  unfold Barrier.waitLoop Barrier.loopSchedule
  split
  · rfl
  · split
    · rw [Option.bind_map]
      rfl
    · rfl

/-- pthread_barrier_wait runs to this call and makes it. -/
theorem barrierWait_eq (s : Barrier) : s.barrierWait = s.firstSchedule.bind fun q => q.2.schedule q.1 := by
  unfold Barrier.barrierWait Barrier.firstSchedule
  dsimp only
  split
  · rfl
  · exact waitLoop_eq _

theorem firstSchedule_first (h : s.flag ≠ 1) : s.firstSchedule = some (.inIf, s.arriveFirst) := if_pos h

theorem firstSchedule_last (hflag : s.flag = 1) (hz : s.left - 1 = 0) (hcall : s.callingThread = some a) :
    s.firstSchedule = some (.inLast, s.arriveLast a) :=
  calc s.firstSchedule = s.arriveNext.loopSchedule := if_neg (not_not.mpr hflag)
    _ = s.callingThread.map fun c => (.inLast, s.arriveLast c) := (if_neg (not_not.mpr hz)).trans (if_pos hflag)
    _ = some (.inLast, s.arriveLast a) := by rw [hcall, Option.map_some]

/-! ## Runs in which each thread calls once -/

/-- No thread is in a barrier, and one thread runs. -/
structure Barrier.Outside (s : Barrier) : Prop where
  pc : ∀ t, s.pc t = .user
  entered : ∀ t, s.entered t = 0
  results : ∀ t, s.results t = []
  running : s.status s.tid = .running
  others : ∀ t, t ≠ s.tid → s.status t ≠ .running

/-- Only the threads of `P` call pthread_barrier_wait, and each at most once. -/
def OnceEach (P : Finset Tid) (s : Barrier) : BarrierInput → Prop
  | .wait => s.tid ∈ P ∧ s.entered s.tid = 0
  | _ => True

/-- The running thread is the last of `P` to call pthread_barrier_wait. -/
structure LastArrival (P : Finset Tid) (s : Barrier) : Prop where
  mem : s.tid ∈ P
  user : s.pc s.tid = .user
  entered : s.entered s.tid = 0
  others : ∀ t ∈ P, t ≠ s.tid → s.entered t = 1

theorem OnceEach.byParticipants {i : BarrierInput} (h : OnceEach P s i) : ByParticipants P s i := by
  cases i with
  | wait => exact h.1
  | resume => trivial
  | create u => trivial
  | yield => trivial
  | exit => trivial

/-- A first call is never made while a round is released. -/
theorem BarrierInv.gathering_zero (h : BarrierInv P s) (hmem : s.tid ∈ P) (he : s.entered s.tid = 0) :
    Gathering P 0 s := by
  rcases h.phase with ⟨r, hg⟩ | ⟨r, a, hr, -⟩
  · have hr := hg.entered s.tid hmem
    obtain rfl : r = 0 := by omega
    exact hg
  · have hr := hr.entered s.tid hmem
    omega

theorem BarrierInv.afterRelease {i : BarrierInput} (h : BarrierInv P s) (ho : OnceEach P s i) :
    AfterRelease s i := by
  cases i with
  | wait =>
    have hg := h.gathering_zero ho.1 ho.2
    by_cases hflag : s.flag = 1
    · exact .inl hflag
    · exact .inr (hg.idle hflag).2
  | resume => trivial
  | create u => trivial
  | yield => trivial
  | exit => trivial

theorem BarrierInv.step_once {i : BarrierInput} {o : Unit} (h : BarrierInv P s) (ho : OnceEach P s i)
    (hs : s.step i = some (o, s')) : BarrierInv P s' :=
  h.step ho.byParticipants (h.afterRelease ho) hs

/-! ## Two threads or more -/

theorem barrierInit_eq {count : UInt32} (h : b.barrierInit count = (0, s)) :
    s = { b with flag := 0, callingThread := none, count := count, left := count } := by
  unfold Barrier.barrierInit at h
  split at h
  · cases (Prod.mk.inj h).1
  · exact (Prod.mk.inj h).2.symm

theorem Barrier.Outside.initial {count : UInt32} (h : b.Outside) (hinit : b.barrierInit count = (0, s))
    (hP : P.card = count.toNat) (htwo : 2 ≤ P.card) : s.Initial P := by
  rw [barrierInit_eq hinit]
  exact ⟨hP, htwo, rfl, rfl, rfl, h.pc, h.entered, h.results, h.running, h.others⟩

/-- The other arrivals of the round are all of `P` but the running thread. -/
theorem LastArrival.arrived_eq (hl : LastArrival P s) : arrived P 0 s = P.erase s.tid := by
  ext t
  rw [arrived, Finset.mem_filter, Finset.mem_erase]
  constructor
  · intro h
    refine ⟨fun htt => ?_, h.1⟩
    rw [htt, hl.entered] at h
    exact absurd h.2 (by decide)
  · intro h
    exact ⟨h.2, hl.others t h.2 h.1⟩

theorem Gathering.left_one (hg : Gathering P 0 s) (hc : CallsOk P s) (hl : LastArrival P s) : s.left = 1 := by
  have hleft := hg.left
  rw [hl.arrived_eq, Finset.card_erase_of_mem hl.mem, ← hc.count] at hleft
  have htwo := hc.two
  apply UInt32.toNat_inj.mp
  rw [show (1 : UInt32).toNat = 1 from rfl]
  omega

theorem Gathering.flag_one (hg : Gathering P 0 s) (hc : CallsOk P s) (hl : LastArrival P s) : s.flag = 1 := by
  by_contra hflag
  have hpos : 0 < (arrived P 0 s).card := by
    rw [hl.arrived_eq, Finset.card_erase_of_mem hl.mem]
    have := hc.two
    omega
  obtain ⟨t, ht⟩ := Finset.card_pos.mp hpos
  obtain ⟨hmem, he⟩ := Finset.mem_filter.mp ht
  rw [(hg.idle hflag).1 t hmem] at he
  cases he

/-- The blocked thread is made ready, the others have been all along. -/
theorem BarrierInv.releases (h : BarrierInv P s) (hl : LastArrival P s) :
    ∃ p s₁, s.firstSchedule = some (p, s₁) ∧ s₁.left = 0 ∧ ∀ t ∈ P, s₁.status t ≠ .blocked := by
  have hg := h.gathering_zero hl.mem hl.entered
  have hflag := hg.flag_one h.calls hl
  have hz : s.left - 1 = 0 := by rw [hg.left_one h.calls hl]; rfl
  obtain ⟨a, hcall, ha⟩ := hg.first hflag
  have hblk : s.blockedThread = some a := (if_pos hflag).trans hcall
  refine ⟨_, _, firstSchedule_last hflag hz hcall, hz, fun t ht => ?_⟩
  by_cases hta : t = a
  · rw [hta, show (s.arriveLast a).status a = .ready from Function.update_self _ _ _]
    simp
  · rw [show (s.arriveLast a).status t = s.status t from Function.update_of_ne hta _ _]
    by_cases htt : t = s.tid
    · rw [htt, h.status.running]
      simp
    · have hin : s.pc t ≠ .user := by
        rcases hg.new t ht (hl.others t ht htt) with hq | hq <;> rw [hq] <;> simp
      have hnb : s.blockedThread ≠ some t := by
        rw [hblk, Ne, Option.some.injEq]
        exact Ne.symm hta
      rw [(h.status.alive t hin hnb).resolve_right htt]
      simp

/-! ## One thread -/

/-- Nobody has called the barrier. -/
structure Untouched (count : UInt32) (s : Barrier) : Prop where
  flag : s.flag = 0
  left : s.left = count
  pc : ∀ t, s.pc t = .user

theorem Untouched.schedule {count : UInt32} (h : Untouched count s) {st : Tid → Status}
    (hs : ({ s with status := st } : Barrier).schedule .user = some s') : Untouched count s' ∧ s'.entered = s.entered := by
  have hsw := schedule_spec hs
  have hpc : s'.pc = s.pc := by
    rw [hsw.pc]
    exact (congrArg _ (h.pc s.tid).symm).trans (Function.update_eq_self s.tid s.pc)
  refine ⟨⟨?_, ?_, fun t => hpc ▸ h.pc t⟩, ?_⟩
  · rw [hsw.eq]
    exact h.flag
  · rw [hsw.eq]
    exact h.left
  · rw [hsw.eq]
    rfl

/-- Until a thread of `P` calls the barrier, nobody has. -/
theorem Untouched.step {count : UInt32} {i : BarrierInput} {o : Unit} (h : Untouched count s) (ho : OnceEach P s i)
    (hs : s.step i = some (o, s')) : Untouched count s' ∧ s'.entered = s.entered ∨ s.tid ∈ P ∧ s'.entered s.tid = 1 := by
  cases i with
  | wait =>
    obtain ⟨-, hw⟩ := Option.ite_none_right_eq_some.mp hs
    have hw := eq_some_of_answered hw
    rw [barrierWait_first (by rw [h.flag]; simp)] at hw
    refine .inr ⟨ho.1, ?_⟩
    rw [(schedule_spec hw).eq]
    refine (Function.update_self _ _ _).trans ?_
    rw [ho.2]
  | resume =>
    rw [Barrier.step, h.pc] at hs
    cases hs
  | create u =>
    obtain ⟨-, hw⟩ := Option.ite_none_right_eq_some.mp hs
    exact .inl (h.schedule (eq_some_of_answered hw))
  | yield =>
    obtain ⟨-, hw⟩ := Option.ite_none_right_eq_some.mp hs
    have hw : ({ s with status := s.status } : Barrier).schedule .user = some s' := eq_some_of_answered hw
    exact .inl (h.schedule hw)
  | exit =>
    obtain ⟨-, hw⟩ := Option.ite_none_right_eq_some.mp hs
    exact .inl (h.schedule (eq_some_of_answered hw))

theorem Barrier.Outside.untouched {count : UInt32} (h : b.Outside) (hinit : b.barrierInit count = (0, s)) :
    Untouched count s := by
  rw [barrierInit_eq hinit]
  exact ⟨rfl, rfl, h.pc⟩

/-- The thread blocks itself. -/
theorem Untouched.blocks {count : UInt32} (h : Untouched count s) :
    ∃ p s₁, s.firstSchedule = some (p, s₁) ∧ s₁.left = count - 1 ∧ s₁.status s.tid = .blocked := by
  refine ⟨_, _, firstSchedule_first (by rw [h.flag]; simp), ?_, Function.update_self _ _ _⟩
  rw [← h.left]
  rfl

/-! ## Every count -/

theorem schedule_entered {p : BarrierPc} (h : s.schedule p = some s') : s'.entered = s.entered := by
  rw [(schedule_spec h).eq]
  rfl

theorem loopSchedule_entered {q : BarrierPc × Barrier} (h : s.loopSchedule = some q) : q.2.entered = s.entered := by
  unfold Barrier.loopSchedule at h
  split at h
  · rw [← Option.some.inj h]
  · split at h
    · obtain ⟨c, -, rfl⟩ := Option.map_eq_some_iff.mp h
      rfl
    · rw [← Option.some.inj h]

theorem firstSchedule_entered {q : BarrierPc × Barrier} (h : s.firstSchedule = some q) :
    q.2.entered = Function.update s.entered s.tid (s.entered s.tid + 1) := by
  unfold Barrier.firstSchedule at h
  dsimp only at h
  split at h
  · rw [← Option.some.inj h]
  · exact loopSchedule_entered h

theorem waitLoop_entered (h : s.waitLoop = some s') : s'.entered = s.entered := by
  rw [waitLoop_eq] at h
  obtain ⟨q, hq, h⟩ := Option.bind_eq_some_iff.mp h
  rw [schedule_entered h, loopSchedule_entered hq]

theorem barrierWait_entered (h : s.barrierWait = some s') :
    s'.entered = Function.update s.entered s.tid (s.entered s.tid + 1) := by
  rw [barrierWait_eq] at h
  obtain ⟨q, hq, h⟩ := Option.bind_eq_some_iff.mp h
  rw [schedule_entered h, firstSchedule_entered hq]

theorem barrierReturn_entered (s : Barrier) : s.barrierReturn.entered = s.entered := by
  unfold Barrier.barrierReturn
  split
  · rfl
  · rfl

/-- A call that has been made is not forgotten. -/
theorem step_entered {i : BarrierInput} {o : Unit} (hs : s.step i = some (o, s')) (ht : s.entered t ≠ 0) :
    s'.entered t ≠ 0 := by
  cases i with
  | wait =>
    obtain ⟨-, hw⟩ := Option.ite_none_right_eq_some.mp hs
    rw [barrierWait_entered (eq_some_of_answered hw)]
    by_cases htt : t = s.tid
    · rw [htt, Function.update_self]
      exact Nat.succ_ne_zero _
    · rw [Function.update_of_ne htt]
      exact ht
  | resume =>
    rw [Barrier.step] at hs
    cases hpc : s.pc s.tid with
    | user =>
      rw [hpc] at hs
      cases hs
    | inIf =>
      rw [hpc] at hs
      rw [waitLoop_entered (eq_some_of_answered hs)]
      exact ht
    | inWhile =>
      rw [hpc] at hs
      rw [waitLoop_entered (eq_some_of_answered hs)]
      exact ht
    | inLast =>
      rw [hpc] at hs
      rw [← (Prod.mk.inj (Option.some.inj hs)).2, barrierReturn_entered]
      exact ht
  | create u =>
    obtain ⟨-, hw⟩ := Option.ite_none_right_eq_some.mp hs
    rw [schedule_entered (eq_some_of_answered hw)]
    exact ht
  | yield =>
    obtain ⟨-, hw⟩ := Option.ite_none_right_eq_some.mp hs
    rw [schedule_entered (eq_some_of_answered hw)]
    exact ht
  | exit =>
    obtain ⟨-, hw⟩ := Option.ite_none_right_eq_some.mp hs
    rw [schedule_entered (eq_some_of_answered hw)]
    exact ht

theorem run_untouched {count : UInt32} {s₀ : Barrier} {es : List (BarrierInput × Unit)} (h₀ : Untouched count s₀)
    (hrun : Run (Guarded Barrier.step (OnceEach P)) s₀ es s) : Untouched count s ∨ ∃ t ∈ P, s.entered t ≠ 0 := by
  refine hrun.invariant (I := fun s => Untouched count s ∨ ∃ t ∈ P, s.entered t ≠ 0) (.inl h₀) ?_
  intro s e s' hs hstep
  rcases hs with hs | ⟨t, ht, he⟩
  · rcases hs.step hstep.1 hstep.2 with hs' | hs'
    · exact .inl hs'.1
    · exact .inr ⟨s.tid, hs'.1, by rw [hs'.2]; simp⟩
  · exact .inr ⟨t, ht, step_entered hstep.2 he⟩

/-- When the last of the `count` threads of a new barrier calls schedule(), no participant is blocked,
    exactly if there are two participants or more. -/
theorem barrier_release {count : UInt32} {s₀ : Barrier} {es : List (BarrierInput × Unit)} (hb : b.Outside)
    (hinit : b.barrierInit count = (0, s₀)) (hP : P.card = count.toNat)
    (hrun : Run (Guarded Barrier.step (OnceEach P)) s₀ es s) (hlast : LastArrival P s) :
    ∃ p s₁, s.firstSchedule = some (p, s₁) ∧ s₁.left = 0 ∧
      ((∀ t ∈ P, s₁.status t ≠ .blocked) ↔ 2 ≤ count.toNat) := by
  by_cases htwo : 2 ≤ count.toNat
  · have hinv : BarrierInv P s := by
      refine hrun.invariant (I := BarrierInv P) (hb.initial hinit hP (hP ▸ htwo)).inv ?_
      intro s e s' hs hstep
      exact hs.step_once hstep.1 hstep.2
    obtain ⟨p, s₁, hfirst, hleft, hfree⟩ := hinv.releases hlast
    exact ⟨p, s₁, hfirst, hleft, iff_of_true hfree htwo⟩
  · have hone : P.card = 1 := by
      have hpos := Finset.card_pos.mpr ⟨s.tid, hlast.mem⟩
      omega
    have hself : ∀ t ∈ P, t = s.tid := fun t ht => Finset.card_le_one.mp hone.le t ht s.tid hlast.mem
    have hnew : Untouched count s := by
      apply (run_untouched (hb.untouched hinit) hrun).resolve_right
      intro h
      obtain ⟨t, ht, he⟩ := h
      rw [hself t ht] at he
      exact he hlast.entered
    obtain ⟨p, s₁, hfirst, hleft, hblocked⟩ := hnew.blocks
    have hcount : count = 1 := UInt32.toNat_inj.mp (hP.symm.trans hone)
    refine ⟨p, s₁, hfirst, ?_, iff_of_false (fun hfree => hfree s.tid hlast.mem hblocked) htwo⟩
    rw [hleft, hcount]
    rfl

instance (s : Barrier) : DecidablePred (OnceEach P s)
  | .wait => inferInstanceAs (Decidable (_ ∧ _))
  | .resume => inferInstanceAs (Decidable True)
  | .create _ => inferInstanceAs (Decidable True)
  | .yield => inferInstanceAs (Decidable True)
  | .exit => inferInstanceAs (Decidable True)

/-- A barrier before it is initialised; threads 0 and 1 are there and 0 runs. -/
def newBarrier : Barrier := { twoThreads with count := 0, left := 0 }

theorem newBarrier_outside : newBarrier.Outside :=
  ⟨fun _ => rfl, fun _ => rfl, fun _ => rfl, rfl, twoThreads_initial.others⟩

/-- Thread 0 waits, and thread 1 releases it. -/
theorem barrier_release_two : ∃ es s, Run (Guarded Barrier.step (OnceEach {0, 1})) twoThreads es s ∧
    ∃ p s₁, s.firstSchedule = some (p, s₁) ∧ s₁.left = 0 ∧ ∀ t ∈ ({0, 1} : Finset Tid), s₁.status t ≠ .blocked := by
  obtain ⟨es, s, hrun, hp⟩ := barrier_run_of_inputs (OnceEach {0, 1}) [.wait]
    (fun s => decide (s.tid ∈ ({0, 1} : Finset Tid) ∧ s.pc s.tid = .user ∧ s.entered s.tid = 0 ∧
      ∀ t ∈ ({0, 1} : Finset Tid), t ≠ s.tid → s.entered t = 1)) (by decide +kernel)
  obtain ⟨hmem, hpc, he, hothers⟩ := of_decide_eq_true hp
  have hinit : newBarrier.barrierInit 2 = (0, twoThreads) := rfl
  obtain ⟨p, s₁, hfirst, hleft, hfree⟩ := barrier_release newBarrier_outside hinit rfl hrun
    ⟨hmem, hpc, he, hothers⟩
  exact ⟨es, s, hrun, p, s₁, hfirst, hleft, hfree.mpr le_rfl⟩

/-- A barrier for one thread: it blocks itself. -/
theorem single_thread_blocked :
    ¬ ∀ (P : Finset Tid) (b s₀ s : Barrier) (count : UInt32) (es : List (BarrierInput × Unit)), b.Outside →
      b.barrierInit count = (0, s₀) → P.card = count.toNat → Run (Guarded Barrier.step (OnceEach P)) s₀ es s →
      LastArrival P s → ∀ p s₁, s.firstSchedule = some (p, s₁) → ∀ t ∈ P, s₁.status t ≠ .blocked := by
  intro h
  have hlast : LastArrival {mainTid} ({ newBarrier with count := 1, left := 1 } : Barrier) :=
    ⟨Finset.mem_singleton_self _, rfl, rfl, fun t ht htt => absurd (Finset.mem_singleton.mp ht) htt⟩
  have hblocked := h {mainTid} newBarrier _ _ 1 [] newBarrier_outside rfl rfl .start hlast _ _
    (firstSchedule_first (by decide)) mainTid (Finset.mem_singleton_self _)
  exact hblocked rfl

end EC440.Threads
