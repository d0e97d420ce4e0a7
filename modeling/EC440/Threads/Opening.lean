/-
  The barrier opens. Once every thread has called pthread_barrier_wait for a round, each of them is
  out of it after a bounded number of steps, whatever the others do meanwhile: they may give way,
  create threads, exit, or call pthread_barrier_wait for the next round.

  A thread that has not returned is ready, so round robin brings it up; it needs two turns, one to
  leave the while loop and one to return. `Barrier.weight` is at least twice the calls of schedule()
  that this takes.
-/
import EC440.Threads.Release
import EC440.Threads.RoundRobin

namespace EC440.Threads

open EC440.Lib

variable {P : Finset Tid} {s s' s₁ : Barrier} {t a : Tid} {p : BarrierPc} {r : Nat} {i : BarrierInput} {o : Unit}

/-! ## Steps -/

/-- `s₁` is `s` where the running thread has come to its next schedule(). -/
structure Barrier.UpTo (s s₁ : Barrier) : Prop where
  tid : s₁.tid = s.tid
  pc : s₁.pc = s.pc
  entered : ∀ t, s.entered t ≤ s₁.entered t
  alive : ∀ t, s.pc t ≠ .user → s.Alive t → s.status s.tid = .running → preempt s₁.status s.tid t = .ready

theorem Barrier.UpTo.refl (s : Barrier) : s.UpTo s := by
  refine ⟨rfl, rfl, fun _ => le_rfl, fun t _ ht hrun => ?_⟩
  by_cases htt : t = s.tid
  · rw [htt]
    exact preempt_self hrun
  · rw [preempt_of_ne htt]
    exact ht.resolve_right htt

/-- The running thread is in user code, and leaves the ready threads ready. -/
theorem Barrier.UpTo.user (hpc : s.pc s.tid = .user) (htid : s₁.tid = s.tid) (hpcs : s₁.pc = s.pc)
    (hentered : ∀ t, s.entered t ≤ s₁.entered t)
    (hready : ∀ t, t ≠ s.tid → s.status t = .ready → s₁.status t = .ready) : s.UpTo s₁ := by
  refine ⟨htid, hpcs, hentered, fun t ht halive _ => ?_⟩
  have htt : t ≠ s.tid := by
    rintro rfl
    exact ht hpc
  rw [preempt_of_ne htt]
  exact hready t htt (halive.resolve_right htt)

theorem waitLoop_upTo (hcall : s.flag = 1 → s.callingThread ≠ none) :
    ∃ s₁ p, s.waitLoop = s₁.schedule p ∧ s.UpTo s₁ ∧ (s.left = 0 → p = .inLast) ∧
      ∀ t, t ≠ s.tid → s.status t = .ready → s₁.status t = .ready := by
  unfold Barrier.waitLoop
  split
  · next hleft => exact ⟨s, _, rfl, .refl s, fun hz => absurd hz hleft, fun _ _ h => h⟩
  · split
    · next hflag =>
      obtain ⟨c, hc⟩ := Option.ne_none_iff_exists'.mp (hcall hflag)
      rw [hc]
      have hupdate : ∀ t, s.status t = .ready → Function.update s.status c .ready t = .ready := by
        intro t ht
        by_cases htc : t = c
        · rw [htc, Function.update_self]
        · rw [Function.update_of_ne htc, ht]
      refine ⟨_, _, rfl, ⟨rfl, rfl, fun _ => le_rfl, fun t _ ht hrun => ?_⟩, fun _ => rfl, fun t _ => hupdate t⟩
      by_cases htt : t = s.tid
      · rw [htt]
        by_cases htc : s.tid = c
        · dsimp only
          rw [← htc, preempt_not_running (by rw [Function.update_self]; simp), Function.update_self]
        · exact preempt_self ((Function.update_of_ne htc _ _).trans hrun)
      · rw [preempt_of_ne htt]
        exact hupdate t (ht.resolve_right htt)
    · exact ⟨s, _, rfl, .refl s, fun _ => rfl, fun _ _ h => h⟩

theorem le_entered (s : Barrier) (t : Tid) : s.entered t ≤ s.arriveNext.entered t := by
  unfold Barrier.arriveNext
  dsimp only
  by_cases htt : t = s.tid
  · rw [htt, Function.update_self]
    exact Nat.le_succ _
  · rw [Function.update_of_ne htt]

theorem barrierWait_upTo (hpc : s.pc s.tid = .user) (hcall : s.flag = 1 → s.callingThread ≠ none) :
    ∃ s₁ p, s.barrierWait = s₁.schedule p ∧ s.UpTo s₁ := by
  by_cases hflag : s.flag = 1
  · obtain ⟨s₁, p, hw, hupto, -, hready⟩ := waitLoop_upTo (s := s.arriveNext) hcall
    refine ⟨s₁, p, (if_neg (not_not.mpr hflag)).trans hw, .user hpc hupto.tid hupto.pc (fun t => ?_) hready⟩
    exact (le_entered s t).trans (hupto.entered t)
  · refine ⟨s.arriveFirst, _, barrierWait_first hflag, .user hpc rfl rfl (le_entered s) fun t htt ht => ?_⟩
    exact (Function.update_of_ne htt _ _).trans ht

/-- What the running thread can do next. -/
def Barrier.Applicable (s : Barrier) : BarrierInput → Prop
  | .resume => s.pc s.tid ≠ .user
  | .create u => s.pc s.tid = .user ∧ s.status u = .empty
  | _ => s.pc s.tid = .user

theorem applicable_of_step (h : s.step i = some (o, s')) : s.Applicable i := by
  cases i with
  | wait => exact (Option.ite_none_right_eq_some.mp h).1
  | resume =>
    intro hpc
    rw [Barrier.step, hpc] at h
    cases h
  | create u => exact (Option.ite_none_right_eq_some.mp h).1
  | yield => exact (Option.ite_none_right_eq_some.mp h).1
  | exit => exact (Option.ite_none_right_eq_some.mp h).1

/-- A step is the return from pthread_barrier_wait, or leads to a call of schedule(). -/
theorem step_upTo (hcall : s.flag = 1 → s.callingThread ≠ none) (hi : s.Applicable i) :
    (s.pc s.tid = .inLast ∧ s.step i = some ((), s.barrierReturn)) ∨
      s.pc s.tid ≠ .inLast ∧ ∃ s₁ p, s.step i = (s₁.schedule p).map (fun s => ((), s)) ∧ s.UpTo s₁ ∧
        (s.pc s.tid ≠ .user → s.left = 0 → p = .inLast) := by
  cases i with
  | wait =>
    have hpc : s.pc s.tid = .user := hi
    obtain ⟨s₁, p, hw, hupto⟩ := barrierWait_upTo hpc hcall
    refine .inr ⟨by rw [hpc]; simp, s₁, p, ?_, hupto, fun hne => absurd hpc hne⟩
    rw [Barrier.step, if_pos hpc, hw]
  | resume =>
    cases hpc : s.pc s.tid with
    | user => exact absurd hpc hi
    | inLast => exact .inl ⟨rfl, by rw [Barrier.step, hpc]⟩
    | inIf =>
      obtain ⟨s₁, p, hw, hupto, hlast, -⟩ := waitLoop_upTo hcall
      exact .inr ⟨by simp, s₁, p, by rw [Barrier.step, hpc, hw], hupto, fun _ => hlast⟩
    | inWhile =>
      obtain ⟨s₁, p, hw, hupto, hlast, -⟩ := waitLoop_upTo hcall
      exact .inr ⟨by simp, s₁, p, by rw [Barrier.step, hpc, hw], hupto, fun _ => hlast⟩
  | create u =>
    obtain ⟨hpc, hu⟩ := hi
    refine .inr ⟨by rw [hpc]; simp, { s with status := Function.update s.status u .ready }, .user, ?_,
      .user hpc rfl rfl (fun _ => le_rfl) fun t htt ht => ?_, fun hne => absurd hpc hne⟩
    · rw [Barrier.step, if_pos ⟨hpc, hu⟩]
    · have htu : t ≠ u := by
        rintro rfl
        rw [hu] at ht
        cases ht
      exact (Function.update_of_ne htu _ _).trans ht
  | yield =>
    have hpc : s.pc s.tid = .user := hi
    refine .inr ⟨by rw [hpc]; simp, s, .user, ?_, .refl s, fun hne => absurd hpc hne⟩
    rw [Barrier.step, if_pos hpc]
  | exit =>
    have hpc : s.pc s.tid = .user := hi
    refine .inr ⟨by rw [hpc]; simp, { s with status := Function.update s.status s.tid .exited }, .user, ?_,
      .user hpc rfl rfl (fun _ => le_rfl) fun t htt ht => ?_, fun hne => absurd hpc hne⟩
    · rw [Barrier.step, if_pos hpc]
    · exact (Function.update_of_ne htt _ _).trans ht

/-! ## A thread that has not returned -/

theorem BarrierInv.callingThread (h : BarrierInv P s) (hflag : s.flag = 1) : s.callingThread ≠ none := by
  rcases h.phase with ⟨r, hg⟩ | ⟨r, a, hr, -⟩
  · obtain ⟨a, hcall, -⟩ := hg.first hflag
    rw [hcall]
    simp
  · exact absurd hflag hr.flag

/-- All threads have entered round `r`, and `t` has not returned from it. -/
structure Due (P : Finset Tid) (r : Nat) (t : Tid) (s : Barrier) : Prop where
  mem : t ∈ P
  entered : ∀ u ∈ P, r < s.entered u
  results : (s.results t).length ≤ r

theorem Due.inside (h : Due P r t s) (hb : BarrierInv P s) : s.pc t ≠ .user ∧ s.entered t = r + 1 := by
  have hlt := h.entered t h.mem
  have hle := h.results
  have hpc : s.pc t ≠ .user := by
    intro hpc
    have heq := hb.calls.user t hpc
    omega
  have heq := hb.calls.inside t hpc
  exact ⟨hpc, by omega⟩

/-- Up to its last schedule(), the round is being released. -/
theorem Due.releasing (h : Due P r t s) (hb : BarrierInv P s) (hpc : s.pc t ≠ .inLast) :
    ∃ a, Releasing P r a s := by
  obtain ⟨huser, he⟩ := h.inside hb
  rcases hb.phase with ⟨r', hg⟩ | ⟨r', a, hr, -⟩
  · exfalso
    obtain rfl : r' = r := by
      rcases hg.entered t h.mem with hr' | hr'
      · rcases hg.old t h.mem hr' with hq | hq
        · exact absurd hq huser
        · exact absurd hq hpc
      · omega
    -- every thread has arrived
    have hall : arrived P r' s = P := by
      refine Finset.filter_true_of_mem fun u hu => ?_
      have hlt := h.entered u hu
      rcases hg.entered u hu with hq | hq <;> omega
    have hleft := hg.left
    rw [hall, hb.calls.count] at hleft
    exact hg.nonzero (UInt32.toNat_inj.mp (by rw [show (0 : UInt32).toNat = 0 from rfl]; omega))
  · obtain rfl : r' = r := by
      have hq := hr.entered t h.mem
      omega
    exact ⟨a, hr⟩

theorem Due.alive (h : Due P r t s) (hb : BarrierInv P s) : s.Alive t := by
  refine hb.status.alive t (h.inside hb).1 fun hblk => ?_
  obtain ⟨hflag, hcall⟩ := Option.ite_none_right_eq_some.mp hblk
  by_cases hpc : s.pc t = .inLast
  · rcases hb.phase with ⟨r', hg⟩ | ⟨r', a, hr, -⟩
    · obtain ⟨a, ha, hin⟩ := hg.first hflag
      rw [hcall, Option.some.injEq] at ha
      rw [← ha, hpc] at hin
      cases hin
    · exact hr.flag hflag
  · obtain ⟨a, hr⟩ := h.releasing hb hpc
    exact hr.flag hflag

/-! ## Its turns -/

/-- Two turns, the first of them in the loop. -/
def Barrier.toReturn (t : Tid) (s : Barrier) : Nat :=
  distance s.tid t + match s.pc t with
    | .inIf => 128
    | .inWhile => 128
    | .inLast => 0
    | .user => 0

/-- A return makes no call of schedule(), and is not followed by another one. -/
def Barrier.weight (t : Tid) (s : Barrier) : Nat := 2 * s.toReturn t + if s.pc s.tid = .inLast then 1 else 0

theorem distance_lt (t u : Tid) : distance t u < 128 := Nat.mod_lt _ (by decide)

theorem weight_le (t : Tid) (s : Barrier) : s.weight t ≤ 511 := by
  have hlt := distance_lt s.tid t
  unfold Barrier.weight Barrier.toReturn
  split <;> split <;> omega

/-- A schedule() of another thread brings `t` nearer. -/
theorem toReturn_schedule (hupto : s.UpTo s₁) (hs : s₁.schedule p = some s') (htt : t ≠ s.tid)
    (hready : preempt s₁.status s.tid t = .ready) : s'.toReturn t < s.toReturn t := by
  have hpc : s'.pc t = s.pc t := by
    rw [(schedule_spec hs).pc, atPc_of_ne p (hupto.tid ▸ htt), hupto.pc]
  have hw : Table.Waits t ⟨s₁.status, s₁.tid⟩ := by
    refine ⟨?_, hupto.tid ▸ Ne.symm htt⟩
    rw [preempt_of_ne htt] at hready
    exact hready
  have hpos := Table.distance_pos hw.other
  have hdist : distance s'.tid t < distance s.tid t := by
    rw [← hupto.tid]
    rcases hw.schedule (Barrier.schedule_table hs) with htid | ⟨-, hlt⟩
    · have htid : s'.tid = t := htid
      rw [htid, distance_self]
      exact hpos
    · exact hlt
  unfold Barrier.toReturn
  rw [hpc]
  omega

theorem barrierReturn_tid (s : Barrier) : s.barrierReturn.tid = s.tid := by
  unfold Barrier.barrierReturn
  split <;> rfl

theorem barrierReturn_pc (s : Barrier) : s.barrierReturn.pc = Function.update s.pc s.tid .user := by
  unfold Barrier.barrierReturn
  split <;> rfl

/-- A return, also of `t` itself. -/
theorem weight_return (t : Tid) (hpc : s.pc s.tid = .inLast) : s.barrierReturn.weight t < s.weight t := by
  have huser : s.barrierReturn.pc s.barrierReturn.tid = .user := by
    rw [barrierReturn_tid, barrierReturn_pc, Function.update_self]
  have hto : s.barrierReturn.toReturn t ≤ s.toReturn t := by
    unfold Barrier.toReturn
    rw [barrierReturn_tid, barrierReturn_pc]
    by_cases htt : t = s.tid
    · rw [htt, Function.update_self, distance_self]
      exact Nat.zero_le _
    · rw [Function.update_of_ne htt]
  unfold Barrier.weight
  rw [huser, hpc, if_neg (by simp), if_pos rfl]
  omega

theorem Due.step (h : Due P r t s) (hb : BarrierInv P s) (hs : s.step i = some (o, s')) :
    s'.weight t < s.weight t ∧ ∀ u, s.entered u ≤ s'.entered u := by
  obtain ⟨huser, -⟩ := h.inside hb
  rcases step_upTo hb.callingThread (applicable_of_step hs) with ⟨hpc, hstep⟩ | ⟨hpc, s₁, p, hstep, hupto, hlast⟩
  · obtain rfl : s.barrierReturn = s' := (Prod.mk.inj (Option.some.inj (hstep.symm.trans hs))).2
    exact ⟨weight_return t hpc, fun u => by rw [barrierReturn_entered]⟩
  · rw [hstep] at hs
    have hsched := eq_some_of_answered hs
    have hsw := schedule_spec hsched
    refine ⟨?_, fun u => ?_⟩
    · by_cases htt : t = s.tid
      · -- its first turn
        rw [htt] at h huser ⊢
        obtain ⟨a, hr⟩ := h.releasing hb hpc
        have hpc' : s'.pc s.tid = .inLast := by
          rw [hsw.pc, ← hupto.tid, atPc_self]
          exact hlast huser hr.left
        have hd := distance_lt s'.tid s.tid
        have hto : 128 ≤ s.toReturn s.tid := by
          unfold Barrier.toReturn
          split
          · omega
          · omega
          · next hq => exact absurd hq hpc
          · next hq => exact absurd hq huser
        unfold Barrier.weight
        rw [if_neg hpc, Barrier.toReturn, hpc']
        dsimp only
        split <;> omega
      · have hlt := toReturn_schedule hupto hsched htt (hupto.alive t huser (h.alive hb) hb.status.running)
        unfold Barrier.weight
        split <;> omega
    · rw [hsw.eq]
      exact hupto.entered u

/-- Nothing that the running thread can do ends in a search of schedule() that does not. -/
theorem Due.answered (h : Due P r t s) (hb : BarrierInv P s) (hi : s.Applicable i) :
    ∃ s', s.step i = some ((), s') := by
  rcases step_upTo hb.callingThread hi with ⟨-, hstep⟩ | ⟨-, s₁, p, hstep, hupto, -⟩
  · exact ⟨_, hstep⟩
  · have hready := hupto.alive t (h.inside hb).1 (h.alive hb) hb.status.running
    rw [← hupto.tid] at hready
    obtain ⟨u, hu⟩ := pick_returns hready
    obtain ⟨s', hs'⟩ : ∃ s', s₁.schedule p = some s' := by
      unfold Barrier.schedule
      rw [hu]
      exact ⟨_, rfl⟩
    exact ⟨s', by rw [hstep, hs', Option.map_some]⟩

/-! ## Runs -/

/-- When all threads have entered a round, none of them stays in it: in every order of steps, and
    whatever the other threads do, each has returned within 511 steps, and until then the running
    thread always comes through schedule(). -/
theorem barrier_opens {s₀ : Barrier} {es : List (BarrierInput × Unit)} (h₀ : s₀.Initial P)
    (hrun : Run (Guarded Barrier.step fun s i => ByParticipants P s i ∧ AfterRelease s i) s₀ es s)
    (hall : ∀ u ∈ P, r < s.entered u) (ht : t ∈ P) :
    (∀ es' s', Run (Guarded Barrier.step fun s i => (ByParticipants P s i ∧ AfterRelease s i) ∧
      (s.results t).length ≤ r) s es' s' → es'.length ≤ 511) ∧
    ((s.results t).length ≤ r → ∀ i, s.Applicable i → ∃ s', s.step i = some ((), s')) := by
  have hb : BarrierInv P s := by
    refine hrun.invariant (I := BarrierInv P) h₀.inv ?_
    intro s e s' hs ⟨⟨hby, hafter⟩, hstep⟩
    exact hs.step hby hafter hstep
  refine ⟨fun es' s' hrun' => ?_, fun hres i hi => Due.answered ⟨ht, hall, hres⟩ hb hi⟩
  have hwithin := hrun'.within (I := fun s => BarrierInv P s ∧ ∀ u ∈ P, r < s.entered u) ⟨hb, hall⟩ ?_
  · have hle := hwithin.length_le (w := Barrier.weight t) fun s e s' hs =>
      (Due.step ⟨ht, hs.1.2, hs.2.1.2⟩ hs.1.1 hs.2.2).1
    have hmax := weight_le t s
    omega
  · intro s e s' hs ⟨⟨⟨hby, hafter⟩, hres⟩, hstep⟩
    have hentered := (Due.step ⟨ht, hs.2, hres⟩ hs.1 hstep).2
    exact ⟨hs.1.step hby hafter hstep, fun u hu => lt_of_lt_of_le (hs.2 u hu) (hentered u)⟩

/-- Thread 0 has blocked, and thread 1 was the last to arrive: thread 0 is out within 511 steps. -/
theorem barrier_opens_two : ∃ es s,
    Run (Guarded Barrier.step fun s i => ByParticipants {0, 1} s i ∧ AfterRelease s i) twoThreads es s ∧
      (s.pc 0 = .inIf ∧ s.left = 0) ∧
      (∀ es' s', Run (Guarded Barrier.step fun s i => (ByParticipants {0, 1} s i ∧ AfterRelease s i) ∧
        (s.results 0).length ≤ 0) s es' s' → es'.length ≤ 511) ∧
      ∃ s', s.step .resume = some ((), s') := by
  obtain ⟨es, s, hrun, hp⟩ := barrier_run_of_inputs
    (fun s i => ByParticipants {0, 1} s i ∧ AfterRelease s i) [.wait, .wait]
    (fun s => decide ((s.pc 0 = .inIf ∧ s.left = 0) ∧ (0 < s.entered 0 ∧ 0 < s.entered 1) ∧ s.results 0 = [] ∧
      s.pc s.tid ≠ .user)) (by decide +kernel)
  obtain ⟨hstate, ⟨h0, h1⟩, hres, hpc⟩ := of_decide_eq_true hp
  have hall : ∀ u ∈ ({0, 1} : Finset Tid), 0 < s.entered u := by
    intro u hu
    rcases Finset.mem_insert.mp hu with rfl | hu
    · exact h0
    · rw [Finset.mem_singleton.mp hu]
      exact h1
  obtain ⟨hbound, hanswered⟩ := barrier_opens twoThreads_initial hrun hall (Finset.mem_insert_self 0 {1})
  exact ⟨es, s, hrun, hstate, hbound, hanswered (by rw [hres]; rfl) .resume hpc⟩

end EC440.Threads
