/-
  Round robin. schedule() takes the first ready slot after the current one, round the table. A
  thread that stays ready is passed by nobody twice: whatever happens to the other threads, each
  schedule() brings the current slot closer to it, so that it runs within MAX_THREADS - 1 calls.
-/
import EC440.Threads.Barrier

namespace EC440.Threads

open EC440.Lib

/-- The part of TCB_Table that schedule() reads and writes, and TID. -/
structure Table where
  status : Tid → Status
  tid : Tid

namespace Table

/-- schedule(); `none` when its search does not end. -/
def schedule (s : Table) : Option Table :=
  (pick s.status s.tid).map fun u => { status := switched s.status s.tid u, tid := u }

/-- A call of schedule(), or anything else that sets statuses. -/
inductive Input
  | schedule
  | change (status : Tid → Status)

def step (s : Table) : Input → Option (Unit × Table)
  | .schedule => s.schedule.map fun s => ((), s)
  | .change status => some ((), { s with status := status })

/-- `t` is ready, and not the current thread. -/
structure Waits (t : Tid) (s : Table) : Prop where
  ready : s.status t = .ready
  other : s.tid ≠ t

/-- How often schedule() was called. -/
def calls (es : List (Input × Unit)) : Nat :=
  es.countP fun e => match e.1 with
    | .schedule => true
    | .change _ => false

end Table

/-! ## The barrier's schedule() -/

theorem Barrier.schedule_table {s s' : Barrier} {p : BarrierPc} (h : s.schedule p = some s') :
    Table.schedule ⟨s.status, s.tid⟩ = some ⟨s'.status, s'.tid⟩ := by
  obtain ⟨u, hu, rfl⟩ := Option.map_eq_some_iff.mp h
  unfold Table.schedule
  rw [hu]
  rfl

/-! ## One call -/

variable {s s' : Table} {t : Tid}

namespace Table

/-- There is a slot for schedule() to find. -/
theorem ready_of_preempt (h : (∃ u, s.status u = .ready) ∨ s.status s.tid = .running) :
    ∃ u, preempt s.status s.tid u = .ready := by
  by_cases hrun : s.status s.tid = .running
  · exact ⟨s.tid, preempt_self hrun⟩
  · obtain ⟨u, hu⟩ := h.resolve_right hrun
    refine ⟨u, ?_⟩
    rw [preempt_not_running hrun]
    exact hu

/-- schedule() selects the first ready slot after the current one. -/
theorem schedule_selects (h : (∃ u, s.status u = .ready) ∨ s.status s.tid = .running) :
    ∃ k s', 1 ≤ k ∧ s.schedule = some s' ∧ s'.tid = after s.tid k ∧
      preempt s.status s.tid (after s.tid k) = .ready ∧
      ∀ j, 1 ≤ j → j < k → preempt s.status s.tid (after s.tid j) ≠ .ready := by
  obtain ⟨u, hu⟩ := ready_of_preempt h
  obtain ⟨v, hv⟩ := pick_returns hu
  obtain ⟨k, hk, -, hvk, hready, hskip⟩ := search_spec hv
  refine ⟨k, ⟨switched s.status s.tid v, v⟩, hk, ?_, hvk, hvk ▸ hready, hskip⟩
  unfold schedule
  rw [hv]
  rfl

theorem distance_pos (h : s.tid ≠ t) : 1 ≤ distance s.tid t := by
  rw [← rounds_eq_distance h]
  exact Nat.le_add_left 1 _

/-- A slot that is not passed over comes closer by the places the search goes. -/
theorem distance_of_rounds {a u : Tid} (ht : a ≠ t) (h : rounds a u ≤ rounds a t) :
    distance u t + rounds a u = distance a t := by
  rw [← rounds_eq_distance ht]
  have ha := a.isLt
  have hu := u.isLt
  have ht' := t.isLt
  unfold rounds at h ⊢
  unfold distance
  omega

/-- schedule() selects the waiting thread, or comes closer to it. -/
theorem Waits.schedule (h : Waits t s) (hs : s.schedule = some s') :
    s'.tid = t ∨ s'.status t = .ready ∧ distance s'.tid t < distance s.tid t := by
  obtain ⟨u, hu, rfl⟩ := Option.map_eq_some_iff.mp hs
  have hready : preempt s.status s.tid t = .ready := by
    rw [preempt_of_ne (Ne.symm h.other)]
    exact h.ready
  by_cases hut : u = t
  · exact .inl hut
  · refine .inr ⟨?_, ?_⟩
    · exact (switched_of_ne (Ne.symm hut)).trans hready
    · have hd := distance_of_rounds h.other (pick_first hu hready)
      have hpos : 1 ≤ rounds s.tid u := Nat.le_add_left 1 _
      dsimp only
      omega

theorem Waits.returns (h : Waits t s) : ∃ s', s.schedule = some s' := by
  obtain ⟨-, s', -, hs', -⟩ := schedule_selects (.inl ⟨t, h.ready⟩)
  exact ⟨s', hs'⟩

/-! ## Runs -/

theorem calls_snoc (es : List (Input × Unit)) (i : Input) :
    calls (es ++ [(i, ())]) = match i with
      | .schedule => calls es + 1
      | .change _ => calls es := by
  unfold calls
  rw [List.countP_append]
  cases i with
  | schedule => rfl
  | change status => rfl

/-- The calls of schedule() so far are made up for by the distance. -/
structure Closer (t : Tid) (es : List (Input × Unit)) (s : Table) : Prop where
  calls : calls es ≤ 127
  distance : s.tid = t ∨ distance s.tid t + Table.calls es ≤ 127

theorem Closer.step {es : List (Input × Unit)} {i : Input} (h : Closer t es s) (hw : Waits t s)
    (hs : s.step i = some ((), s')) : Closer t (es ++ [(i, ())]) s' := by
  have hd := h.distance.resolve_left hw.other
  cases i with
  | schedule =>
    obtain ⟨s'', hs'', he⟩ := Option.map_eq_some_iff.mp hs
    obtain rfl : s'' = s' := (Prod.mk.inj he).2
    have hpos := distance_pos hw.other
    refine ⟨?_, ?_⟩
    · rw [calls_snoc]
      dsimp only
      omega
    · rw [calls_snoc]
      dsimp only
      refine (hw.schedule hs'').imp_right fun hlt => ?_
      have := hlt.2
      omega
  | change status =>
    obtain rfl : { s with status := status } = s' := (Prod.mk.inj (Option.some.inj hs)).2
    refine ⟨?_, .inr ?_⟩
    · rw [calls_snoc]
      exact h.calls
    · rw [calls_snoc]
      exact hd

theorem run_closer {es : List (Input × Unit)} {s₀ : Table}
    (hrun : Run (Guarded step fun s _ => Waits t s) s₀ es s) : Closer t es s := by
  refine hrun.invariant_trace (I := Closer t) ⟨Nat.zero_le _, .inr ?_⟩ ?_
  · have hlt : distance s₀.tid t < 128 := Nat.mod_lt _ (by decide)
    have hzero : calls [] = 0 := rfl
    omega
  · intro es s e s' hs hstep
    exact hs.step hstep.1 hstep.2

/-- schedule() selects the first ready slot after the current one; and in every run in which `t` stays
    ready, each call selects `t` or comes closer to it, so that the 127th call has selected it. -/
theorem round_robin :
    (∀ s : Table, (∃ u, s.status u = .ready) ∨ s.status s.tid = .running → ∃ k s', 1 ≤ k ∧ s.schedule = some s' ∧
      s'.tid = after s.tid k ∧ preempt s.status s.tid (after s.tid k) = .ready ∧
      ∀ j, 1 ≤ j → j < k → preempt s.status s.tid (after s.tid j) ≠ .ready) ∧
    ∀ (t : Tid) (s₀ s : Table) (es : List (Input × Unit)), Run (Guarded step fun s _ => Waits t s) s₀ es s →
      (Waits t s → ∃ s', s.schedule = some s' ∧
        (s'.tid = t ∨ s'.status t = .ready ∧ distance s'.tid t < distance s.tid t)) ∧
      calls es ≤ maxThreads - 1 ∧ (calls es = maxThreads - 1 → s.tid = t) := by
  refine ⟨fun s h => schedule_selects h, fun t s₀ s es hrun => ⟨fun hw => ?_, ?_, fun hall => ?_⟩⟩
  · obtain ⟨s', hs'⟩ := hw.returns
    exact ⟨s', hs', hw.schedule hs'⟩
  · exact (run_closer hrun).calls
  · by_contra ht
    have hd := (run_closer hrun).distance.resolve_left ht
    have hpos := distance_pos ht
    unfold maxThreads at hall
    omega

instance (t : Tid) (s : Table) : Decidable (Waits t s) :=
  decidable_of_iff (s.status t = .ready ∧ s.tid ≠ t) ⟨fun h => ⟨h.1, h.2⟩, fun h => ⟨h.ready, h.other⟩⟩

/-- Threads 0 to 2, of which `t` has the status `st`; 0 runs. -/
def threeThreads (t : Tid) (st : Status) : Table where
  status := Function.update (fun u => if u = mainTid then .running else if u.val ≤ 2 then .ready else .empty) t st
  tid := mainTid

/-- Thread 2 is selected by the second call, also when thread 1 blocks in between. -/
theorem round_robin_three : ∃ es s, Run (Guarded step fun s _ => Waits 2 s) (threeThreads 0 .running) es s ∧
    s.tid = 2 ∧ calls es = 2 ∧ calls es ≤ maxThreads - 1 := by
  have hexec : ((exec step (fun s _ => decide (Waits 2 s)) (threeThreads 0 .running)
      [.schedule, .change (threeThreads 1 .blocked).status, .schedule]).map fun q =>
        decide (q.2.tid = 2 ∧ calls q.1 = 2)) = some true := by
    decide +kernel
  obtain ⟨⟨es, s⟩, he, hp⟩ := Option.map_eq_some_iff.mp hexec
  obtain ⟨htid, hcalls⟩ := of_decide_eq_true hp
  have hrun : Run (Guarded step fun s _ => Waits 2 s) (threeThreads 0 .running) ([] ++ es) s :=
    exec_run (fun s _ _ h => of_decide_eq_true h) .start he
  exact ⟨es, s, hrun, htid, hcalls, (round_robin.2 2 _ s es hrun).2.1⟩

end Table

end EC440.Threads
