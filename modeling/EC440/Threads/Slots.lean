/-
  The search of pthread_create for an empty slot, with the indices at which it reads TCB_Table. The
  table is read before the index is tested, so that a search which finds no slot reads behind its
  end; and slots of exited threads are not given out again, so 127 creations are enough for that.
-/
import EC440.Threads.Library

namespace EC440.Threads

open EC440.Lib

/-- The status read at index `t`; `beyond` is the memory behind the table. -/
def slotStatus (status : Tid → Status) (beyond : Nat → Status) (t : Nat) : Status :=
  if h : t < 128 then status ⟨t, h⟩ else beyond t

/-- `while(TCB_Table[current_tid].status != TS_EMPTY && current_tid < MAX_THREADS) current_tid++;`: the
    indices read, and `current_tid` at the end. -/
def slotSearch (status : Tid → Status) (beyond : Nat → Status) (currentTid : Nat) : List Nat × Nat :=
  if h : slotStatus status beyond currentTid ≠ .empty ∧ currentTid < maxThreads then
    let p := slotSearch status beyond (currentTid + 1)
    (currentTid :: p.1, p.2)
  else ([currentTid], currentTid)
termination_by maxThreads - currentTid
decreasing_by
  have := h.2
  omega

variable {status : Tid → Status} {beyond : Nat → Status} {t : Nat}

/-- `u` is the first empty slot from `t` on. -/
structure FirstEmpty (status : Tid → Status) (t : Nat) (u : Tid) : Prop where
  le : t ≤ u.val
  empty : status u = .empty
  least : ∀ v : Tid, t ≤ v.val → v.val < u.val → status v ≠ .empty

/-- What is claimed of the search: it stays in the table, and finds the first empty slot or none. -/
structure SlotSearchOk (status : Tid → Status) (beyond : Nat → Status) : Prop where
  reads : ∀ i ∈ (slotSearch status beyond 1).1, i < maxThreads
  ends : (∃ u, FirstEmpty status 1 u ∧ (slotSearch status beyond 1).2 = u.val) ∨
    (∀ u : Tid, 1 ≤ u.val → status u ≠ .empty) ∧ (slotSearch status beyond 1).2 = maxThreads

theorem slotStatus_of_lt (h : t < 128) : slotStatus status beyond t = status ⟨t, h⟩ := dif_pos h

theorem slotSearch_next (h : t < 128) (he : status ⟨t, h⟩ ≠ .empty) : slotSearch status beyond t =
    (t :: (slotSearch status beyond (t + 1)).1, (slotSearch status beyond (t + 1)).2) := by
  rw [slotSearch, dif_pos ⟨by rw [slotStatus_of_lt h]; exact he, h⟩]

theorem slotSearch_found (h : t < 128) (he : status ⟨t, h⟩ = .empty) : slotSearch status beyond t = ([t], t) := by
  rw [slotSearch, dif_neg fun hc => hc.1 (by rw [slotStatus_of_lt h]; exact he)]

/-- Whatever is read behind the table, the second test ends the loop. -/
theorem slotSearch_end : slotSearch status beyond 128 = ([128], 128) := by
  rw [slotSearch, dif_neg fun hc => absurd hc.2 (by decide)]

theorem FirstEmpty.of_succ {u : Tid} (hu : FirstEmpty status (t + 1) u) (h : t < 128) (he : status ⟨t, h⟩ ≠ .empty) :
    FirstEmpty status t u := by
  refine ⟨Nat.le_of_succ_le hu.le, hu.empty, fun v hv hvu => ?_⟩
  by_cases hvt : v.val = t
  · rw [show v = ⟨t, h⟩ from Fin.ext hvt]
    exact he
  · exact hu.least v (by omega) hvu

/-- The search from `t` on: it finds a slot and has read the slots up to it, or it runs over the end. -/
theorem slotSearch_spec (k : Nat) (h : t + k = 128) :
    (∃ u, FirstEmpty status t u ∧ (slotSearch status beyond t).2 = u.val ∧
      ∀ i ∈ (slotSearch status beyond t).1, i < maxThreads) ∨
    (∀ u : Tid, t ≤ u.val → status u ≠ .empty) ∧ (slotSearch status beyond t).2 = maxThreads ∧
      maxThreads ∈ (slotSearch status beyond t).1 := by
  induction k generalizing t with
  | zero =>
    obtain rfl : t = 128 := h
    rw [slotSearch_end]
    exact .inr ⟨fun u hu => absurd u.isLt (by omega), rfl, List.mem_singleton_self _⟩
  | succ k ih =>
    have ht : t < 128 := by omega
    by_cases he : status ⟨t, ht⟩ = .empty
    · rw [slotSearch_found ht he]
      refine .inl ⟨⟨t, ht⟩, ⟨le_rfl, he, fun v h1 h2 => absurd h1 (Nat.not_le.mpr h2)⟩, rfl, fun i hi => ?_⟩
      rw [List.mem_singleton.mp hi]
      exact ht
    · rw [slotSearch_next ht he]
      rcases ih (t := t + 1) (by omega) with ⟨u, hu, hend, hreads⟩ | ⟨hnone, hend, hread⟩
      · refine .inl ⟨u, hu.of_succ ht he, hend, ?_⟩
        rw [List.forall_mem_cons]
        exact ⟨ht, hreads⟩
      · refine .inr ⟨fun u hu => ?_, hend, List.mem_cons_of_mem t hread⟩
        by_cases hut : u.val = t
        · rw [show u = ⟨t, ht⟩ from Fin.ext hut]
          exact he
        · exact hnone u (by omega)

/-- The search stays in the table exactly when there is a slot to find. -/
theorem slotSearchOk_iff : SlotSearchOk status beyond ↔ ∃ u : Tid, 1 ≤ u.val ∧ status u = .empty := by
  have hspec := @slotSearch_spec status beyond 1 127 rfl
  rcases hspec with ⟨u, hu, hend, hreads⟩ | ⟨hnone, hend, hread⟩
  · exact iff_of_true ⟨hreads, .inl ⟨u, hu, hend⟩⟩ ⟨u, hu.le, hu.empty⟩
  · refine iff_of_false (fun h => ?_) fun h => ?_
    · exact lt_irrefl _ (h.reads _ hread)
    · obtain ⟨u, hle, he⟩ := h
      exact hnone u hle he

namespace Library

/-! ## Runs -/

variable {s s' : Library}

/-- After `n` creations the slots from `n + 1` on are empty, also on the first call. -/
theorem reached_empty {es : List (Input × Ret)} (h : Reached es s) (hlive : s.ended = false) (u : Tid) :
    s.entered.status u = .empty ↔ (ids es).length < u.val := by
  by_cases hes : es = []
  · rw [h.start hes, hes]
    exact inv_schedulerInit.empty u
  · have hruns := h.runs hes hlive
    rw [hruns.entered]
    exact hruns.inv.empty u

theorem reached_slot {es : List (Input × Ret)} (h : Reached es s) (hlive : s.ended = false) :
    (∃ u : Tid, 1 ≤ u.val ∧ s.entered.status u = .empty) ↔ (ids es).length < maxThreads - 1 := by
  constructor
  · intro hex
    obtain ⟨u, hu, he⟩ := hex
    have hlt := (reached_empty h hlive u).mp he
    have := u.isLt
    unfold maxThreads
    omega
  · intro hlt
    exact ⟨⟨127, by decide⟩, by decide, (reached_empty h hlive _).mpr hlt⟩

/-- The slot search of pthread_create reads only the table and ends as it should, exactly when some slot
    is empty; in a run that is as long as fewer than 127 threads have been created. -/
theorem slot_search (beyond : Nat → Status) :
    (∀ status, SlotSearchOk status beyond ↔ ∃ u : Tid, 1 ≤ u.val ∧ status u = .empty) ∧
      ∀ es s, Run (Guarded step fun _ _ => True) boot es s → s.ended = false →
        (SlotSearchOk s.entered.status beyond ↔ (ids es).length < maxThreads - 1) := by
  refine ⟨fun _ => slotSearchOk_iff, fun es s hrun hlive => ?_⟩
  rw [slotSearchOk_iff]
  exact reached_slot (run_reached hrun) hlive

theorem run_create_one : ∃ es s, Run (Guarded step fun _ _ => True) boot es s ∧ ids es = [1] ∧ s.ended = false := by
  have hexec : ((exec step (fun _ _ => true) boot [.create]).map fun q =>
      decide (ids q.1 = [1] ∧ q.2.ended = false)) = some true := by
    decide +kernel
  obtain ⟨⟨es, s⟩, he, hp⟩ := Option.map_eq_some_iff.mp hexec
  obtain ⟨hids, hlive⟩ := of_decide_eq_true hp
  have hrun : Run (Guarded step fun _ _ => True) boot ([] ++ es) s := exec_run (fun _ _ _ _ => trivial) .start he
  exact ⟨es, s, hrun, hids, hlive⟩

/-- One thread has been created: the next search finds slot 2. -/
theorem slot_search_second : ∃ es s, Run (Guarded step fun _ _ => True) boot es s ∧ ids es = [1] ∧
    ∀ beyond, SlotSearchOk s.entered.status beyond := by
  obtain ⟨es, s, hrun, hids, hlive⟩ := run_create_one
  refine ⟨es, s, hrun, hids, fun beyond => ((slot_search beyond).2 es s hrun hlive).mpr ?_⟩
  rw [hids]
  decide

/-! ## A full table -/

theorem created_of_step {r : Ret} (hs : s.step .create = some (r, s')) : ∃ id, r = .created id := by
  unfold step at hs
  split at hs
  · cases hs
  · obtain ⟨p, -, hp⟩ := Option.map_eq_some_iff.mp hs
    exact ⟨p.1, (Prod.mk.inj hp).1.symm⟩

/-- Creations one after the other. -/
theorem run_creates (n : Nat) (h : n < 127) : ∃ es s, Run (Guarded step fun _ _ => True) boot es s ∧
    es ≠ [] ∧ s.ended = false ∧ (ids es).length = n + 1 := by
  induction n with
  | zero =>
    obtain ⟨es, s, hrun, hids, hlive⟩ := run_create_one
    refine ⟨es, s, hrun, ?_, hlive, ?_⟩
    · intro hnil
      rw [hnil] at hids
      cases hids
    · rw [hids]
      rfl
  | succ n ih =>
    obtain ⟨es, s, hrun, hne, hlive, hlen⟩ := ih (by omega)
    have hruns := (run_reached hrun).runs hne hlive
    rw [hlen] at hruns
    obtain ⟨r, s', hs'⟩ := hruns.returns (i := .create) fun _ => h
    obtain ⟨id, rfl⟩ := created_of_step hs'
    obtain ⟨-, hend | hswitch | hcreated⟩ := hruns.step hs'
    · cases hend.1
    · cases hswitch.1
    · refine ⟨_, s', hrun.step (e := (.create, .created id)) ⟨trivial, hs'⟩, by simp, hcreated.2.live, ?_⟩
      rw [ids_append]
      dsimp only
      rw [List.length_append, List.length_singleton, hlen]

/-- When 127 threads have been created, the search reads slot 128. -/
theorem slot_search_full :
    ¬ ∀ (es : List (Input × Ret)) (s : Library) (beyond : Nat → Status),
      Run (Guarded step fun _ _ => True) boot es s → s.ended = false → SlotSearchOk s.entered.status beyond := by
  intro hall
  obtain ⟨es, s, hrun, -, hlive, hlen⟩ := run_creates 126 (by decide)
  have hslot := slotSearchOk_iff.mp (hall es s (fun _ => .empty) hrun hlive)
  have hlt := (reached_slot (run_reached hrun) hlive).mp hslot
  rw [hlen] at hlt
  exact absurd hlt (by decide)

end Library

end EC440.Threads
