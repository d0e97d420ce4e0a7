/-
  threads.c of the threading library: schedule, scheduler_init, pthread_create and pthread_exit,
  each run without interruption, over the thread table.

  A register set is kept as the place it was saved at. `none` is a call that C gives no result:
  the search of schedule() does not end, longjmp is given registers nobody saved, or the table is
  indexed outside its bounds. The threads' stacks are left out.
-/
import EC440.Lib.Run
import EC440.Threads.Scheduler

namespace EC440.Threads

open EC440.Lib

/-- Where longjmp goes on: at a setjmp of pthread_create or schedule, or in start_thunk. -/
inductive Regs
  | firstCreate
  | schedule
  | startThunk
  deriving DecidableEq, Repr

/-- The globals of threads.c. `ended` is the process after exit(0). -/
structure Library where
  status : Tid → Status
  tcbTid : Tid → Nat
  regs : Tid → Option Regs
  tid : Tid
  isFirstCall : Bool
  ended : Bool

namespace Library

/-- The process starts with a table of zeros; TS_EXITED is 0. -/
def boot : Library where
  status := fun _ => .exited
  tcbTid := fun _ => 0
  regs := fun _ => none
  tid := mainTid
  isFirstCall := true
  ended := false

/-- schedule(). The registers of a thread that has exited are not saved. -/
def schedule (s : Library) : Option Library :=
  match pick s.status s.tid with
  | none => none
  | some currentTid =>
      let regs := if preempt s.status s.tid s.tid = .exited then s.regs
        else Function.update s.regs s.tid (some .schedule)
      if regs currentTid = none then none
      else some { s with status := switched s.status s.tid currentTid, regs := regs, tid := currentTid }

/-- scheduler_init() and the rest of the first call of pthread_create. -/
def schedulerInit (s : Library) : Library :=
  { s with
    status := Function.update (fun _ => .empty) mainTid .ready
    tcbTid := fun i => i.val
    regs := Function.update s.regs mainTid (some .firstCreate)
    isFirstCall := false }

/-- The loop of pthread_create over the table, `n` rounds from slot `t` on. The table is read
    before the bound is tested, so a full table is left at its end. -/
def emptySlot (status : Tid → Status) : Nat → Nat → Option Tid
  | 0, _ => none
  | n + 1, t =>
      if h : t < 128 then
        if status ⟨t, h⟩ = .empty then some ⟨t, h⟩ else emptySlot status n (t + 1)
      else none

/-- What the first call of pthread_create does before it looks for a slot. -/
def entered (s : Library) : Library := if s.isFirstCall then s.schedulerInit else s

/-- The slot of a new thread. -/
def newThread (s : Library) (currentTid : Tid) : Library :=
  { s with
    status := Function.update s.status currentTid .ready
    tcbTid := Function.update s.tcbTid currentTid currentTid.val
    regs := Function.update s.regs currentTid (some .startThunk) }

/-- pthread_create; gives the id stored in `*thread`. -/
def pthreadCreate (s : Library) : Option (Nat × Library) :=
  match emptySlot s.entered.status maxThreads 1 with
  | none => none
  | some currentTid => ((s.entered.newThread currentTid).schedule).map fun s => (currentTid.val, s)

/-- A thread that pthread_exit counts as left. -/
def Left : Status → Bool
  | .ready | .running | .blocked => true
  | .exited | .empty => false

/-- pthread_exit; `true` is exit(0). -/
def pthreadExit (s : Library) : Option (Bool × Library) :=
  let status := Function.update s.status s.tid .exited
  let tid := s.tcbTid s.tid
  if h : tid < 128 then
    let status := if tid ≠ s.tid.val then Function.update status ⟨tid, h⟩ .ready else status
    if (List.finRange 128).any fun i => Left (status i) then
      (schedule { s with status := status }).map fun s => (false, s)
    else some (true, { s with status := status, ended := true })
  else none

inductive Input
  | create
  | timer
  | exit
  deriving DecidableEq, Repr

inductive Ret
  | created (id : Nat)
  | switched
  | processExit
  deriving DecidableEq, Repr

/-- A call of the running thread, or the timer's signal, which is set up by the first
    pthread_create. -/
def step (s : Library) (i : Input) : Option (Ret × Library) :=
  if s.ended then none
  else match i with
    | .create => s.pthreadCreate.map fun p => (.created p.1, p.2)
    | .timer => if s.isFirstCall then none else s.schedule.map fun s => (.switched, s)
    | .exit => s.pthreadExit.map fun p => (if p.1 then .processExit else .switched, p.2)

/-- The ids that pthread_create returned. -/
def ids (es : List (Input × Ret)) : List Nat :=
  es.filterMap fun e => match e.2 with
    | .created id => some id
    | _ => none

/-! ## The invariant -/

/-- `n` threads have been created. What holds of the table whether or not the current thread is
    marked as running. -/
structure Inv (s : Library) (n : Nat) : Prop where
  started : s.isFirstCall = false
  own : ∀ u, s.tcbTid u = u.val
  empty : ∀ u, s.status u = .empty ↔ n < u.val
  others : ∀ u, u ≠ s.tid → s.status u = .ready ∨ s.status u = .exited ∨ s.status u = .empty
  regs : ∀ u, s.status u = .ready → s.regs u ≠ none

variable {s s' : Library} {n : Nat}

/-- Nothing but the mark of the running thread is changed by `preempt`. -/
theorem preempt_eq {status : Tid → Status} {t w : Tid} {x : Status} (h : preempt status t w = x)
    (hx : x ≠ .ready) : status w = x := by
  by_cases hw : w = t
  · by_cases hr : status t = .running
    · rw [hw, preempt_self hr] at h
      exact absurd h.symm hx
    · rwa [preempt_not_running hr] at h
  · rwa [preempt_of_ne hw] at h

theorem preempt_exited {status : Tid → Status} {t w : Tid} (h : status w = .exited) :
    preempt status t w = .exited := by
  by_cases hw : w = t
  · rw [preempt_not_running (by rw [← hw, h]; decide), h]
  · rw [preempt_of_ne hw, h]

theorem preempt_ready {status : Tid → Status} {t w : Tid} (h : preempt status t w = .ready) :
    status w = .ready ∨ status w = .running := by
  by_cases hw : w = t
  · by_cases hr : status t = .running
    · exact .inr (hw ▸ hr)
    · rw [preempt_not_running hr] at h
      exact .inl h
  · rw [preempt_of_ne hw] at h
    exact .inl h

/-- schedule() on a table with a ready slot: it switches to a ready thread and keeps the rest. -/
theorem Inv.schedule (h : Inv s n) (hcur : s.status s.tid = .running ∨ s.status s.tid = .ready ∨
      s.status s.tid = .exited) (hr : ∃ u, preempt s.status s.tid u = .ready) :
    ∃ s', s.schedule = some s' ∧ Inv s' n ∧ s'.status s'.tid = .running ∧ s'.ended = s.ended ∧
      ∀ u, s.status u = .exited → s'.status u = .exited := by
  obtain ⟨u, hu⟩ := hr
  obtain ⟨v, hv⟩ := pick_returns hu
  have hvr := pick_ready hv
  obtain ⟨regs, hregs⟩ : ∃ regs, (if preempt s.status s.tid s.tid = .exited then s.regs
    else Function.update s.regs s.tid (some .schedule)) = regs := ⟨_, rfl⟩
  have hsaved : ∀ w, preempt s.status s.tid w = .ready → regs w ≠ none := by
    intro w hw
    by_cases hwt : w = s.tid
    · rw [hwt] at hw ⊢
      rw [← hregs, if_neg (by rw [hw]; decide), Function.update_self]
      simp
    · have hold := h.regs w (preempt_ready_of_ne hw hwt)
      rw [← hregs]
      split
      · exact hold
      · rw [Function.update_of_ne hwt]
        exact hold
  refine ⟨{ s with status := switched s.status s.tid v, regs := regs, tid := v }, ?_, ?_, switched_self, rfl, ?_⟩
  · simp only [Library.schedule, hv, hregs]
    exact if_neg (hsaved v hvr)
  · refine ⟨h.started, h.own, fun w => ?_, fun w hw => ?_, fun w hw => ?_⟩
    · by_cases hwv : w = v
      · refine iff_of_false ?_ fun hlt => ?_
        · rw [hwv]
          dsimp only
          rw [switched_self]
          decide
        · rw [← h.empty, hwv] at hlt
          obtain hx | hx := preempt_ready hvr
          all_goals rw [hlt] at hx; cases hx
      · dsimp only
        rw [switched_of_ne hwv, ← h.empty]
        refine ⟨fun hx => preempt_eq hx (by decide), fun hx => ?_⟩
        rw [preempt_of_ne, hx]
        rintro rfl
        rw [hx] at hcur
        obtain hc | hc | hc := hcur
        all_goals cases hc
    · dsimp only at hw ⊢
      rw [switched_of_ne hw]
      by_cases hwt : w = s.tid
      · rw [hwt]
        obtain hc | hc | hc := hcur
        · exact .inl (preempt_self hc)
        · exact .inl (by rw [preempt_not_running (by rw [hc]; decide), hc])
        · exact .inr (.inl (preempt_exited hc))
      · rw [preempt_of_ne hwt]
        exact h.others w hwt
    · dsimp only at hw ⊢
      have hwv : w ≠ v := by
        rintro rfl
        rw [switched_self] at hw
        cases hw
      rw [switched_of_ne hwv] at hw
      exact hsaved w hw
  · intro w hw
    dsimp only
    have hwv : w ≠ v := by
      rintro rfl
      rw [preempt_exited hw] at hvr
      cases hvr
    rw [switched_of_ne hwv, preempt_exited hw]

/-! ## pthread_create -/

theorem emptySlot_eq_some {status : Tid → Status} {m t : Nat} {u : Tid} (h : emptySlot status m t = some u) :
    t ≤ u.val ∧ status u = .empty ∧ ∀ v : Tid, t ≤ v.val → v.val < u.val → status v ≠ .empty := by
  induction m generalizing t with
  | zero => cases h
  | succ m ih =>
    unfold emptySlot at h
    split at h
    · next ht =>
      split at h
      · next he =>
        cases h
        exact ⟨le_rfl, he, fun v h1 h2 => absurd h1 (Nat.not_le.mpr h2)⟩
      · next he =>
        obtain ⟨h1, h2, h3⟩ := ih h
        refine ⟨by omega, h2, fun v hv1 hv2 => ?_⟩
        by_cases hvt : v.val = t
        · have : v = ⟨t, ht⟩ := Fin.ext hvt
          rw [this]
          exact he
        · exact h3 v (by omega) hv2
    · cases h

theorem emptySlot_returns {status : Tid → Status} {m t : Nat} {u : Tid} (h1 : t ≤ u.val) (h2 : u.val < t + m)
    (he : status u = .empty) : ∃ v, emptySlot status m t = some v := by
  induction m generalizing t with
  | zero => omega
  | succ m ih =>
    have hu := u.isLt
    unfold emptySlot
    rw [dif_pos (by omega)]
    split
    · exact ⟨_, rfl⟩
    · next hne =>
      refine ih ?_ (by omega)
      by_contra hlt
      have : u = ⟨t, by omega⟩ := Fin.ext (by dsimp only; omega)
      exact hne (this ▸ he)

theorem inv_schedulerInit : Inv boot.schedulerInit 0 where
  started := rfl
  own := fun _ => rfl
  empty := by decide
  others := by decide
  regs := by decide

/-- pthread_create takes the next slot. -/
theorem Inv.create (h : Inv s.entered n)
    (hcur : s.entered.status s.entered.tid = .running ∨ s.entered.status s.entered.tid = .ready) {u : Tid}
    (hu : emptySlot s.entered.status maxThreads 1 = some u) :
    ∃ s', s.pthreadCreate = some (n + 1, s') ∧ Inv s' (n + 1) ∧ s'.status s'.tid = .running ∧
      s'.ended = s.entered.ended ∧ ∀ w, s.entered.status w = .exited → s'.status w = .exited := by
  obtain ⟨h1, he, hmin⟩ := emptySlot_eq_some hu
  have hlt := u.isLt
  have hval : u.val = n + 1 := by
    have hnu := (h.empty u).mp he
    by_contra hne
    exact hmin ⟨n + 1, by omega⟩ (by dsimp only; omega) (by dsimp only; omega) ((h.empty _).mpr (by dsimp only; omega))
  have hut : u ≠ s.entered.tid := by
    rintro rfl
    rw [he] at hcur
    obtain hc | hc := hcur
    all_goals cases hc
  obtain ⟨t, ht⟩ : ∃ t, s.entered.newThread u = t := ⟨_, rfl⟩
  have hstatus : t.status = Function.update s.entered.status u .ready := by rw [← ht]; rfl
  have htid : t.tid = s.entered.tid := by rw [← ht]; rfl
  have hold : ∀ w, w ≠ u → t.status w = s.entered.status w := fun w hw => by
    rw [hstatus, Function.update_of_ne hw]
  have hinv : Inv t (n + 1) := by
    refine ⟨by rw [← ht]; exact h.started, fun w => ?_, fun w => ?_, fun w hw => ?_, fun w hw => ?_⟩
    · rw [← ht]
      by_cases hwu : w = u
      · rw [hwu]
        exact Function.update_self _ _ _
      · exact (Function.update_of_ne hwu _ _).trans (h.own w)
    · by_cases hwu : w = u
      · rw [hwu, hstatus, Function.update_self, hval]
        exact iff_of_false (by decide) (lt_irrefl _)
      · rw [hold w hwu, h.empty]
        have : w.val ≠ u.val := fun hx => hwu (Fin.ext hx)
        omega
    · by_cases hwu : w = u
      · exact .inl (by rw [hwu, hstatus, Function.update_self])
      · rw [hold w hwu]
        exact h.others w (by rw [← htid]; exact hw)
    · rw [← ht]
      dsimp only [newThread]
      by_cases hwu : w = u
      · rw [hwu, Function.update_self]
        simp
      · rw [Function.update_of_ne hwu]
        exact h.regs w (by rw [← hold w hwu]; exact hw)
  have hready : preempt t.status t.tid u = .ready := by
    rw [preempt_of_ne (by rw [htid]; exact hut), hstatus, Function.update_self]
  obtain ⟨s', hrun, hinv', hrunning, hover, hex⟩ := hinv.schedule (by
    rw [htid, hold _ (Ne.symm hut)]
    exact hcur.elim .inl fun hx => .inr (.inl hx)) ⟨u, hready⟩
  refine ⟨s', ?_, hinv', hrunning, by rw [hover, ← ht]; rfl, fun w hw => hex w ?_⟩
  · simp only [pthreadCreate, hu, ht, hrun, hval, Option.map_some]
  · rw [hold w, hw]
    rintro rfl
    rw [he] at hw
    cases hw

/-! ## pthread_exit -/

/-- pthread_exit switches to another thread, or ends the process when none is left. -/
theorem Inv.exit (h : Inv s n) (hcur : s.status s.tid = .running) :
    ∃ ends s', s.pthreadExit = some (ends, s') ∧ (∀ w, s.status w = .exited → s'.status w = .exited) ∧
      (ends = true ∧ s'.ended = true ∨
        ends = false ∧ s'.ended = s.ended ∧ Inv s' n ∧ s'.status s'.tid = .running) := by
  obtain ⟨t, ht⟩ : ∃ t : Library, { s with status := Function.update s.status s.tid .exited } = t := ⟨_, rfl⟩
  have hstatus : t.status = Function.update s.status s.tid .exited := by rw [← ht]
  have htid : t.tid = s.tid := by rw [← ht]
  have hself : t.status t.tid = .exited := by rw [hstatus, htid, Function.update_self]
  have hold : ∀ w, w ≠ s.tid → t.status w = s.status w := fun w hw => by rw [hstatus, Function.update_of_ne hw]
  have hex : ∀ w, s.status w = .exited → t.status w = .exited := by
    intro w hw
    by_cases hws : w = s.tid
    · rw [hws, ← htid, hself]
    · rw [hold w hws, hw]
  have hinv : Inv t n := by
    refine ⟨by rw [← ht]; exact h.started, by rw [← ht]; exact h.own, fun w => ?_, fun w hw => ?_, fun w hw => ?_⟩
    · by_cases hws : w = s.tid
      · rw [hws, ← h.empty, ← htid, hself, htid, hcur]
        decide
      · rw [hold w hws, h.empty]
    · rw [htid] at hw
      rw [hold w hw]
      exact h.others w hw
    · rw [← ht]
      refine h.regs w ?_
      by_cases hws : w = s.tid
      · rw [hws, ← htid, hself] at hw
        cases hw
      · rwa [hold w hws] at hw
  have hrun : s.pthreadExit = if (List.finRange 128).any fun i => Left (t.status i) then
      t.schedule.map fun s => (false, s) else some (true, { t with ended := true }) := by
    unfold pthreadExit
    rw [dif_pos (by rw [h.own]; exact s.tid.isLt)]
    simp only [h.own, ne_eq, not_true, if_false, ← ht]
  by_cases hleft : (List.finRange 128).any (fun i => Left (t.status i)) = true
  · rw [if_pos hleft] at hrun
    obtain ⟨w, -, hw⟩ := List.any_eq_true.mp hleft
    -- the thread that is left is ready
    have hready : t.status w = .ready := by
      by_cases hws : w = s.tid
      · rw [hws, ← htid, hself] at hw
        cases hw
      · obtain hx | hx | hx := hinv.others w (by rw [htid]; exact hws)
        · exact hx
        all_goals rw [hx] at hw; cases hw
    have hpre : preempt t.status t.tid w = .ready := by
      rw [preempt_not_running (by rw [hself]; decide), hready]
    obtain ⟨s', hs', hinv', hrunning, hover, hex'⟩ := hinv.schedule (.inr (.inr hself)) ⟨w, hpre⟩
    rw [hs'] at hrun
    exact ⟨false, s', hrun, fun w hw => hex' w (hex w hw), .inr ⟨rfl, by rw [hover, ← ht], hinv', hrunning⟩⟩
  · rw [if_neg hleft] at hrun
    exact ⟨true, _, hrun, hex, .inl ⟨rfl, rfl⟩⟩

/-! ## Steps and runs -/

/-- The process runs: it has not exited, and the current thread is marked as running. -/
structure Runs (s : Library) (n : Nat) : Prop where
  live : s.ended = false
  inv : Inv s n
  running : s.status s.tid = .running

theorem Runs.entered (h : Runs s n) : s.entered = s := by
  unfold Library.entered
  rw [h.inv.started]
  rfl

/-- Every call returns, and pthread_create as long as there is a slot. -/
theorem Runs.returns (h : Runs s n) {i : Input} (hi : i = .create → n < 127) : ∃ r s', s.step i = some (r, s') := by
  unfold step
  rw [h.live]
  cases i with
  | create =>
      have hn := hi rfl
      obtain ⟨u, hu⟩ := emptySlot_returns (m := maxThreads) (t := 1) (u := ⟨n + 1, by omega⟩)
        (by dsimp only; omega) (by unfold maxThreads; dsimp only; omega)
        ((h.inv.empty _).mpr (by dsimp only; omega))
      rw [← h.entered] at hu
      obtain ⟨s', hs', -⟩ := Inv.create (s := s) (by rw [h.entered]; exact h.inv)
        (by rw [h.entered]; exact .inl h.running) hu
      exact ⟨.created (n + 1), s', by simp [hs']⟩
  | timer =>
      obtain ⟨s', hs', -⟩ := h.inv.schedule (.inl h.running) ⟨s.tid, preempt_self h.running⟩
      exact ⟨.switched, s', by simp [hs', h.inv.started]⟩
  | exit =>
      obtain ⟨ends, s', hs', -⟩ := h.inv.exit h.running
      exact ⟨_, s', by simp [hs']; rfl⟩

/-- One step: exited slots stay, and the process exits or runs on. -/
theorem Runs.step (h : Runs s n) {i : Input} {r : Ret} (hs : s.step i = some (r, s')) :
    (∀ w, s.status w = .exited → s'.status w = .exited) ∧
      (r = .processExit ∧ s'.ended = true ∨ r = .switched ∧ Runs s' n ∨ r = .created (n + 1) ∧ Runs s' (n + 1)) := by
  unfold Library.step at hs
  rw [h.live, if_neg (by decide)] at hs
  cases i with
  | create =>
      obtain ⟨⟨id, t⟩, hc, he⟩ := Option.map_eq_some_iff.mp hs
      obtain ⟨rfl, rfl⟩ := Prod.mk.inj he
      have hslot : emptySlot s.entered.status maxThreads 1 ≠ none := by
        intro hnone
        simp only [pthreadCreate, hnone] at hc
        cases hc
      obtain ⟨u, hu⟩ := Option.ne_none_iff_exists'.mp hslot
      obtain ⟨s', hs', hinv, hrun, hover, hex⟩ := Inv.create (s := s) (by rw [h.entered]; exact h.inv)
        (by rw [h.entered]; exact .inl h.running) hu
      rw [h.entered] at hover hex
      rw [hc, Option.some.injEq, Prod.mk.injEq] at hs'
      obtain ⟨rfl, rfl⟩ := hs'
      exact ⟨hex, .inr (.inr ⟨rfl, hover.trans h.live, hinv, hrun⟩)⟩
  | timer =>
      dsimp only at hs
      rw [h.inv.started, if_neg (by decide)] at hs
      obtain ⟨t, hc, he⟩ := Option.map_eq_some_iff.mp hs
      obtain ⟨rfl, rfl⟩ := Prod.mk.inj he
      obtain ⟨s', hs', hinv, hrun, hover, hex⟩ := h.inv.schedule (.inl h.running) ⟨s.tid, preempt_self h.running⟩
      rw [hc, Option.some.injEq] at hs'
      subst hs'
      exact ⟨hex, .inr (.inl ⟨rfl, hover.trans h.live, hinv, hrun⟩)⟩
  | exit =>
      obtain ⟨⟨ends, t⟩, hc, he⟩ := Option.map_eq_some_iff.mp hs
      obtain ⟨rfl, rfl⟩ := Prod.mk.inj he
      obtain ⟨ends', s', hs', hex, hcase⟩ := h.inv.exit h.running
      rw [hc, Option.some.injEq, Prod.mk.injEq] at hs'
      obtain ⟨rfl, rfl⟩ := hs'
      refine ⟨hex, ?_⟩
      obtain ⟨rfl, hover⟩ | ⟨rfl, hover, hinv, hrun⟩ := hcase
      · exact .inl ⟨rfl, hover⟩
      · exact .inr (.inl ⟨rfl, hover.trans h.live, hinv, hrun⟩)

/-- The first call. -/
theorem boot_step {i : Input} {r : Ret} (hs : boot.step i = some (r, s')) :
    r = .processExit ∧ s'.ended = true ∨ r = .created 1 ∧ Runs s' 1 := by
  cases i with
  | create =>
      have hmap : (boot.pthreadCreate.map fun p => (Ret.created p.1, p.2)) = some (r, s') := hs
      obtain ⟨⟨id, t⟩, hc, he⟩ := Option.map_eq_some_iff.mp hmap
      obtain ⟨rfl, rfl⟩ := Prod.mk.inj he
      obtain ⟨s', hs', hinv, hrun, hover, -⟩ := Inv.create (s := boot) inv_schedulerInit (.inr (by decide))
        (show emptySlot boot.entered.status maxThreads 1 = some ⟨1, by decide⟩ by decide)
      rw [hc, Option.some.injEq, Prod.mk.injEq] at hs'
      obtain ⟨rfl, rfl⟩ := hs'
      exact .inr ⟨rfl, hover, hinv, hrun⟩
  | timer => cases hs
  | exit =>
      have hexit : boot.step .exit = some (.processExit, { boot with
        status := Function.update boot.status boot.tid .exited, ended := true }) := rfl
      rw [hexit] at hs
      cases hs
      exact .inl ⟨rfl, rfl⟩

/-- What a run from the start of the process has reached. -/
structure Reached (es : List (Input × Ret)) (s : Library) : Prop where
  ids : ids es = List.range' 1 (ids es).length
  start : es = [] → s = boot
  runs : es ≠ [] → s.ended = false → Runs s (Library.ids es).length

theorem ids_append (es : List (Input × Ret)) (i : Input) (r : Ret) :
    ids (es ++ [(i, r)]) = match r with
      | .created id => ids es ++ [id]
      | _ => ids es := by
  unfold ids
  rw [List.filterMap_append]
  cases r with
  | created id => rfl
  | switched => exact List.append_nil _
  | processExit => exact List.append_nil _

theorem run_reached {es : List (Input × Ret)} (h : Run (Guarded step fun _ _ => True) boot es s) : Reached es s := by
  refine h.invariant_trace (I := Reached) ⟨rfl, fun _ => rfl, fun hne => absurd rfl hne⟩ ?_
  intro es s e s' hr hstep
  obtain ⟨i, r⟩ := e
  have hs : s.step i = some (r, s') := hstep.2
  have hlast : es ++ [(i, r)] ≠ [] := by simp
  -- whatever the state, the step ends the process or runs on
  have hcase : r = .processExit ∧ s'.ended = true ∨ r = .switched ∧ Runs s' (ids es).length ∨
      r = .created ((ids es).length + 1) ∧ Runs s' ((ids es).length + 1) := by
    by_cases hes : es = []
    · rw [hr.start hes] at hs
      rw [hes]
      exact (boot_step hs).imp_right .inr
    · have hlive : s.ended = false := by
        cases ho : s.ended with
        | false => rfl
        | true =>
            unfold Library.step at hs
            rw [ho] at hs
            cases hs
      exact ((hr.runs hes hlive).step hs).2
  obtain ⟨rfl, hover⟩ | ⟨rfl, hruns⟩ | ⟨rfl, hruns⟩ := hcase
  · refine ⟨?_, fun hx => absurd hx hlast, fun _ hl => ?_⟩
    · rw [ids_append]
      exact hr.ids
    · rw [hover] at hl
      cases hl
  · refine ⟨?_, fun hx => absurd hx hlast, fun _ _ => ?_⟩
    · rw [ids_append]
      exact hr.ids
    · rw [ids_append]
      exact hruns
  · refine ⟨?_, fun hx => absurd hx hlast, fun _ _ => ?_⟩
    · rw [ids_append]
      dsimp only
      rw [List.length_append, List.length_singleton, List.range'_1_concat, ← hr.ids, Nat.add_comm]
    · rw [ids_append]
      dsimp only
      rw [List.length_append, List.length_singleton]
      exact hruns

/-- A slot that has exited stays so along every run. -/
theorem Runs.exited_stays (h : Runs s n) {es : List (Input × Ret)}
    (hrun : Run (Guarded Library.step fun _ _ => True) s es s') {u : Tid} (hu : s.status u = .exited) :
    s'.status u = .exited := by
  have hinv : s'.status u = .exited ∧ (s'.ended = true ∨ ∃ m, Runs s' m) := by
    refine hrun.invariant (I := fun t => t.status u = .exited ∧ (t.ended = true ∨ ∃ m, Runs t m))
      ⟨hu, .inr ⟨n, h⟩⟩ ?_
    intro t e t' ht hstep
    obtain ⟨hex, hover | ⟨m, hruns⟩⟩ := ht
    · have hs : t.step e.1 = some (e.2, t') := hstep.2
      unfold Library.step at hs
      rw [hover] at hs
      cases hs
    · obtain ⟨hstay, hnext⟩ := hruns.step hstep.2
      refine ⟨hstay u hex, ?_⟩
      obtain ⟨-, hover⟩ | ⟨-, hruns'⟩ | ⟨-, hruns'⟩ := hnext
      · exact .inl hover
      · exact .inr ⟨_, hruns'⟩
      · exact .inr ⟨_, hruns'⟩
  exact hinv.1

/-- Every run of the process that begins with pthread_create, as long as the process has not exited:
    exactly the current slot is running, the other live ones are ready, an exited slot never runs
    again, the ids are new and not 0, and every call finds a thread to switch to. -/
theorem run_scheduled {es : List (Input × Ret)} (hrun : Run (Guarded step fun _ _ => True) boot es s)
    (hne : es ≠ []) (hlive : s.ended = false) :
    (∀ u, s.status u = .running ↔ u = s.tid) ∧
      (∀ u, u ≠ s.tid → s.status u = .ready ∨ s.status u = .exited ∨ s.status u = .empty) ∧
      (∀ u, s.status u = .exited → ∀ es' s', Run (Guarded step fun _ _ => True) s es' s' → s'.status u = .exited) ∧
      (ids es).Nodup ∧ 0 ∉ ids es ∧
      ∀ i, (i = .create → (ids es).length < 127) → ∃ r s', s.step i = some (r, s') := by
  have hr := run_reached hrun
  have hruns := hr.runs hne hlive
  refine ⟨fun u => ?_, hruns.inv.others, fun u hu es' s' hrun' => hruns.exited_stays hrun' hu, ?_, ?_,
    fun i hi => hruns.returns hi⟩
  · refine ⟨fun hu => ?_, fun hu => by rw [hu]; exact hruns.running⟩
    by_contra hut
    obtain hx | hx | hx := hruns.inv.others u hut
    all_goals rw [hu] at hx; cases hx
  · rw [hr.ids]
    exact List.nodup_range'
  · rw [hr.ids, List.mem_range'_1]
    omega

/-- Two threads are created, the timer switches to the main thread, and it exits. -/
theorem run_scheduled_exit : ∃ es s, Run (Guarded step fun _ _ => True) boot es s ∧ ids es = [1, 2] ∧
    s.status mainTid = .exited ∧ (ids es).Nodup ∧ ∀ u, s.status u = .running ↔ u = s.tid := by
  have hrun : ((exec step (fun _ _ => true) boot [.create, .create, .timer, .exit]).map fun q =>
      decide (ids q.1 = [1, 2] ∧ q.2.ended = false ∧ q.2.status mainTid = .exited)) = some true := by
    decide +kernel
  obtain ⟨⟨es, s⟩, he, hp⟩ := Option.map_eq_some_iff.mp hrun
  obtain ⟨hids, hlive, hex⟩ := of_decide_eq_true hp
  have hreach : Run (Guarded step fun _ _ => True) boot es s := exec_run (fun _ _ _ _ => trivial) .start he
  have hne : es ≠ [] := by
    intro hnil
    dsimp only at hids
    rw [hnil] at hids
    cases hids
  have hall := run_scheduled hreach hne hlive
  exact ⟨es, s, hreach, hids, hex, hall.2.2.2.1, hall.1⟩

end Library

end EC440.Threads
