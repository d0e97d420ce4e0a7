/-
  The statements of pthread_mutex_lock and pthread_mutex_unlock on the heap, and the switches of
  threads: each is defined, keeps the invariant (`Sound`), and is a step of `Mutex` for the mutex
  that is called, or a step of the scheduler for all of them.
-/
import EC440.Threads.Mutexes

namespace EC440.Threads

open EC440.Lib

namespace Mutexes

variable {μ : Type*} [DecidableEq μ] {s s' : Mutexes μ} {m n : μ} {t u : Tid} {f : Frame μ} {nodes : μ → List Nat}
  {v : μ → Mutex Tid} {o : Out μ}

/-! ## The statements -/

omit [DecidableEq μ] in
/-- The running thread is in a call on `f.mutex`. -/
theorem Sound.frame_mutex (hf : s.frame s.tid = some f) (g : Frame μ) (hg : s.frame s.tid = some g) :
    g.mutex = f.mutex := by
  rw [hf, Option.some.injEq] at hg
  rw [hg]

theorem Sound.frame_initialised (h : Sound s nodes v) (hf : s.frame t = some f) (hpc : f.pc ≠ .unlockReturn) :
    s.initialised f.mutex = true := by
  by_contra hno
  have hidle := (h.idle f.mutex (by simpa using hno)).2 t
  rw [pcAt_some hf] at hidle
  exact hidle.elim (h.calls t f hf).1.1 hpc

/-- The mutex of the call shows the running thread where it is. -/
theorem Sound.frame_pc (h : Sound s nodes v) (hf : s.frame s.tid = some f) (hpc : f.pc ≠ .unlockReturn) :
    (v f.mutex).pc (v f.mutex).tid = f.pc := by
  have hv := h.shows f.mutex (h.frame_initialised hf hpc)
  rw [hv.pc, hv.tid, pcAt_some hf]

/-- What a call that reads its block finds: the mutex and its wait list. -/
structure Finds (s : Mutexes μ) (nodes : μ → List Nat) (v : μ → Mutex Tid) (f : Frame μ) (block : MutexControlBlock) :
    Prop where
  initialised : s.initialised f.mutex = true
  shows : Shows s f.mutex (nodes f.mutex) (v f.mutex)
  pc : (v f.mutex).pc (v f.mutex).tid = f.pc
  mcb : f.mcb = s.align f.mutex
  read : s.blocks f.mcb = some block
  allocated : s.blocks (s.align f.mutex) = some block
  state : (v f.mutex).state = block.state
  holds : WaitQueue.Holds ⟨s.heap, block.waitList, block.waitListTail⟩ (nodes f.mutex) (v f.mutex).waitList

theorem Sound.finds (h : Sound s nodes v) (hf : s.frame s.tid = some f) (hr : f.pc.Reads) :
    ∃ block, Finds s nodes v f block := by
  have hpc : f.pc ≠ .unlockReturn := by
    intro hpc
    rw [hpc] at hr
    exact hr
  have hm := h.frame_initialised hf hpc
  have hmcb := h.mcb _ f hf hr
  obtain ⟨block, hb, hst, hholds⟩ := (h.shows f.mutex hm).block
  exact ⟨block, hm, h.shows f.mutex hm, h.frame_pc hf hpc, hmcb, by rw [hmcb, hb], hb, hst, hholds⟩

/-- The next statement of the call at `p`, which changes nothing but the place of the thread. -/
theorem Sound.next (h : Sound s nodes v) (hf : s.frame s.tid = some f) (hpc : f.pc ≠ .unlockReturn) {p : Pc}
    {e : Option (Action Tid)} (hmcb : p.Reads → f.mcb = s.align f.mutex) (hp : p ≠ .user ∧ p ≠ .critical)
    (hst : (v f.mutex).statement = some ((v f.mutex).setPc p)) (hact : (v f.mutex).act .statement = e) :
    Moved s v (e.map fun act => (f.mutex, act)) (s.goto (some { f with pc := p })) := by
  have hl : Local s (s.goto (some { f with pc := p })) f.mutex :=
    local_goto (Sound.frame_mutex hf) fun g hg => by cases hg; rfl
  refine h.place hl (h.frame_initialised hf hpc) ?_ rfl rfl (.statement hst hact) (fun g hg => ?_) (fun g hg hr => ?_)
    rfl rfl
  · exact pcAt_some (f := { f with pc := p }) frame_goto
  all_goals
    rw [frame_goto, Option.some.injEq] at hg
    subst hg
  · exact ⟨hp, (h.calls _ f hf).2⟩
  · exact hmcb hr

theorem Sound.lockTest (h : Sound s nodes v) (hf : s.frame s.tid = some f) (hpc : f.pc = .lockTest) (address : Nat) :
    ∃ o s', s.statement address = some (o, s') ∧ Moved s v o s' := by
  obtain ⟨block, hfind⟩ := h.finds hf (by rw [hpc]; trivial)
  have hvpc := hfind.pc.trans hpc
  unfold statement
  rw [hf, Option.bind_some, hpc]
  dsimp only
  rw [hfind.read, Option.map_some]
  by_cases hfree : block.state = .unlocked
  · rw [if_pos hfree]
    rw [← hfind.state] at hfree
    refine ⟨_, _, rfl, h.next (e := some (.join s.tid)) hf (by rw [hpc]; simp) (fun _ => hfind.mcb) (by simp) ?_ ?_⟩
    · unfold Mutex.statement
      rw [hvpc]
      dsimp only
      rw [if_pos hfree]
    · unfold Mutex.act
      rw [hvpc]
      dsimp only
      rw [if_pos hfree, hfind.shows.tid]
  · rw [if_neg hfree]
    rw [← hfind.state] at hfree
    refine ⟨_, _, rfl, h.next (e := none) hf (by rw [hpc]; simp) (fun _ => hfind.mcb) (by simp) ?_ ?_⟩
    · unfold Mutex.statement
      rw [hvpc]
      dsimp only
      rw [if_neg hfree]
    · unfold Mutex.act
      rw [hvpc]
      dsimp only
      rw [if_neg hfree]

theorem Sound.unlockTest (h : Sound s nodes v) (hf : s.frame s.tid = some f) (hpc : f.pc = .unlockTest)
    (address : Nat) : ∃ o s', s.statement address = some (o, s') ∧ Moved s v o s' := by
  obtain ⟨block, hfind⟩ := h.finds hf (by rw [hpc]; trivial)
  have hvpc := hfind.pc.trans hpc
  have hempty : block.waitList.isNone = true ↔ (v f.mutex).waitList = [] := hfind.holds.isEmpty
  have hact : (v f.mutex).act .statement = none := by
    unfold Mutex.act
    rw [hvpc]
  unfold statement
  rw [hf, Option.bind_some, hpc]
  dsimp only
  rw [hfind.read, Option.map_some]
  refine ⟨_, _, rfl, h.next (e := none) hf (by rw [hpc]; simp) (fun _ => hfind.mcb) ?_ ?_ hact⟩
  · split <;> simp
  · unfold Mutex.statement
    rw [hvpc]
    dsimp only
    simp only [hempty]

omit [DecidableEq μ] in
/-- A thread that returns is at no statement. -/
theorem no_frame {P : Frame μ → Prop} (h : s'.frame s.tid = none) : ∀ f, s'.frame s.tid = some f → P f := by
  intro f hf
  rw [h] at hf
  cases hf

theorem Sound.lockGrab (h : Sound s nodes v) (hf : s.frame s.tid = some f) (hpc : f.pc = .lockGrab) (address : Nat) :
    ∃ o s', s.statement address = some (o, s') ∧ Moved s v o s' := by
  obtain ⟨block, hfind⟩ := h.finds hf (by rw [hpc]; trivial)
  have hvpc := hfind.pc.trans hpc
  have hl : Local s (((s.goto none).setCritical f.mutex true).setBlock f.mcb { block with state := .locked }) f.mutex :=
    ((local_goto (Sound.frame_mutex hf) fun g hg => by cases hg).setCritical true).setBlock hfind.mcb _
  have hnone : (((s.goto none).setCritical f.mutex true).setBlock f.mcb { block with state := .locked }).frame s.tid =
      none := frame_goto
  have hself : (((s.goto none).setCritical f.mutex true).setBlock f.mcb { block with state := .locked }).pcAt f.mutex
      s.tid = .critical := by
    have hc : ((s.goto none).setCritical f.mutex true).critical s.tid f.mutex = true := critical_setCritical
    rw [pcAt_none hnone]
    exact if_pos hc
  have hblock : (((s.goto none).setCritical f.mutex true).setBlock f.mcb { block with state := .locked }).blocks
      (s.align f.mutex) = some { block with state := .locked } := by
    rw [hfind.mcb]
    exact Function.update_self _ _ _
  have hshows := hfind.shows.goto hl hself rfl rfl hfind.allocated hblock
  unfold statement
  rw [hf, Option.bind_some, hpc]
  dsimp only
  rw [hfind.read, Option.map_some]
  refine ⟨_, _, rfl, h.quiet (e := some (.enter s.tid 0)) hl hfind.initialised hshows rfl (.statement ?_ ?_)
    (no_frame hnone) (no_frame hnone) rfl rfl⟩
  · unfold Mutex.statement
    rw [hvpc]
    dsimp only
    rw [show (((s.goto none).setCritical f.mutex true).setBlock f.mcb { block with state := .locked }).handed f.mutex =
      (v f.mutex).handed from hfind.shows.handed.symm]
    rfl
  · unfold Mutex.act
    rw [hvpc, hfind.shows.tid]

theorem Sound.lockReturn (h : Sound s nodes v) (hf : s.frame s.tid = some f) (hpc : f.pc = .lockReturn)
    (address : Nat) : ∃ o s', s.statement address = some (o, s') ∧ Moved s v o s' := by
  have hvpc := (h.frame_pc hf (by rw [hpc]; simp)).trans hpc
  have hm := h.frame_initialised hf (by rw [hpc]; simp)
  have hnone : ((s.goto none).setCritical f.mutex true).frame s.tid = none := frame_goto
  have hl : Local s ((s.goto none).setCritical f.mutex true) f.mutex :=
    (local_goto (Sound.frame_mutex hf) fun g hg => by cases hg).setCritical true
  unfold statement
  rw [hf, Option.bind_some, hpc]
  refine ⟨_, _, rfl, h.place (p := .critical) (e := some (.enter s.tid ebusy)) hl hm ?_ rfl rfl (.statement ?_ ?_)
    (no_frame hnone) (no_frame hnone) rfl rfl⟩
  · have hc : ((s.goto none).setCritical f.mutex true).critical s.tid f.mutex = true := critical_setCritical
    rw [pcAt_none hnone]
    exact if_pos hc
  · unfold Mutex.statement
    rw [hvpc]
  · unfold Mutex.act
    rw [hvpc, (h.shows f.mutex hm).tid]

/-- A thread that returns without the mutex is in user code. -/
theorem Sound.returned (h : Sound s nodes v) (hf : s.frame s.tid = some f) (hnone : s'.frame s.tid = none)
    (hc : s'.critical = s.critical) : s'.pcAt f.mutex s.tid = .user := by
  rw [pcAt_none hnone, hc, (h.calls _ f hf).2]
  rfl

theorem Sound.unlockFree (h : Sound s nodes v) (hf : s.frame s.tid = some f) (hpc : f.pc = .unlockFree)
    (address : Nat) : ∃ o s', s.statement address = some (o, s') ∧ Moved s v o s' := by
  obtain ⟨block, hfind⟩ := h.finds hf (by rw [hpc]; trivial)
  have hvpc := hfind.pc.trans hpc
  unfold statement
  rw [hf, Option.bind_some, hpc]
  dsimp only
  rw [hfind.read, Option.map_some]
  have hl := ((local_goto (Sound.frame_mutex hf) fun g (hg : none = some g) => by cases hg).setBlock hfind.mcb
    { block with state := .unlocked }).setHanded none
  have hblock : ((s.goto none).setBlock f.mcb { block with state := .unlocked }).blocks (s.align f.mutex) =
      some { block with state := .unlocked } := by
    rw [hfind.mcb]
    exact Function.update_self _ _ _
  have hshows := hfind.shows.goto hl (h.returned hf frame_goto rfl) rfl rfl hfind.allocated hblock
  refine ⟨_, _, rfl, h.quiet (e := some (.leave s.tid)) hl hfind.initialised hshows rfl (.statement ?_ ?_)
    (no_frame frame_goto) (no_frame frame_goto) rfl rfl⟩
  · unfold Mutex.statement
    rw [hvpc]
    dsimp only
    rw [Function.update_self]
  · unfold Mutex.act
    rw [hvpc, hfind.shows.tid]

/-- The mutex may have been destroyed since the thread unlocked it. -/
theorem Sound.unlockReturn (h : Sound s nodes v) (hf : s.frame s.tid = some f) (hpc : f.pc = .unlockReturn)
    (address : Nat) : ∃ o s', s.statement address = some (o, s') ∧ Moved s v o s' := by
  have hl : Local s (s.goto none) f.mutex := local_goto (Sound.frame_mutex hf) fun g hg => by cases hg
  have huser : (s.goto none).pcAt f.mutex s.tid = .user := h.returned hf frame_goto rfl
  refine ⟨none, s.goto none, ?_, ?_⟩
  · unfold statement
    rw [hf, Option.bind_some, hpc]
  cases hm : s.initialised f.mutex with
  | true =>
    have hv := h.shows f.mutex hm
    have hvpc : (v f.mutex).pc (v f.mutex).tid = .unlockReturn := by
      rw [hv.pc, hv.tid, pcAt_some hf, hpc]
    refine h.place (p := .user) (e := none) hl hm huser rfl rfl (.statement ?_ ?_) (no_frame frame_goto)
      (no_frame frame_goto) rfl rfl
    · unfold Mutex.statement
      rw [hvpc]
    · unfold Mutex.act
      rw [hvpc]
  | false =>
    have hne : ∀ n, s.initialised n = true → n ≠ f.mutex := by
      rintro n hn rfl
      rw [hm] at hn
      cases hn
    refine ⟨fun _ _ he => (by cases he), rfl, nodes, v, ⟨fun n hn => ?_, h.good,
      fun n hn => ⟨(h.idle n hn).1, fun t => ?_⟩, h.run,
      fun t g hg => ?_, fun t g hg => ?_, h.align, h.blocks, h.heap, h.disjoint, h.blocked⟩, fun n _ => .inl ⟨rfl, rfl⟩⟩
    · exact (h.shows n hn).keep rfl (hl.pcAt_other (hne n hn)) rfl rfl (fun _ _ => rfl) rfl
    · by_cases hnf : n = f.mutex
      · by_cases ht : t = s.tid
        · rw [hnf, ht]
          exact .inl huser
        · rw [hl.pcAt_of_ne ht]
          exact (h.idle n hn).2 t
      · rw [hl.pcAt_other hnf]
        exact (h.idle n hn).2 t
    all_goals
      have ht : t ≠ s.tid := by
        rintro rfl
        rw [frame_goto] at hg
        cases hg
      rw [hl.frame t ht] at hg
    · exact h.calls t g hg
    · exact h.mcb t g hg

/-! ## The wait lists -/

/-- insert_tail writes the new node and the last one. -/
theorem insertTail_heap {q q' : WaitQueue} {nodes : List Nat} {ids : List Tid} {a x : Nat}
    (h : WaitQueue.Holds q nodes ids) (hs : q.insertTail a t = some q') (hx : x ∉ nodes) (hxa : x ≠ a) :
    q'.heap x = q.heap x := by
  unfold WaitQueue.insertTail at hs
  cases hlist : q.list with
  | none =>
    rw [hlist, Option.some.injEq] at hs
    rw [← hs]
    exact Function.update_of_ne hxa _ _
  | some b =>
    rw [hlist] at hs
    obtain ⟨last, hlast, hs⟩ := Option.bind_eq_some_iff.mp hs
    obtain ⟨node, -, hs⟩ := Option.map_eq_some_iff.mp hs
    have hmem : last ∈ nodes := by
      rw [h.tail] at hlast
      exact List.mem_of_getLast? hlast
    rw [← hs]
    dsimp only
    have hne : x ≠ last := by
      rintro rfl
      exact hx hmem
    rw [Function.update_of_ne hne, Function.update_of_ne hxa]

/-- get_head frees the first node. -/
theorem getHead_heap {q q' : WaitQueue} {l : List Nat} {ids : List Tid} {b : Nat}
    (h : WaitQueue.Holds q (b :: l) ids) (hs : q.getHead = some (t, q')) : q'.heap = Function.update q.heap b none := by
  have hlist : q.list = some b := (seg_cons.mp h.linked).1
  unfold WaitQueue.getHead at hs
  rw [hlist, Option.bind_some] at hs
  obtain ⟨node, -, hs⟩ := Option.map_eq_some_iff.mp hs
  rw [Prod.mk.injEq] at hs
  rw [← hs.2]

/-- A thread waits for one mutex at most. -/
theorem Sound.waits_once (h : Sound s nodes v) (hm : s.initialised m = true) (hn : s.initialised n = true)
    (ht : t ∈ (v m).waitList) (ht' : t ∈ (v n).waitList) : m = n := by
  have hplace : ∀ k, s.initialised k = true → t ∈ (v k).waitList → ∃ f, s.frame t = some f ∧ f.mutex = k := by
    intro k hk hin
    have hpc := ((h.good k hk).inv.blocked t hin).2
    rw [(h.shows k hk).pc] at hpc
    by_contra hno
    rw [pcAt_elsewhere fun f hf he => hno ⟨f, hf, he⟩] at hpc
    split at hpc <;> rcases hpc with hpc | hpc <;> cases hpc
  obtain ⟨f, hf, rfl⟩ := hplace m hm ht
  obtain ⟨g, hg, rfl⟩ := hplace n hn ht'
  rw [hf, Option.some.injEq] at hg
  rw [hg]

theorem Sound.status_waiting (h : Sound s nodes v) (hm : s.initialised m = true) (ht : t ∈ (v m).waitList) :
    s.status t = .blocked := by
  rw [← statusAt_of_mem ht, ← (h.shows m hm).status]
  exact ((h.good m hm).inv.blocked t ht).1

/-- The running thread waits for no mutex but the one it calls. -/
theorem Sound.not_waiting (h : Sound s nodes v) (hf : s.frame s.tid = some f) (hn : s.initialised n = true)
    (hne : n ≠ f.mutex) : s.tid ∉ (v n).waitList := by
  have hv := h.shows n hn
  have hpc : (v n).pc (v n).tid ≠ .lockSchedule := by
    rw [hv.pc, hv.tid, pcAt_elsewhere fun g hg he => hne (he.symm.trans (Sound.frame_mutex hf g hg))]
    split <;> simp
  rw [← hv.tid]
  exact ((h.good n hn).inv.not_waiting hpc).2

/-- The mutex after the running thread has joined its wait list. -/
theorem Shows.waits {nodes nodes' : List Nat} {v : Mutex Tid} (h : Shows s m nodes v) (hl : Local s s' m)
    (hstatus : s'.status = Function.update s.status s.tid .blocked) (hpc : s'.pcAt m s.tid = .lockSchedule)
    (hhanded : s'.handed m = s.handed m) {block : MutexControlBlock} (hblock : s'.blocks (s.align m) = some block)
    (hst : v.state = block.state)
    (hholds : WaitQueue.Holds ⟨s'.heap, block.waitList, block.waitListTail⟩ nodes' (v.waitList ++ [s.tid])) :
    Shows s' m nodes'
      { v.setPc .lockSchedule with
        status := Function.update v.status v.tid .blocked
        waitList := v.waitList ++ [v.tid] } := by
  have htid := h.tid
  refine ⟨?_, htid.trans hl.tid.symm, ?_, h.handed.trans hhanded.symm, block, by rw [hl.align]; exact hblock, hst, ?_⟩
  · funext t
    dsimp only
    rw [htid]
    by_cases ht : t = s.tid
    · rw [ht, Function.update_self, statusAt_of_mem (by simp), hstatus, Function.update_self]
    · rw [Function.update_of_ne ht, h.status]
      refine (statusAt_congr hl.tid ?_ ?_).symm
      · rw [hstatus, Function.update_of_ne ht]
      · simp [ht]
  · rw [hl.pcAt_self, hpc, ← h.pc, ← htid]
    rfl
  · dsimp only
    rw [htid]
    exact hholds

theorem Sound.frame_running (h : Sound s nodes v) (hf : s.frame s.tid = some f) (hpc : f.pc ≠ .lockSchedule) :
    s.status s.tid = .running := by
  refine h.running fun g hg => ?_
  rw [hf, Option.some.injEq] at hg
  rw [← hg]
  exact hpc

/-- The running thread is still in its call, at `p`. -/
theorem Sound.frame_calls (h : Sound s nodes v) (hf : s.frame s.tid = some f) {p : Pc} (hp : p ≠ .user ∧ p ≠ .critical)
    (hframe : s'.frame s.tid = some { f with pc := p }) (hcritical : s'.critical = s.critical) (g : Frame μ)
    (hg : s'.frame s.tid = some g) : (g.pc ≠ .user ∧ g.pc ≠ .critical) ∧ s'.critical s.tid f.mutex = false := by
  rw [hframe, Option.some.injEq] at hg
  rw [← hg, hcritical]
  exact ⟨hp, (h.calls _ f hf).2⟩

omit [DecidableEq μ] in
theorem frame_mcb {p : Pc} (hframe : s'.frame s.tid = some { f with pc := p }) (hp : ¬ p.Reads) {a : Nat} (g : Frame μ)
    (hg : s'.frame s.tid = some g) (hr : g.pc.Reads) : g.mcb = a := by
  rw [hframe, Option.some.injEq] at hg
  rw [← hg] at hr
  exact absurd hr hp

/-- The other mutexes when the running thread joins the wait list of its call. -/
theorem Sound.beside_waits (h : Sound s nodes v) (hf : s.frame s.tid = some f) (hrunning : s.status s.tid = .running)
    {block : MutexControlBlock} (hfind : Finds s nodes v f block) {address : Nat} (hfresh : s.heap address = none)
    {queue : WaitQueue}
    (hq : WaitQueue.insertTail address s.tid ⟨s.heap, block.waitList, block.waitListTail⟩ = some queue)
    (htid : s'.tid = s.tid) (hstatus : s'.status = Function.update s.status s.tid .blocked)
    (hheap : s'.heap = queue.heap) :
    Beside s s' nodes v f.mutex (nodes f.mutex ++ [address]) ((v f.mutex).waitList ++ [s.tid]) := by
  refine ⟨fun n hn hi x hx => ?_, fun x hx => ?_, fun x hx => ?_, fun n hn hi => ?_, fun t ht => ?_⟩
  · obtain ⟨hnot, hsome⟩ := h.apart hfind.initialised hi hn hx
    rw [hheap]
    exact insertTail_heap hfind.holds hq hnot fun he => hsome (he ▸ hfresh)
  · rw [hheap] at hx
    by_cases hin : x ∈ nodes f.mutex
    · exact .inl (List.mem_append_left _ hin)
    · by_cases hxa : x = address
      · exact .inl (by rw [hxa]; simp)
      · rw [insertTail_heap hfind.holds hq hin hxa] at hx
        obtain ⟨n, hi, hxn⟩ := h.heap x hx
        exact .inr ⟨n, fun he => hin (he ▸ hxn), hi, hxn⟩
  · rcases List.mem_append.mp hx with hx | hx
    · exact .inl hx
    · rw [List.mem_singleton.mp hx]
      exact .inr hfresh
  · funext t
    by_cases ht : t = s.tid
    · have hnot := h.not_waiting hf hi hn
      rw [ht, statusAt_of_ne (s := s) (by rw [hrunning]; simp), hrunning]
      unfold statusAt
      rw [if_pos ⟨by rw [hstatus, Function.update_self], hnot⟩, if_pos htid.symm]
    · exact statusAt_congr htid (by rw [hstatus, Function.update_of_ne ht]) Iff.rfl
  · by_cases htt : t = s.tid
    · exact .inl (by rw [htt]; simp)
    · rw [hstatus, Function.update_of_ne htt] at ht
      obtain ⟨n, hi, hin⟩ := h.blocked t ht
      by_cases hn : n = f.mutex
      · exact .inl (List.mem_append_left _ (hn ▸ hin))
      · exact .inr ⟨n, hn, hi, hin⟩

/-- pthread_mutex_lock joins the wait list. -/
theorem Sound.lockWait (h : Sound s nodes v) (hf : s.frame s.tid = some f) (hpc : f.pc = .lockWait) {address : Nat}
    (hfresh : s.Fresh address) : ∃ o s', s.statement address = some (o, s') ∧ Moved s v o s' := by
  obtain ⟨block, hfind⟩ := h.finds hf (by rw [hpc]; trivial)
  have hvpc := hfind.pc.trans hpc
  have hrunning := h.frame_running hf (by rw [hpc]; simp)
  obtain ⟨queue, hq, hholds'⟩ := hfind.holds.insertTail hfresh.2 s.tid
  obtain ⟨s', hs'⟩ : ∃ s' : Mutexes μ, s' = { (s.goto (some { f with pc := .lockSchedule })).setBlock f.mcb
      { block with waitList := queue.list, waitListTail := queue.tail } with
      status := Function.update s.status s.tid .blocked
      heap := queue.heap } := ⟨_, rfl⟩
  have hgoto := (local_goto (g := some { f with pc := .lockSchedule }) (Sound.frame_mutex hf)
    fun g hg => by cases hg; rfl).setBlock hfind.mcb { block with waitList := queue.list, waitListTail := queue.tail }
  have hl : Local s s' f.mutex := by
    rw [hs']
    exact hgoto.setTable _ _
  have hstatus : s'.status = Function.update s.status s.tid .blocked := by rw [hs']
  have hheap : s'.heap = queue.heap := by rw [hs']
  have hframe : s'.frame s.tid = some { f with pc := .lockSchedule } := by
    rw [hs']
    exact frame_goto
  have hblock : s'.blocks (s.align f.mutex) =
      some { block with waitList := queue.list, waitListTail := queue.tail } := by
    rw [hs', ← hfind.mcb]
    exact Function.update_self _ _ _
  have hshows := hfind.shows.waits hl hstatus (pcAt_some hframe) (by rw [hs']; rfl) hblock hfind.state
    (by rw [hheap]; exact hholds')
  refine ⟨some (f.mutex, .join s.tid), s', ?_, h.local (e := some (.join s.tid)) hl hfind.initialised hshows
    (.statement ?_ ?_) (h.frame_calls hf (by simp) hframe (by rw [hs']; rfl)) (frame_mcb hframe id) ?_ ?_⟩
  · unfold statement
    rw [hf, Option.bind_some, hpc, hs']
    dsimp only
    rw [hfind.read, Option.bind_some, hq, Option.map_some]
  · unfold Mutex.statement
    rw [hvpc]
  · unfold Mutex.act
    rw [hvpc, hfind.shows.tid]
  · rw [hstatus, Function.update_self]
    exact .inr rfl
  · dsimp only
    rw [hfind.shows.tid]
    exact h.beside_waits hf hrunning hfind hfresh.2 hq hl.tid hstatus hheap

/-- The mutex after the running thread has handed it to the first that waits. -/
theorem Shows.hands {nodes nodes' : List Nat} {v : Mutex Tid} {nextThread : Tid} {rest : List Tid}
    (h : Shows s m nodes v) (hl : Local s s' m) (hw : v.waitList = nextThread :: rest)
    (hstatus : s'.status = Function.update s.status nextThread .ready) (hpc : s'.pcAt m s.tid = .unlockSchedule)
    (hhanded : s'.handed m = some nextThread) {block : MutexControlBlock}
    (hblock : s'.blocks (s.align m) = some block) (hst : block.state = .unlocked)
    (hholds : WaitQueue.Holds ⟨s'.heap, block.waitList, block.waitListTail⟩ nodes' rest) :
    Shows s' m nodes'
      { v.setPc .unlockSchedule with
        waitList := rest
        state := .unlocked
        status := Function.update v.status nextThread .ready
        handed := some nextThread } := by
  refine ⟨?_, h.tid.trans hl.tid.symm, ?_, hhanded.symm, block, by rw [hl.align]; exact hblock, hst.symm, hholds⟩
  · funext t
    dsimp only
    by_cases ht : t = nextThread
    · rw [ht, Function.update_self, statusAt_of_ne (by rw [hstatus, Function.update_self]; simp), hstatus,
        Function.update_self]
    · rw [Function.update_of_ne ht, h.status]
      refine (statusAt_congr hl.tid ?_ ?_).symm
      · rw [hstatus, Function.update_of_ne ht]
      · rw [hw, List.mem_cons, or_iff_right ht]
  · rw [hl.pcAt_self, hpc, ← h.pc, ← h.tid]
    rfl

/-- The other mutexes when the first thread that waits for the mutex of the call gets ready. -/
theorem Sound.beside_hands (h : Sound s nodes v) (hrunning : s.status s.tid = .running)
    (hm : s.initialised m = true) {nextThread : Tid} {rest : List Tid} (hw : (v m).waitList = nextThread :: rest)
    {b : Nat} {l : List Nat} (hnodes : nodes m = b :: l) (htid : s'.tid = s.tid)
    (hstatus : s'.status = Function.update s.status nextThread .ready)
    (hheap : s'.heap = Function.update s.heap b none) : Beside s s' nodes v m l rest := by
  have hnext : nextThread ∈ (v m).waitList := by
    rw [hw]
    exact List.mem_cons_self
  have hblocked := h.status_waiting hm hnext
  refine ⟨fun n hn hi x hx => ?_, fun x hx => ?_, fun x hx => ?_, fun n hn hi => ?_, fun t ht => ?_⟩
  · rw [hheap]
    refine Function.update_of_ne (fun he => (h.apart hm hi hn hx).1 ?_) _ _
    rw [he, hnodes]
    exact List.mem_cons_self
  · rw [hheap] at hx
    have hxb : x ≠ b := by
      rintro rfl
      exact hx (Function.update_self _ _ _)
    rw [Function.update_of_ne hxb] at hx
    obtain ⟨n, hi, hxn⟩ := h.heap x hx
    by_cases hn : n = m
    · rw [hn, hnodes] at hxn
      exact .inl (List.mem_of_ne_of_mem hxb hxn)
    · exact .inr ⟨n, hn, hi, hxn⟩
  · rw [hnodes]
    exact .inl (List.mem_cons_of_mem _ hx)
  · funext t
    by_cases ht : t = nextThread
    · have hnot : nextThread ∉ (v n).waitList := fun hin => hn (h.waits_once hi hm hin hnext)
      have hne : nextThread ≠ s.tid := by
        rintro rfl
        rw [hrunning] at hblocked
        cases hblocked
      rw [ht, statusAt_of_ne (s := s') (by rw [hstatus, Function.update_self]; simp), hstatus, Function.update_self]
      unfold statusAt
      rw [if_pos ⟨hblocked, hnot⟩, if_neg hne]
    · exact statusAt_congr htid (by rw [hstatus, Function.update_of_ne ht]) Iff.rfl
  · have htn : t ≠ nextThread := by
      rintro rfl
      rw [hstatus, Function.update_self] at ht
      cases ht
    rw [hstatus, Function.update_of_ne htn] at ht
    obtain ⟨n, hi, hin⟩ := h.blocked t ht
    by_cases hn : n = m
    · rw [hn, hw] at hin
      exact .inl (List.mem_of_ne_of_mem htn hin)
    · exact .inr ⟨n, hn, hi, hin⟩

/-- pthread_mutex_unlock hands the mutex on. -/
theorem Sound.unlockHand (h : Sound s nodes v) (hf : s.frame s.tid = some f) (hpc : f.pc = .unlockHand)
    (address : Nat) : ∃ o s', s.statement address = some (o, s') ∧ Moved s v o s' := by
  obtain ⟨block, hfind⟩ := h.finds hf (by rw [hpc]; trivial)
  have hvpc := hfind.pc.trans hpc
  have hholds := hfind.holds
  have hrunning := h.frame_running hf (by rw [hpc]; simp)
  have hempty : ¬ (WaitQueue.isEmpty ⟨s.heap, block.waitList, block.waitListTail⟩ = true) := fun he =>
    (h.good f.mutex hfind.initialised).tested.hand hvpc (hholds.isEmpty.mp he)
  obtain ⟨b, l, nextThread, rest, hnodes, hw⟩ := hholds.nonempty (by simpa using hempty)
  rw [hnodes, hw] at hholds
  obtain ⟨queue, hq, hholds'⟩ := hholds.getHead
  have hqheap := getHead_heap hholds hq
  obtain ⟨s', hs'⟩ : ∃ s' : Mutexes μ, s' = { (s.goto (some { f with pc := .unlockSchedule })).setBlock f.mcb
      ⟨.unlocked, queue.list, queue.tail⟩ with
      status := Function.update s.status nextThread .ready
      heap := queue.heap
      handed := Function.update s.handed f.mutex (some nextThread) } := ⟨_, rfl⟩
  have hgoto := ((local_goto (g := some { f with pc := .unlockSchedule }) (Sound.frame_mutex hf)
    fun g hg => by cases hg; rfl).setBlock hfind.mcb ⟨.unlocked, queue.list, queue.tail⟩).setHanded (some nextThread)
  have hl : Local s s' f.mutex := by
    rw [hs']
    exact hgoto.setTable _ _
  have hstatus : s'.status = Function.update s.status nextThread .ready := by rw [hs']
  have hheap : s'.heap = Function.update s.heap b none := by
    rw [hs']
    exact hqheap
  have hframe : s'.frame s.tid = some { f with pc := .unlockSchedule } := by
    rw [hs']
    exact frame_goto
  have hblock : s'.blocks (s.align f.mutex) = some ⟨.unlocked, queue.list, queue.tail⟩ := by
    rw [hs', ← hfind.mcb]
    exact Function.update_self _ _ _
  have hhanded : s'.handed f.mutex = some nextThread := by
    rw [hs']
    exact Function.update_self _ _ _
  have hshows := hfind.shows.hands hl hw hstatus (pcAt_some hframe) hhanded hblock rfl
    (by rw [hheap, ← hqheap]; exact hholds')
  refine ⟨some (f.mutex, .leave s.tid), s', ?_, h.local (e := some (.leave s.tid)) hl hfind.initialised hshows
    (.statement ?_ ?_) (h.frame_calls hf (by simp) hframe (by rw [hs']; rfl)) (frame_mcb hframe id) ?_
    (h.beside_hands hrunning hfind.initialised hw hnodes hl.tid hstatus hheap)⟩
  · unfold statement
    rw [hf, Option.bind_some, hpc, hs']
    dsimp only
    rw [hfind.read, Option.bind_some, hq, Option.map_some]
  · unfold Mutex.statement
    rw [hvpc, hw]
  · unfold Mutex.act
    rw [hvpc, hfind.shows.tid]
  · have hblocked := h.status_waiting (t := nextThread) hfind.initialised (by rw [hw]; exact List.mem_cons_self)
    have hne : s.tid ≠ nextThread := by
      rintro he
      rw [← he, hrunning] at hblocked
      cases hblocked
    rw [hstatus, Function.update_of_ne hne]
    exact .inl hrunning

/-! ## Switches -/

/-- The thread table after a switch. -/
def switchTo (f' : Option (Frame μ)) (u : Tid) (s : Mutexes μ) : Mutexes μ :=
  { s.goto f' with status := switched s.status s.tid u, tid := u }

omit [DecidableEq μ] in
theorem switch_eq {f' : Option (Frame μ)} (hu : preempt s.status s.tid u = .ready) :
    s.switch f' u = some (s.switchTo f' u) := if_pos hu

omit [DecidableEq μ] in
theorem switchTo_frame_of_ne {f' : Option (Frame μ)} (ht : t ≠ s.tid) : (s.switchTo f' u).frame t = s.frame t :=
  Function.update_of_ne ht _ _

theorem switchTo_pcAt_of_ne {f' : Option (Frame μ)} (ht : t ≠ s.tid) : (s.switchTo f' u).pcAt n t = s.pcAt n t := by
  unfold pcAt
  rw [switchTo_frame_of_ne ht]
  rfl

/-- A mutex sees a thread that does not wait for it as running while it is switched out. -/
theorem Shows.running {nodes : List Nat} {v : Mutex Tid} (h : Shows s m nodes v)
    (hrun : s.status s.tid = .running ∨ s.status s.tid = .blocked) (hnot : s.tid ∉ v.waitList) :
    v.status s.tid = .running := by
  rw [h.status]
  rcases hrun with hrun | hrun
  · rw [statusAt_of_ne (by rw [hrun]; simp), hrun]
  · unfold statusAt
    rw [if_pos ⟨hrun, hnot⟩, if_pos rfl]

/-- The thread switched to is ready for every mutex. -/
theorem Shows.ready {nodes : List Nat} {v : Mutex Tid} (h : Shows s m nodes v)
    (hrun : s.status s.tid = .running ∨ s.status s.tid = .blocked) (hu : preempt s.status s.tid u = .ready) :
    preempt v.status v.tid u = .ready := by
  rw [h.tid]
  by_cases hut : u = s.tid
  · rw [hut] at hu ⊢
    have hrunning : s.status s.tid = .running := by
      refine hrun.resolve_right fun hb => ?_
      rw [preempt_not_running (by rw [hb]; simp), hb] at hu
      cases hu
    rw [preempt_self]
    rw [h.status, statusAt_of_ne (by rw [hrunning]; simp), hrunning]
  · rw [preempt_of_ne hut] at hu ⊢
    rw [h.status, statusAt_of_ne (by rw [hu]; simp), hu]

/-- What a mutex shows after a switch. -/
theorem Shows.switch {nodes : List Nat} {v : Mutex Tid} (h : Shows s m nodes v) {f' : Option (Frame μ)}
    (hrun : s.status s.tid = .running ∨ s.status s.tid = .blocked) :
    Shows (s.switchTo f' u) m nodes
      { v.setPc ((s.switchTo f' u).pcAt m s.tid) with status := switched v.status v.tid u, tid := u } := by
  obtain ⟨block, hb, hst, hholds⟩ := h.block
  have hstatus : (s.switchTo f' u).status = switched s.status s.tid u := rfl
  refine ⟨?_, rfl, ?_, h.handed, block, hb, hst, hholds⟩
  · funext t
    show switched v.status v.tid u t = (s.switchTo f' u).statusAt v.waitList t
    rw [h.tid]
    by_cases htu : t = u
    · rw [htu, switched_self, statusAt_of_ne (by rw [hstatus, switched_self]; simp), hstatus, switched_self]
    rw [switched_of_ne htu]
    by_cases ht : t = s.tid
    · rw [ht] at htu ⊢
      by_cases hin : s.tid ∈ v.waitList
      · have hsame : v.status s.tid = s.status s.tid := by rw [h.status, statusAt_of_mem hin]
        rw [statusAt_of_mem hin, hstatus, switched_of_ne htu]
        unfold preempt
        rw [hsame]
        split
        · rw [Function.update_self, Function.update_self]
        · exact hsame
      · rw [preempt_self (h.running hrun hin)]
        rcases hrun with hrun | hrun
        · have hready : (s.switchTo f' u).status s.tid = .ready := by
            rw [hstatus, switched_of_ne htu, preempt_self hrun]
          rw [statusAt_of_ne (by rw [hready]; simp), hready]
        · have hblocked : (s.switchTo f' u).status s.tid = .blocked := by
            rw [hstatus, switched_of_ne htu, preempt_not_running (by rw [hrun]; simp), hrun]
          unfold statusAt
          rw [if_pos ⟨hblocked, hin⟩, if_neg (show ¬ s.tid = (s.switchTo f' u).tid from htu)]
    · have hsame : (s.switchTo f' u).status t = s.status t := by rw [hstatus, switched_of_ne htu, preempt_of_ne ht]
      rw [preempt_of_ne ht, h.status]
      unfold statusAt
      simp only [hsame, if_neg ht, if_neg (show ¬ t = (s.switchTo f' u).tid from htu)]
  · funext t
    dsimp only
    by_cases ht : t = s.tid
    · rw [ht, ← h.tid, Mutex.setPc_self]
    · rw [Mutex.setPc_of_ne _ (by rw [h.tid]; exact ht), h.pc, switchTo_pcAt_of_ne ht]

/-- A switch, by an alarm or by schedule(); for every mutex it is one or the other. -/
theorem Sound.switch (h : Sound s nodes v) {f' : Option (Frame μ)} (hu : preempt s.status s.tid u = .ready)
    (hstep : ∀ n, s.initialised n = true → ∃ i, UserAlarm (v n) i ∧ NoLockWhileHanded (v n) i ∧ (v n).act i = none ∧
      (v n).step i = ((v n).switch ((s.switchTo f' u).pcAt n s.tid) u).map fun s => ((), s))
    (hidle : ∀ n, s.initialised n = false → (s.switchTo f' u).pcAt n s.tid = s.pcAt n s.tid)
    (hcall : ∀ g, f' = some g → (g.pc ≠ .user ∧ g.pc ≠ .critical) ∧ s.critical s.tid g.mutex = false)
    (hmcb : ∀ g, f' = some g → ¬ g.pc.Reads) : Moved s v none (s.switchTo f' u) := by
  have hmoves : ∀ n, s.initialised n = true → (v n).Moves none
      { (v n).setPc ((s.switchTo f' u).pcAt n s.tid) with status := switched (v n).status (v n).tid u, tid := u } := by
    intro n hn
    obtain ⟨i, halarm, hlock, hact, hs⟩ := hstep n hn
    refine .inr ⟨i, halarm, hlock, ?_, hact⟩
    rw [hs]
    unfold Mutex.switch
    rw [if_pos ((h.shows n hn).ready h.run hu)]
    rfl
  refine ⟨fun _ _ he => (by cases he), rfl, nodes, _, ⟨fun n hn => (h.shows n hn).switch h.run,
    fun n hn => (hmoves n hn).good (h.good n hn),
    fun n hn => ⟨(h.idle n hn).1, fun t => ?_⟩, .inl switched_self, fun t g hg => ?_, fun t g hg hr => ?_, h.align,
    h.blocks, h.heap, h.disjoint, fun t ht => h.blocked t ((switched_blocked hu).mp ht)⟩, hmoves⟩
  · by_cases ht : t = s.tid
    · rw [ht, hidle n hn]
      exact (h.idle n hn).2 _
    · rw [switchTo_pcAt_of_ne ht]
      exact (h.idle n hn).2 t
  all_goals
    by_cases ht : t = s.tid
  · rw [ht] at hg ⊢
    exact hcall g (frame_goto.symm.trans hg)
  · exact h.calls t g ((switchTo_frame_of_ne ht).symm.trans hg)
  · rw [ht] at hg
    exact absurd hr (hmcb g (frame_goto.symm.trans hg))
  · exact h.mcb t g ((switchTo_frame_of_ne ht).symm.trans hg) hr

/-- A thread in user code is outside every call, for every mutex. -/
theorem Sound.user (h : Sound s nodes v) (hn : s.initialised n = true)
    (hf : ∀ f, s.frame s.tid = some f → f.mutex ≠ n) :
    (v n).pc (v n).tid = .user ∨ (v n).pc (v n).tid = .critical := by
  have hv := h.shows n hn
  rw [hv.pc, hv.tid, pcAt_elsewhere hf]
  split
  · exact .inr rfl
  · exact .inl rfl

/-- The alarm in user code. -/
theorem Sound.alarm (h : Sound s nodes v) (hi : Allowed s (.alarm u)) :
    ∃ o s', s.step (.alarm u) = some (o, s') ∧ Moved s v o s' := by
  obtain ⟨hf, hu⟩ := hi
  have hpcAt : ∀ n, (s.switchTo (s.frame s.tid) u).pcAt n s.tid = s.pcAt n s.tid := by
    intro n
    have hframe : (s.switchTo (s.frame s.tid) u).frame s.tid = s.frame s.tid := frame_goto
    unfold pcAt
    rw [hframe]
    rfl
  refine ⟨none, s.switchTo (s.frame s.tid) u, ?_, h.switch hu (fun n hn => ?_) (fun n _ => hpcAt n) ?_ ?_⟩
  · rw [step, switch_eq hu]
    rfl
  · have hv := h.shows n hn
    refine ⟨.alarm u, h.user hn (fun f hf' => by rw [hf] at hf'; cases hf'), trivial, rfl, ?_⟩
    rw [hpcAt n, Mutex.step, hv.pc, hv.tid]
  all_goals
    intro g hg
    rw [hf] at hg
    cases hg

/-- schedule() of the call that the running thread is in. -/
theorem Sound.schedule (h : Sound s nodes v) (hi : Allowed s (.schedule u)) :
    ∃ o s', s.step (.schedule u) = some (o, s') ∧ Moved s v o s' := by
  obtain ⟨⟨f, hf, hsch⟩, hu⟩ := hi
  obtain ⟨p, hp⟩ : ∃ p, (f.pc = .lockSchedule ∧ p = Pc.lockReturn) ∨ (f.pc = .unlockSchedule ∧ p = Pc.unlockReturn) := by
    cases hpc : f.pc with
    | lockSchedule => exact ⟨_, .inl ⟨rfl, rfl⟩⟩
    | unlockSchedule => exact ⟨_, .inr ⟨rfl, rfl⟩⟩
    | _ =>
      rw [hpc] at hsch
      exact hsch.elim
  have hne : f.pc ≠ .unlockReturn := by rcases hp with ⟨hp, -⟩ | ⟨hp, -⟩ <;> rw [hp] <;> simp
  have hm := h.frame_initialised hf hne
  have hvpc := h.frame_pc hf hne
  have hl : Local s (s.goto (some { f with pc := p })) f.mutex :=
    local_goto (Sound.frame_mutex hf) fun g hg => by cases hg; rfl
  have hother : ∀ n, n ≠ f.mutex → (s.switchTo (some { f with pc := p }) u).pcAt n s.tid = s.pcAt n s.tid :=
    fun n hn => congrFun (hl.pcAt_other hn) s.tid
  have hself : (s.switchTo (some { f with pc := p }) u).pcAt f.mutex s.tid = p :=
    pcAt_some (f := { f with pc := p }) frame_goto
  refine ⟨none, s.switchTo (some { f with pc := p }) u, ?_, h.switch hu (fun n hn => ?_) (fun n hn => ?_) ?_ ?_⟩
  · rw [step, hf, Option.bind_some]
    rcases hp with ⟨hp, rfl⟩ | ⟨hp, rfl⟩ <;>
      · rw [hp]
        dsimp only
        rw [switch_eq hu]
        rfl
  · by_cases hnf : n = f.mutex
    · rw [hnf, hself]
      refine ⟨.schedule u, trivial, trivial, rfl, ?_⟩
      rw [Mutex.step, hvpc]
      rcases hp with ⟨hp, rfl⟩ | ⟨hp, rfl⟩ <;> rw [hp]
    · have hv := h.shows n hn
      have huser := h.user hn fun g hg he => hnf (he.symm.trans (Sound.frame_mutex hf g hg))
      refine ⟨.alarm u, huser, trivial, rfl, ?_⟩
      rw [hother n hnf, Mutex.step, hv.pc, hv.tid]
  · refine hother n fun he => ?_
    rw [he, hm] at hn
    cases hn
  · intro g hg
    rw [← Option.some.inj hg]
    exact ⟨by rcases hp with ⟨-, rfl⟩ | ⟨-, rfl⟩ <;> simp, (h.calls _ f hf).2⟩
  · intro g hg
    rw [← Option.some.inj hg]
    rcases hp with ⟨-, rfl⟩ | ⟨-, rfl⟩ <;> exact id

end Mutexes

end EC440.Threads
