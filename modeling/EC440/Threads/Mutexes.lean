/-
  The mutexes of threads.c in memory: pthread_mutex_init, pthread_mutex_destroy, pthread_mutex_lock
  and pthread_mutex_unlock for any number of mutexes, with their control blocks and the nodes of
  their wait lists on one heap. A statement that reads or writes a block or a node that is not
  allocated is `none`. The addresses that malloc returns are inputs, so that freed ones come back.

  Seen from one mutex (`Shows`) the threads run the statements of `Mutex`: a thread that is in a
  call on another mutex is in user code, and one that is blocked there is ready. So every mutex is
  a line of threads (`Line`).
-/
import EC440.Threads.Line
import EC440.Threads.WaitQueue

namespace EC440.Threads

open EC440.Lib

structure MutexControlBlock where
  state : MutexState
  waitList : Option Nat
  waitListTail : Option Nat
  deriving DecidableEq, Repr

/-- A call of pthread_mutex_lock or pthread_mutex_unlock: the mutex, the local `MCB`, and the
    statement that is next. -/
structure Frame (μ : Type*) where
  mutex : μ
  mcb : Nat
  pc : Pc
  deriving DecidableEq, Repr

/-- The thread table, the heap, `__align` of the mutexes and the calls the threads are in; `none` is
    user code. The last three fields are histories: which mutexes are initialised, which a thread
    has locked and not unlocked, and the thread a mutex was handed to. No statement reads them. -/
structure Mutexes (μ : Type*) where
  status : Tid → Status
  tid : Tid
  blocks : Nat → Option MutexControlBlock
  heap : Nat → Option Node
  align : μ → Nat
  frame : Tid → Option (Frame μ)
  initialised : μ → Bool
  critical : Tid → μ → Bool
  handed : μ → Option Tid

/-- The next statement calls schedule(). -/
def Pc.Schedules : Pc → Prop
  | .lockSchedule => True
  | .unlockSchedule => True
  | _ => False

/-- The next statement reads or writes the control block. -/
def Pc.Reads : Pc → Prop
  | .lockTest => True
  | .lockGrab => True
  | .lockWait => True
  | .unlockTest => True
  | .unlockFree => True
  | .unlockHand => True
  | _ => False

variable {μ : Type*} [DecidableEq μ]

namespace Mutexes

/-- What a step does to a mutex, for the trace. -/
abbrev Out (μ : Type*) := Option (μ × Action Tid)

inductive Input (μ : Type*)
  | init (m : μ) (address : Nat)
  | destroy (m : μ)
  | lock (m : μ)
  | unlock (m : μ)
  | statement (address : Nat)
  | schedule (u : Tid)
  | alarm (u : Tid)
  deriving DecidableEq, Repr

/-- pthread_mutex_init -/
def init (m : μ) (address : Nat) (s : Mutexes μ) : Mutexes μ :=
  { s with
    blocks := Function.update s.blocks address (some ⟨.unlocked, none, none⟩)
    align := Function.update s.align m address
    initialised := Function.update s.initialised m true }

/-- pthread_mutex_destroy; its result, and the state after it. -/
def destroy (m : μ) (s : Mutexes μ) : Option (Int × Mutexes μ) :=
  (s.blocks (s.align m)).map fun block =>
    if block.state ≠ .locked then
      (0, { s with
        blocks := Function.update s.blocks (s.align m) none
        initialised := Function.update s.initialised m false })
    else (-1, s)

/-- The running thread enters a call, goes on in it, or returns. -/
def goto (f : Option (Frame μ)) (s : Mutexes μ) : Mutexes μ :=
  { s with frame := Function.update s.frame s.tid f }

def setCritical (m : μ) (c : Bool) (s : Mutexes μ) : Mutexes μ :=
  { s with critical := Function.update s.critical s.tid (Function.update (s.critical s.tid) m c) }

def setBlock (mcb : Nat) (block : MutexControlBlock) (s : Mutexes μ) : Mutexes μ :=
  { s with blocks := Function.update s.blocks mcb (some block) }

/-- The next statement of the running thread. `address` is what malloc returns. -/
def statement (address : Nat) (s : Mutexes μ) : Option (Out μ × Mutexes μ) :=
  (s.frame s.tid).bind fun f =>
    match f.pc with
    | .lockTest => (s.blocks f.mcb).map fun block =>
        if block.state = .unlocked then (some (f.mutex, .join s.tid), s.goto (some { f with pc := .lockGrab }))
        else (none, s.goto (some { f with pc := .lockWait }))
    | .lockGrab => (s.blocks f.mcb).map fun block =>
        (some (f.mutex, .enter s.tid 0),
          ((s.goto none).setCritical f.mutex true).setBlock f.mcb { block with state := .locked })
    | .lockWait => (s.blocks f.mcb).bind fun block =>
        (WaitQueue.insertTail address s.tid ⟨s.heap, block.waitList, block.waitListTail⟩).map fun queue =>
          (some (f.mutex, .join s.tid),
            { (s.goto (some { f with pc := .lockSchedule })).setBlock f.mcb
                { block with waitList := queue.list, waitListTail := queue.tail } with
              status := Function.update s.status s.tid .blocked
              heap := queue.heap })
    | .lockReturn => some (some (f.mutex, .enter s.tid ebusy), (s.goto none).setCritical f.mutex true)
    | .unlockTest => (s.blocks f.mcb).map fun block =>
        (none, s.goto (some { f with pc := if block.waitList.isNone then .unlockFree else .unlockHand }))
    | .unlockFree => (s.blocks f.mcb).map fun block =>
        (some (f.mutex, .leave s.tid),
          { (s.goto none).setBlock f.mcb { block with state := .unlocked } with
            handed := Function.update s.handed f.mutex none })
    | .unlockHand => (s.blocks f.mcb).bind fun block =>
        (WaitQueue.getHead ⟨s.heap, block.waitList, block.waitListTail⟩).map fun p =>
          (some (f.mutex, .leave s.tid),
            { (s.goto (some { f with pc := .unlockSchedule })).setBlock f.mcb ⟨.unlocked, p.2.list, p.2.tail⟩ with
              status := Function.update s.status p.1 .ready
              heap := p.2.heap
              handed := Function.update s.handed f.mutex (some p.1) })
    | .unlockReturn => some (none, s.goto none)
    | _ => none

/-- schedule(), called in `f`. -/
def switch (f : Option (Frame μ)) (u : Tid) (s : Mutexes μ) : Option (Mutexes μ) :=
  if preempt s.status s.tid u = .ready then
    some { s.goto f with status := switched s.status s.tid u, tid := u }
  else none

def step (s : Mutexes μ) : Input μ → Option (Out μ × Mutexes μ)
  | .init m address => some (some (m, .init), s.init m address)
  | .destroy m => (s.destroy m).map fun p => (some (m, .destroy p.1), p.2)
  | .lock m => some (none, s.goto (some ⟨m, s.align m, .lockTest⟩))
  | .unlock m => some (none, (s.goto (some ⟨m, s.align m, .unlockTest⟩)).setCritical m false)
  | .statement address => s.statement address
  | .schedule u => (s.frame s.tid).bind fun f =>
      match f.pc with
      | .lockSchedule => (s.switch (some { f with pc := .lockReturn }) u).map fun s => (none, s)
      | .unlockSchedule => (s.switch (some { f with pc := .unlockReturn }) u).map fun s => (none, s)
      | _ => none
  | .alarm u => (s.switch (s.frame s.tid) u).map fun s => (none, s)

/-- malloc returns an address that is not in use. -/
def Fresh (s : Mutexes μ) (address : Nat) : Prop := s.blocks address = none ∧ s.heap address = none

/-- Calls are made from user code, on mutexes that are initialised; a thread locks a mutex it has
    not locked and unlocks one it has; alarms are taken in user code. No mutex is locked or
    destroyed while it is handed on. -/
def Allowed (s : Mutexes μ) : Input μ → Prop
  | .init m address => s.frame s.tid = none ∧ s.initialised m = false ∧ s.Fresh address
  | .destroy m => s.frame s.tid = none ∧ s.initialised m = true ∧ s.handed m = none
  | .lock m => s.frame s.tid = none ∧ s.initialised m = true ∧ s.critical s.tid m = false ∧ s.handed m = none
  | .unlock m => s.frame s.tid = none ∧ s.critical s.tid m = true
  | .statement address => (∃ f, s.frame s.tid = some f ∧ ¬ f.pc.Schedules) ∧ s.Fresh address
  | .schedule u => (∃ f, s.frame s.tid = some f ∧ f.pc.Schedules) ∧ preempt s.status s.tid u = .ready
  | .alarm u => s.frame s.tid = none ∧ preempt s.status s.tid u = .ready

/-- Only `tid` runs, and nothing is allocated. -/
structure Initial (s : Mutexes μ) : Prop where
  blocks : ∀ a, s.blocks a = none
  heap : ∀ a, s.heap a = none
  frame : ∀ t, s.frame t = none
  initialised : ∀ m, s.initialised m = false
  critical : ∀ t m, s.critical t m = false
  handed : ∀ m, s.handed m = none
  running : s.status s.tid = .running
  others : ∀ t, s.status t ≠ .blocked

/-! ## What one mutex shows -/

/-- Where a thread is, for the mutex `m`. -/
def pcAt (s : Mutexes μ) (m : μ) (t : Tid) : Pc :=
  match s.frame t with
  | some f => if f.mutex = m then f.pc else if s.critical t m then .critical else .user
  | none => if s.critical t m then .critical else .user

/-- The status of a thread, for the mutex for which `ids` wait. -/
def statusAt (s : Mutexes μ) (ids : List Tid) (t : Tid) : Status :=
  if s.status t = .blocked ∧ t ∉ ids then if t = s.tid then .running else .ready else s.status t

/-- The wait list of a block is linked through `nodes`, and all else of `v` is what `m` shows. -/
structure Shows (s : Mutexes μ) (m : μ) (nodes : List Nat) (v : Mutex Tid) : Prop where
  status : v.status = s.statusAt v.waitList
  tid : v.tid = s.tid
  pc : v.pc = s.pcAt m
  handed : v.handed = s.handed m
  block : ∃ block, s.blocks (s.align m) = some block ∧ v.state = block.state ∧
    WaitQueue.Holds ⟨s.heap, block.waitList, block.waitListTail⟩ nodes v.waitList

/-- The running thread acts on `m`. -/
structure Local (s s' : Mutexes μ) (m : μ) : Prop where
  tid : s'.tid = s.tid
  frame : ∀ t, t ≠ s.tid → s'.frame t = s.frame t
  old : ∀ f, s.frame s.tid = some f → f.mutex = m
  new : ∀ f, s'.frame s.tid = some f → f.mutex = m
  critical : ∀ t n, t ≠ s.tid ∨ n ≠ m → s'.critical t n = s.critical t n
  initialised : s'.initialised = s.initialised
  align : s'.align = s.align
  handed : ∀ n, n ≠ m → s'.handed n = s.handed n
  blocks : ∀ a, a ≠ s.align m → s'.blocks a = s.blocks a

variable {s s' : Mutexes μ} {m n : μ} {t u : Tid} {f : Frame μ} {nodes : List Nat} {v : Mutex Tid}

theorem pcAt_none (h : s.frame t = none) : s.pcAt m t = if s.critical t m then .critical else .user := by
  unfold pcAt
  rw [h]

theorem pcAt_some (h : s.frame t = some f) : s.pcAt f.mutex t = f.pc := by
  unfold pcAt
  rw [h]
  exact if_pos rfl

theorem pcAt_elsewhere (h : ∀ f, s.frame t = some f → f.mutex ≠ m) :
    s.pcAt m t = if s.critical t m then .critical else .user := by
  unfold pcAt
  split
  · next f hf => rw [if_neg (h f hf)]
  · rfl

theorem Local.pcAt_of_ne (h : Local s s' m) (ht : t ≠ s.tid) : s'.pcAt n t = s.pcAt n t := by
  unfold pcAt
  rw [h.frame t ht, h.critical t n (.inl ht)]

theorem Local.pcAt_other (h : Local s s' m) (hn : n ≠ m) : s'.pcAt n = s.pcAt n := by
  funext t
  by_cases ht : t = s.tid
  · rw [ht, pcAt_elsewhere fun f hf he => hn (he.symm.trans (h.new f hf)),
      pcAt_elsewhere fun f hf he => hn (he.symm.trans (h.old f hf)), h.critical _ n (.inr hn)]
  · exact h.pcAt_of_ne ht

theorem Local.pcAt_self (h : Local s s' m) : s'.pcAt m = Function.update (s.pcAt m) s.tid (s'.pcAt m s.tid) := by
  funext t
  by_cases ht : t = s.tid
  · rw [ht, Function.update_self]
  · rw [Function.update_of_ne ht]
    exact h.pcAt_of_ne ht

omit [DecidableEq μ] in
theorem statusAt_of_ne {ids : List Tid} (h : s.status t ≠ .blocked) : s.statusAt ids t = s.status t :=
  if_neg fun hb => h hb.1

omit [DecidableEq μ] in
theorem statusAt_of_mem {ids : List Tid} (h : t ∈ ids) : s.statusAt ids t = s.status t :=
  if_neg fun hb => hb.2 h

omit [DecidableEq μ] in
theorem statusAt_congr {ids ids' : List Tid} (htid : s'.tid = s.tid) (hstatus : s'.status t = s.status t)
    (hids : t ∈ ids' ↔ t ∈ ids) : s'.statusAt ids' t = s.statusAt ids t := by
  unfold statusAt
  simp only [htid, hstatus, hids]

/-- The list is linked through the same nodes when these are as they were. -/
theorem holds_congr {heap heap' : Nat → Option Node} {list tail : Option Nat} {ids : List Tid}
    (h : WaitQueue.Holds ⟨heap, list, tail⟩ nodes ids) (hkeep : ∀ x ∈ nodes, heap' x = heap x) :
    WaitQueue.Holds ⟨heap', list, tail⟩ nodes ids := by
  refine ⟨Linked.congr h.linked fun x hx => ?_, h.nodup, ?_, h.tail⟩
  · unfold WaitQueue.next
    dsimp only
    rw [hkeep x hx]
  · rw [← h.ids]
    exact List.map_congr_left fun x hx => congrArg _ (hkeep x hx)

/-- What a mutex shows is unchanged. -/
theorem Shows.keep (h : Shows s n nodes v) (htid : s'.tid = s.tid) (hpc : s'.pcAt n = s.pcAt n)
    (hhanded : s'.handed n = s.handed n) (hblock : s'.blocks (s'.align n) = s.blocks (s.align n))
    (hheap : ∀ x ∈ nodes, s'.heap x = s.heap x) (hstatus : s'.statusAt v.waitList = s.statusAt v.waitList) :
    Shows s' n nodes v := by
  obtain ⟨block, hb, hst, hholds⟩ := h.block
  exact ⟨h.status.trans hstatus.symm, h.tid.trans htid.symm, h.pc.trans hpc.symm, h.handed.trans hhanded.symm,
    block, hblock.trans hb, hst, holds_congr hholds hheap⟩

/-- The running thread goes on, and leaves the statuses and the heap alone. -/
theorem Shows.goto (h : Shows s m nodes v) (hl : Local s s' m) {p : Pc} (hpc : s'.pcAt m s.tid = p)
    (hstatus : s'.status = s.status) (hheap : s'.heap = s.heap) {x : MutexState} {block : MutexControlBlock}
    (hold : s.blocks (s.align m) = some block)
    (hblock : s'.blocks (s.align m) = some { block with state := x }) :
    Shows s' m nodes { v.setPc p with state := x, handed := s'.handed m } := by
  obtain ⟨block', hb, -, hholds⟩ := h.block
  rw [hold, Option.some.injEq] at hb
  subst hb
  refine ⟨?_, h.tid.trans hl.tid.symm, ?_, rfl, _, by rw [hl.align]; exact hblock, rfl, ?_⟩
  · refine h.status.trans ?_
    unfold statusAt
    rw [hstatus, hl.tid]
    rfl
  · rw [hl.pcAt_self, hpc, ← h.pc, ← h.tid]
    rfl
  · rw [hheap]
    exact hholds

/-! ## The invariant -/

/-- Every initialised mutex has a block and a wait list of its own, and nothing else is allocated.
    A thread is blocked exactly while it is in a wait list. -/
structure Sound (s : Mutexes μ) (nodes : μ → List Nat) (v : μ → Mutex Tid) : Prop where
  shows : ∀ m, s.initialised m = true → Shows s m (nodes m) (v m)
  good : ∀ m, s.initialised m = true → (v m).Good
  idle : ∀ m, s.initialised m = false → s.handed m = none ∧ ∀ t, s.pcAt m t = .user ∨ s.pcAt m t = .unlockReturn
  run : s.status s.tid = .running ∨ s.status s.tid = .blocked
  calls : ∀ t f, s.frame t = some f → (f.pc ≠ .user ∧ f.pc ≠ .critical) ∧ s.critical t f.mutex = false
  mcb : ∀ t f, s.frame t = some f → f.pc.Reads → f.mcb = s.align f.mutex
  align : ∀ m n, s.initialised m = true → s.initialised n = true → s.align m = s.align n → m = n
  blocks : ∀ a, s.blocks a ≠ none → ∃ m, s.initialised m = true ∧ s.align m = a
  heap : ∀ a, s.heap a ≠ none → ∃ m, s.initialised m = true ∧ a ∈ nodes m
  disjoint : ∀ m n a, s.initialised m = true → s.initialised n = true → a ∈ nodes m → a ∈ nodes n → m = n
  blocked : ∀ t, s.status t = .blocked → ∃ m, s.initialised m = true ∧ t ∈ (v m).waitList

/-- What the label says of the mutex `n`. -/
def outAt (o : Out μ) (n : μ) : Option (Action Tid) := o.bind fun p => if p.1 = n then some p.2 else none

theorem outAt_self {e : Option (Action Tid)} : outAt (e.map fun act => (m, act)) m = e := by
  cases e with
  | none => rfl
  | some act => exact if_pos rfl

theorem outAt_of_ne (h : n ≠ m) {e : Option (Action Tid)} : outAt (e.map fun act => (m, act)) n = none := by
  cases e with
  | none => rfl
  | some act => exact if_neg (Ne.symm h)

/-- A step after which the mutexes are initialised as before, and each moves as the label says. -/
structure Moved (s : Mutexes μ) (v : μ → Mutex Tid) (o : Out μ) (s' : Mutexes μ) : Prop where
  label : ∀ m act, o = some (m, act) → s.initialised m = true
  initialised : s'.initialised = s.initialised
  moves : ∃ nodes' v', Sound s' nodes' v' ∧ ∀ n, s.initialised n = true → (v n).Moves (outAt o n) (v' n)

variable {nodes : μ → List Nat} {v : μ → Mutex Tid} {o : Out μ}

/-- The wait lists share no node after one of them has changed. -/
theorem disjoint_update {P : μ → Prop} {nodes₁ : List Nat}
    (h : ∀ n n' a, n ≠ m → n' ≠ m → P n → P n' → a ∈ nodes n → a ∈ nodes n' → n = n')
    (hm : ∀ n a, n ≠ m → P n → a ∈ nodes₁ → a ∉ nodes n) (n n' : μ) (a : Nat) (hn : P n) (hn' : P n')
    (ha : a ∈ Function.update nodes m nodes₁ n) (ha' : a ∈ Function.update nodes m nodes₁ n') : n = n' := by
  by_cases hnm : n = m
  · by_cases hnm' : n' = m
    · rw [hnm, hnm']
    · rw [hnm, Function.update_self] at ha
      rw [Function.update_of_ne hnm'] at ha'
      exact absurd ha' (hm n' a hnm' hn' ha)
  · rw [Function.update_of_ne hnm] at ha
    by_cases hnm' : n' = m
    · rw [hnm', Function.update_self] at ha'
      exact absurd ha (hm n a hnm hn ha')
    · rw [Function.update_of_ne hnm'] at ha'
      exact h n n' a hnm hnm' hn hn' ha ha'

/-- The nodes of another mutex are allocated, and not among those of `m`. -/
theorem Sound.apart (h : Sound s nodes v) (hm : s.initialised m = true) (hn : s.initialised n = true) (hne : n ≠ m)
    {x : Nat} (hx : x ∈ nodes n) : x ∉ nodes m ∧ s.heap x ≠ none := by
  obtain ⟨block, -, -, hholds⟩ := (h.shows n hn).block
  obtain ⟨node, hnode⟩ := hholds.allocated hx
  have hsome : s.heap x = some node := hnode
  exact ⟨fun hin => hne (h.disjoint n m x hn hm hx hin), by rw [hsome]; simp⟩

/-- The nodes of the other mutexes and the threads that wait for them, when `m` now has `nodes₁` and
    `waitList`. -/
structure Beside (s s' : Mutexes μ) (nodes : μ → List Nat) (v : μ → Mutex Tid) (m : μ) (nodes₁ : List Nat)
    (waitList : List Tid) : Prop where
  heap : ∀ n, n ≠ m → s.initialised n = true → ∀ x ∈ nodes n, s'.heap x = s.heap x
  owned : ∀ a, s'.heap a ≠ none → a ∈ nodes₁ ∨ ∃ n, n ≠ m ∧ s.initialised n = true ∧ a ∈ nodes n
  fresh : ∀ a ∈ nodes₁, a ∈ nodes m ∨ s.heap a = none
  status : ∀ n, n ≠ m → s.initialised n = true → s'.statusAt (v n).waitList = s.statusAt (v n).waitList
  blocked : ∀ t, s'.status t = .blocked → t ∈ waitList ∨ ∃ n, n ≠ m ∧ s.initialised n = true ∧ t ∈ (v n).waitList

/-- The nodes of `m` are new or were its own, so no other mutex has them. -/
theorem Beside.apart {nodes₁ : List Nat} {waitList : List Tid} (hb : Beside s s' nodes v m nodes₁ waitList)
    (h : Sound s nodes v) (hm : s.initialised m = true) (n : μ) (a : Nat) (hn : n ≠ m) (hi : s.initialised n = true)
    (ha : a ∈ nodes₁) : a ∉ nodes n := by
  intro hna
  obtain ⟨hnot, hsome⟩ := h.apart hm hi hn hna
  exact (hb.fresh a ha).elim hnot hsome

theorem exists_update {β : Type*} {g : μ → β} {x : β} {p : β → Prop} (hm : s.initialised m = true)
    (h : p x ∨ ∃ n, n ≠ m ∧ s.initialised n = true ∧ p (g n)) :
    ∃ n, s.initialised n = true ∧ p (Function.update g m x n) := by
  rcases h with h | ⟨n, hn, hi, h⟩
  · exact ⟨m, hm, by rw [Function.update_self]; exact h⟩
  · exact ⟨n, hi, by rw [Function.update_of_ne hn]; exact h⟩

/-- The mutex `m` shows something else, and the others what they did. -/
theorem Sound.local_shows (h : Sound s nodes v) (hl : Local s s' m) (hm : s.initialised m = true) {nodes₁ : List Nat}
    {v₁ : Mutex Tid} (hshows : Shows s' m nodes₁ v₁) (hb : Beside s s' nodes v m nodes₁ v₁.waitList)
    (hn : s.initialised n = true) : Shows s' n (Function.update nodes m nodes₁ n) (Function.update v m v₁ n) := by
  by_cases hnm : n = m
  · rw [hnm, Function.update_self, Function.update_self]
    exact hshows
  · rw [Function.update_of_ne hnm, Function.update_of_ne hnm]
    refine (h.shows n hn).keep hl.tid (hl.pcAt_other hnm) (hl.handed n hnm) ?_ (hb.heap n hnm hn) (hb.status n hnm hn)
    rw [hl.align, hl.blocks _ fun he => hnm (h.align n m hn hm he)]

theorem Sound.local_calls (h : Sound s nodes v) (hl : Local s s' m)
    (hcall : ∀ f, s'.frame s.tid = some f → (f.pc ≠ .user ∧ f.pc ≠ .critical) ∧ s'.critical s.tid m = false)
    (t : Tid) (f : Frame μ) (hf : s'.frame t = some f) :
    (f.pc ≠ .user ∧ f.pc ≠ .critical) ∧ s'.critical t f.mutex = false := by
  by_cases ht : t = s.tid
  · rw [ht] at hf ⊢
    rw [hl.new f hf]
    exact hcall f hf
  · rw [hl.critical t _ (.inl ht)]
    exact h.calls t f (by rw [← hl.frame t ht]; exact hf)

theorem Sound.local_mcb (h : Sound s nodes v) (hl : Local s s' m)
    (hmcb : ∀ f, s'.frame s.tid = some f → f.pc.Reads → f.mcb = s.align m)
    (t : Tid) (f : Frame μ) (hf : s'.frame t = some f) (hr : f.pc.Reads) : f.mcb = s'.align f.mutex := by
  rw [hl.align]
  by_cases ht : t = s.tid
  · rw [ht] at hf
    rw [hl.new f hf]
    exact hmcb f hf hr
  · exact h.mcb t f (by rw [← hl.frame t ht]; exact hf) hr

/-- The blocks and the threads' places after the running thread has acted on `m`. -/
theorem Sound.local (h : Sound s nodes v) (hl : Local s s' m) (hm : s.initialised m = true) {nodes₁ : List Nat}
    {v₁ : Mutex Tid} {e : Option (Action Tid)} (hshows : Shows s' m nodes₁ v₁) (hmoves : (v m).Moves e v₁)
    (hcall : ∀ f, s'.frame s.tid = some f → (f.pc ≠ .user ∧ f.pc ≠ .critical) ∧ s'.critical s.tid m = false)
    (hmcb : ∀ f, s'.frame s.tid = some f → f.pc.Reads → f.mcb = s.align m)
    (hrun : s'.status s.tid = .running ∨ s'.status s.tid = .blocked)
    (hb : Beside s s' nodes v m nodes₁ v₁.waitList) : Moved s v (e.map fun act => (m, act)) s' := by
  have hvself : Function.update v m v₁ m = v₁ := Function.update_self _ _ _
  refine ⟨fun n a ha => ?_, hl.initialised, Function.update nodes m nodes₁, Function.update v m v₁,
    ⟨fun n hn => ?_, fun n hn => ?_, fun n hn => ?_, ?_, h.local_calls hl hcall, h.local_mcb hl hmcb, ?_, fun a ha => ?_,
      fun a ha => ?_, ?_, fun t ht => ?_⟩, fun n hn => ?_⟩
  · obtain ⟨_, -, he⟩ := Option.map_eq_some_iff.mp ha
    rw [Prod.mk.injEq] at he
    rw [← he.1]
    exact hm
  · rw [hl.initialised] at hn
    exact h.local_shows hl hm hshows hb hn
  · rw [hl.initialised] at hn
    by_cases hnm : n = m
    · rw [hnm, hvself]
      exact hmoves.good (h.good m hm)
    · rw [Function.update_of_ne hnm]
      exact h.good n hn
  · rw [hl.initialised] at hn
    have hnm : n ≠ m := by
      rintro rfl
      rw [hm] at hn
      cases hn
    rw [hl.handed n hnm, hl.pcAt_other hnm]
    exact h.idle n hn
  · rw [hl.tid]
    exact hrun
  · rw [hl.initialised, hl.align]
    exact h.align
  · rw [hl.initialised, hl.align]
    by_cases ham : a = s.align m
    · exact ⟨m, hm, ham.symm⟩
    · rw [hl.blocks a ham] at ha
      exact h.blocks a ha
  · rw [hl.initialised]
    exact exists_update (p := fun l => a ∈ l) hm (hb.owned a ha)
  · rw [hl.initialised]
    exact disjoint_update (fun n n' a _ _ => h.disjoint n n' a) (hb.apart h hm)
  · rw [hl.initialised]
    exact exists_update (p := fun w : Mutex Tid => t ∈ w.waitList) hm (hb.blocked t ht)
  · by_cases hnm : n = m
    · rw [hnm, hvself, outAt_self]
      exact hmoves
    · rw [Function.update_of_ne hnm]
      exact .inl ⟨outAt_of_ne hnm, rfl⟩

/-- A thread that runs a statement is in no wait list. -/
theorem Sound.running (h : Sound s nodes v) (hpc : ∀ f, s.frame s.tid = some f → f.pc ≠ .lockSchedule) :
    s.status s.tid = .running := by
  refine h.run.resolve_right fun hb => ?_
  obtain ⟨m, hm, hin⟩ := h.blocked _ hb
  have hv := h.shows m hm
  have hne : (v m).pc (v m).tid ≠ .lockSchedule := by
    rw [hv.pc, hv.tid]
    cases hf : s.frame s.tid with
    | none =>
      rw [pcAt_none hf]
      split <;> simp
    | some f =>
      by_cases hfm : f.mutex = m
      · rw [← hfm, pcAt_some hf]
        exact hpc f hf
      · rw [pcAt_elsewhere fun g hg => by rw [hf] at hg; cases hg; exact hfm]
        split <;> simp
  refine ((h.good m hm).inv.not_waiting hne).2 ?_
  rw [hv.tid]
  exact hin

/-- Nothing has been allocated, freed or blocked. -/
theorem Sound.beside (h : Sound s nodes v) (htid : s'.tid = s.tid) (hstatus : s'.status = s.status)
    (hheap : s'.heap = s.heap) : Beside s s' nodes v m (nodes m) (v m).waitList := by
  have hsplit : ∀ {p : μ → Prop}, (∃ n, s.initialised n = true ∧ p n) →
      p m ∨ ∃ n, n ≠ m ∧ s.initialised n = true ∧ p n := by
    intro p hp
    obtain ⟨n, hn, hin⟩ := hp
    by_cases hnm : n = m
    · exact .inl (hnm ▸ hin)
    · exact .inr ⟨n, hnm, hn, hin⟩
  refine ⟨fun _ _ _ x _ => by rw [hheap], fun a ha => ?_, fun a ha => .inl ha, fun n _ _ => ?_, fun t ht => ?_⟩
  · rw [hheap] at ha
    exact hsplit (h.heap a ha)
  · funext t
    unfold statusAt
    rw [hstatus, htid]
  · rw [hstatus] at ht
    exact hsplit (h.blocked t ht)

/-- The running thread leaves the statuses, the wait lists and the heap alone. -/
theorem Sound.quiet (h : Sound s nodes v) (hl : Local s s' m) (hm : s.initialised m = true) {v₁ : Mutex Tid}
    {e : Option (Action Tid)} (hshows : Shows s' m (nodes m) v₁) (hwait : v₁.waitList = (v m).waitList)
    (hmoves : (v m).Moves e v₁)
    (hcall : ∀ f, s'.frame s.tid = some f → (f.pc ≠ .user ∧ f.pc ≠ .critical) ∧ s'.critical s.tid m = false)
    (hmcb : ∀ f, s'.frame s.tid = some f → f.pc.Reads → f.mcb = s.align m) (hstatus : s'.status = s.status)
    (hheap : s'.heap = s.heap) : Moved s v (e.map fun act => (m, act)) s' := by
  refine h.local hl hm hshows hmoves hcall hmcb (by rw [hstatus]; exact h.run) ?_
  rw [hwait]
  exact h.beside hl.tid hstatus hheap

/-- The same, with the block as it was. -/
theorem Sound.place (h : Sound s nodes v) (hl : Local s s' m) (hm : s.initialised m = true) {p : Pc}
    {e : Option (Action Tid)} (hpc : s'.pcAt m s.tid = p) (hblocks : s'.blocks = s.blocks)
    (hhanded : s'.handed = s.handed) (hmoves : (v m).Moves e ((v m).setPc p))
    (hcall : ∀ f, s'.frame s.tid = some f → (f.pc ≠ .user ∧ f.pc ≠ .critical) ∧ s'.critical s.tid m = false)
    (hmcb : ∀ f, s'.frame s.tid = some f → f.pc.Reads → f.mcb = s.align m) (hstatus : s'.status = s.status)
    (hheap : s'.heap = s.heap) : Moved s v (e.map fun act => (m, act)) s' := by
  have hv := h.shows m hm
  obtain ⟨block, hb, hst, -⟩ := hv.block
  have hshows := hv.goto hl hpc hstatus hheap hb (x := block.state) (by rw [hblocks, hb])
  rw [← hst, hhanded, ← hv.handed] at hshows
  exact h.quiet hl hm hshows rfl hmoves hcall hmcb hstatus hheap

theorem Local.setHanded (h : Local s s' m) (x : Option Tid) :
    Local s { s' with handed := Function.update s'.handed m x } m where
  tid := h.tid
  frame := h.frame
  old := h.old
  new := h.new
  critical := h.critical
  initialised := h.initialised
  align := h.align
  handed := fun n hn => (Function.update_of_ne hn _ _).trans (h.handed n hn)
  blocks := h.blocks

omit [DecidableEq μ] in
theorem Local.setBlock (h : Local s s' m) {mcb : Nat} (hmcb : mcb = s.align m) (block : MutexControlBlock) :
    Local s (s'.setBlock mcb block) m where
  tid := h.tid
  frame := h.frame
  old := h.old
  new := h.new
  critical := h.critical
  initialised := h.initialised
  align := h.align
  handed := h.handed
  blocks := fun a ha => (Function.update_of_ne (hmcb ▸ ha) _ _).trans (h.blocks a ha)

omit [DecidableEq μ] in
theorem Local.setTable (h : Local s s' m) (status : Tid → Status) (heap : Nat → Option Node) :
    Local s { s' with status := status, heap := heap } m :=
  ⟨h.tid, h.frame, h.old, h.new, h.critical, h.initialised, h.align, h.handed, h.blocks⟩

omit [DecidableEq μ] in
theorem frame_goto {g : Option (Frame μ)} : (s.goto g).frame s.tid = g := Function.update_self _ _ _

omit [DecidableEq μ] in
theorem local_goto {g : Option (Frame μ)} (hold : ∀ f, s.frame s.tid = some f → f.mutex = m)
    (hnew : ∀ f, g = some f → f.mutex = m) : Local s (s.goto g) m where
  tid := rfl
  frame := fun _ ht => Function.update_of_ne ht _ _
  old := hold
  new := fun f hf => hnew f (frame_goto.symm.trans hf)
  critical := fun _ _ _ => rfl
  initialised := rfl
  align := rfl
  handed := fun _ _ => rfl
  blocks := fun _ _ => rfl

theorem Local.setCritical (h : Local s s' m) (c : Bool) : Local s (s'.setCritical m c) m where
  tid := h.tid
  frame := h.frame
  old := h.old
  new := h.new
  critical := fun t n htn => by
    have hkeep : (s'.setCritical m c).critical t n = s'.critical t n := by
      unfold Mutexes.setCritical
      dsimp only
      by_cases ht : t = s'.tid
      · have hn : n ≠ m := htn.resolve_left fun hne => hne (ht.trans h.tid)
        rw [ht, Function.update_self, Function.update_of_ne hn]
      · rw [Function.update_of_ne ht]
    rw [hkeep, h.critical t n htn]
  initialised := h.initialised
  align := h.align
  handed := h.handed
  blocks := h.blocks

theorem critical_setCritical {c : Bool} : (s.setCritical m c).critical s.tid m = c := by
  unfold setCritical
  dsimp only
  rw [Function.update_self, Function.update_self]

/-! ## The calls -/

/-- pthread_mutex_lock is called. -/
theorem Sound.lock (h : Sound s nodes v) (hi : Allowed s (.lock m)) :
    Moved s v none (s.goto (some ⟨m, s.align m, .lockTest⟩)) := by
  obtain ⟨hf, hm, hc, hh⟩ := hi
  have hv := h.shows m hm
  have hl : Local s (s.goto (some ⟨m, s.align m, .lockTest⟩)) m :=
    local_goto (fun f hf' => by rw [hf] at hf'; cases hf') fun f hf' => by cases hf'; rfl
  have hpc : (v m).pc (v m).tid = .user := by
    rw [hv.pc, hv.tid, pcAt_none hf, hc]
    rfl
  refine h.place hl hm (p := .lockTest) (e := none) ?_ rfl rfl ?_ (fun f hf' => ?_) (fun f hf' _ => ?_) rfl rfl
  · exact pcAt_some (f := ⟨m, s.align m, .lockTest⟩) frame_goto
  · exact .inr ⟨.lock, trivial, by rw [← hv.handed] at hh; exact hh, if_pos hpc, rfl⟩
  all_goals
    rw [frame_goto, Option.some.injEq] at hf'
    subst hf'
  · exact ⟨by simp, hc⟩
  · rfl

/-- A thread that has locked a mutex finds it initialised. -/
theorem Sound.initialised (h : Sound s nodes v) (hf : s.frame t = none) (hc : s.critical t m = true) :
    s.initialised m = true := by
  by_contra hno
  have hpc := (h.idle m (by simpa using hno)).2 t
  rw [pcAt_none hf, hc] at hpc
  rcases hpc with hpc | hpc <;> cases hpc

/-- pthread_mutex_unlock is called. -/
theorem Sound.unlock (h : Sound s nodes v) (hi : Allowed s (.unlock m)) :
    Moved s v none ((s.goto (some ⟨m, s.align m, .unlockTest⟩)).setCritical m false) := by
  obtain ⟨hf, hc⟩ := hi
  have hm := h.initialised hf hc
  have hv := h.shows m hm
  have hl : Local s ((s.goto (some ⟨m, s.align m, .unlockTest⟩)).setCritical m false) m :=
    (local_goto (fun f hf' => by rw [hf] at hf'; cases hf') fun f hf' => by cases hf'; rfl).setCritical false
  have hpc : (v m).pc (v m).tid = .critical := by
    rw [hv.pc, hv.tid, pcAt_none hf, hc]
    rfl
  refine h.place hl hm (p := .unlockTest) (e := none) ?_ rfl rfl ?_ (fun f hf' => ?_) (fun f hf' _ => ?_) rfl rfl
  · exact pcAt_some (f := ⟨m, s.align m, .unlockTest⟩) frame_goto
  · exact .inr ⟨.unlock, trivial, trivial, if_pos hpc, rfl⟩
  all_goals
    have hf'' : (s.goto (some ⟨m, s.align m, .unlockTest⟩)).frame s.tid = some f := hf'
    rw [frame_goto, Option.some.injEq] at hf''
    subst hf''
  · exact ⟨by simp, critical_setCritical⟩
  · rfl

end Mutexes

end EC440.Threads
