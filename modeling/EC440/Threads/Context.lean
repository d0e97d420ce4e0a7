/-
  The registers behind Library: setjmp and longjmp on the jmp_bufs of TCB_Table, ptr_mangle, the
  first stack of a new thread and start_thunk. The threads of the library are threads: each has
  the registers it left when it was switched out, and a new one begins with start_routine(arg) on
  a stack of its own.

  setjmp keeps the callee-saved registers, the stack pointer and the address to go on at; longjmp
  brings them back with 1 as setjmp's result. RBP, RSP and the address are kept mangled.
-/
import EC440.Lib.Words
import EC440.Threads.Library
import Mathlib.Data.Fin.VecNotation

namespace EC440.Threads

open EC440.Lib

abbrev Word := BitVec 64

structure Cpu where
  rbx : Word
  rbp : Word
  r12 : Word
  r13 : Word
  r14 : Word
  r15 : Word
  rsp : Word
  pc : Word
  rdi : Word
  rax : Word

/-- `fs:0x30`, and where the program's code lies: start_thunk, pthread_function_return_save, and what
    follows the setjmp of schedule and the two of pthread_create. -/
structure Code where
  guard : Word
  startThunk : Word
  returnSave : Word
  afterSchedule : Word
  afterFirst : Word
  afterNew : Word
  schedule_ne : afterSchedule ≠ startThunk
  first_ne : afterFirst ≠ startThunk

/-! ## jmp_buf -/

/-- `__jmpbuf` -/
abbrev JmpBuf := Fin 8 → Word

def jbRbx : Fin 8 := 0
def jbRbp : Fin 8 := 1
def jbR12 : Fin 8 := 2
def jbR13 : Fin 8 := 3
def jbR14 : Fin 8 := 4
def jbR15 : Fin 8 := 5
def jbRsp : Fin 8 := 6
def jbPc : Fin 8 := 7

def ptrMangle (guard p : Word) : Word := (p ^^^ guard).rotateLeft 17

def ptrDemangle (guard p : Word) : Word := p.rotateRight 17 ^^^ guard

/-- `setjmp`, called where it returns to `pc`. -/
def setjmp (guard : Word) (c : Cpu) (pc : Word) : JmpBuf :=
  ![c.rbx, ptrMangle guard c.rbp, c.r12, c.r13, c.r14, c.r15, ptrMangle guard c.rsp, ptrMangle guard pc]

/-- `longjmp(buf, 1)` -/
def longjmp (guard : Word) (buf : JmpBuf) (c : Cpu) : Cpu where
  rbx := buf jbRbx
  rbp := ptrDemangle guard (buf jbRbp)
  r12 := buf jbR12
  r13 := buf jbR13
  r14 := buf jbR14
  r15 := buf jbR15
  rsp := ptrDemangle guard (buf jbRsp)
  pc := ptrDemangle guard (buf jbPc)
  rdi := c.rdi
  rax := 1

theorem rotateRight_rotateLeft (x : Word) : (x.rotateLeft 17).rotateRight 17 = x := by
  ext i hi
  rw [BitVec.getElem_rotateRight hi]
  split
  · rw [BitVec.getElem_rotateLeft, dif_neg (by omega)]
    congr 1
    omega
  · rw [BitVec.getElem_rotateLeft, dif_pos (by omega)]
    congr 1
    omega

theorem ptrDemangle_ptrMangle (guard p : Word) : ptrDemangle guard (ptrMangle guard p) = p := by
  unfold ptrDemangle ptrMangle
  rw [rotateRight_rotateLeft, BitVec.xor_assoc, BitVec.xor_self, BitVec.xor_zero]

/-! ## start_thunk -/

def push (c : Cpu) (m : Mem) (v : Word) : Cpu × Mem :=
  ({ c with rsp := c.rsp - 8 }, store64 m (c.rsp - 8).toNat v)

/-- start_thunk, with the `push %rbp; mov %rsp,%rbp` that the compiler puts in front of it. -/
def startThunk (c : Cpu) (m : Mem) : Cpu × Mem :=
  let p := push c m c.rbp
  let c := { p.1 with rbp := p.1.rsp }
  -- popq %rbp
  let c := { c with rbp := load64 p.2 c.rsp.toNat, rsp := c.rsp + 8 }
  -- movq %r13, %rdi
  let c := { c with rdi := c.r13 }
  -- pushq %r12
  let q := push c p.2 c.r12
  -- retq
  ({ q.1 with pc := load64 q.2 q.1.rsp.toNat, rsp := q.1.rsp + 8 }, q.2)

/-- start_thunk leads to a call of R12 with R13 as its argument. -/
theorem startThunk_cpu (c : Cpu) (m : Mem) : (startThunk c m).1 = { c with rdi := c.r13, pc := c.r12 } := by
  have hsp : c.rsp - 8 + 8 = c.rsp := BitVec.sub_add_cancel _ _
  unfold startThunk push
  dsimp only
  rw [load64_store64, load64_store64, hsp, hsp]

/-- start_thunk writes below the stack pointer only. -/
theorem startThunk_mem (c : Cpu) (m : Mem) {x : Nat} (h : ¬ ((c.rsp - 8).toNat ≤ x ∧ x < (c.rsp - 8).toNat + 8)) :
    (startThunk c m).2 x = m x := by
  have hsp : c.rsp - 8 + 8 = c.rsp := BitVec.sub_add_cancel _ _
  unfold startThunk push
  dsimp only
  rw [hsp, store64_of_notMem h, store64_of_notMem h]

/-! ## The process -/

/-- Library with what it leaves out: the jmp_bufs and stacks of TCB_Table, and the registers and the
    memory of the process. -/
structure Process where
  lib : Library
  regs : Tid → Option JmpBuf
  stack : Tid → Option Word
  cpu : Cpu
  mem : Mem

/-- THREAD_STACK_SIZE -/
def threadStackSize : Word := 32767

/-- Where the return address of a new thread is put. -/
def stackPointer (stack : Word) : Word := stack + threadStackSize - 8

namespace Process

def boot (cpu : Cpu) (mem : Mem) : Process where
  lib := Library.boot
  regs := fun _ => none
  stack := fun _ => none
  cpu := cpu
  mem := mem

/-- longjmp to the thread that has become the current one; a new thread runs start_thunk. -/
def resume (k : Code) (p : Process) (lib : Library) : Option Process :=
  match p.regs lib.tid with
  | none => none
  | some buf =>
      let c := longjmp k.guard buf p.cpu
      let q := if c.pc = k.startThunk then startThunk c p.mem else (c, p.mem)
      some { p with lib := lib, cpu := q.1, mem := q.2 }

/-- The setjmp of schedule(). -/
def save (k : Code) (p : Process) : Process :=
  { p with regs := Function.update p.regs p.lib.tid (some (setjmp k.guard p.cpu k.afterSchedule)) }

/-- schedule() -/
def schedule (k : Code) (p : Process) : Option Process :=
  match p.lib.schedule with
  | none => none
  | some lib => resume k (if preempt p.lib.status p.lib.tid p.lib.tid = .exited then p else p.save k) lib

/-- The registers of a new thread: those of its creator, but for four. -/
def newRegs (k : Code) (c : Cpu) (startRoutine arg stack : Word) : JmpBuf :=
  let buf := setjmp k.guard c k.afterNew
  let buf := Function.update buf jbPc (ptrMangle k.guard k.startThunk)
  let buf := Function.update buf jbR13 arg
  let buf := Function.update buf jbR12 startRoutine
  Function.update buf jbRsp (ptrMangle k.guard (stackPointer stack))

/-- pthread_create before its schedule(); `stack` is what malloc returned. -/
def newThread (k : Code) (p : Process) (currentTid : Tid) (startRoutine arg stack : Word) : Process where
  lib := p.lib.entered.newThread currentTid
  regs := Function.update (if p.lib.isFirstCall then
    Function.update p.regs mainTid (some (setjmp k.guard p.cpu k.afterFirst)) else p.regs)
    currentTid (some (newRegs k p.cpu startRoutine arg stack))
  stack := Function.update p.stack currentTid (some stack)
  cpu := p.cpu
  mem := store64 p.mem (stackPointer stack).toNat k.returnSave

def pthreadCreate (k : Code) (p : Process) (startRoutine arg stack : Word) : Option (Nat × Process) :=
  match Library.emptySlot p.lib.entered.status maxThreads 1 with
  | none => none
  | some currentTid =>
      ((p.newThread k currentTid startRoutine arg stack).schedule k).map fun p => (currentTid.val, p)

/-- pthread_exit; the value it is given is not used. The last thread frees the stacks before exit(0), its
    own too when it is not the main thread, and is then nowhere. -/
def pthreadExit (k : Code) (p : Process) : Option (Library.Ret × Process) :=
  match p.lib.pthreadExit with
  | none => none
  | some (true, lib) => if p.lib.tid = mainTid then some (.processExit, { p with lib := lib }) else none
  | some (false, lib) => (resume k p lib).map fun p => (.switched, p)

/-- What the current thread does: it computes, calls, is interrupted by the timer, or returns from
    its start_routine. The timer interrupts no call. -/
inductive Input
  | run (cpu : Cpu) (mem : Mem)
  | create (startRoutine arg stack : Word)
  | timer
  | exit
  | ret

/-- `ret` goes to pthread_function_return_save, which calls pthread_exit. -/
def step (k : Code) (p : Process) (i : Input) : Option (Option Library.Ret × Process) :=
  if p.lib.ended then none
  else match i with
    | .run cpu mem => some (none, { p with cpu := cpu, mem := mem })
    | .create startRoutine arg stack =>
        (p.pthreadCreate k startRoutine arg stack).map fun q => (some (.created q.1), q.2)
    | .timer => if p.lib.isFirstCall then none else (p.schedule k).map fun p => (some .switched, p)
    | .exit => (p.pthreadExit k).map fun q => (some q.1, q.2)
    | .ret =>
        if load64 p.mem p.cpu.rsp.toNat = k.returnSave then (p.pthreadExit k).map fun q => (some q.1, q.2)
        else none

/-- The thread is the main thread, or another one is left. -/
def NotLast (p : Process) : Prop := p.lib.tid = mainTid ∨ ∃ u, u ≠ p.lib.tid ∧ p.lib.status u = .ready

instance (p : Process) : Decidable p.NotLast := inferInstanceAs (Decidable (_ ∨ _))

/-- What C programs keep to: the threads leave the return address that a thread begins with where it
    is, malloc's stacks lie apart, a start_routine returns with the stack pointer it was called with,
    and only the main thread exits when no other is left. -/
def Allowed (p : Process) : Input → Prop
  | .run _ mem => ∀ u stack, p.stack u = some stack →
      load64 mem (stackPointer stack).toNat = load64 p.mem (stackPointer stack).toNat
  | .create _ _ stack => stack.toNat + 32767 ≤ 2 ^ 64 ∧ ∀ u stack', p.stack u = some stack' →
      stack.toNat + 32767 ≤ stack'.toNat ∨ stack'.toNat + 32767 ≤ stack.toNat
  | .ret => p.NotLast ∧ ∃ stack, p.stack p.lib.tid = some stack ∧ p.cpu.rsp = stackPointer stack
  | .exit => p.NotLast
  | .timer => True

end Process

/-! ## A machine with a processor for each thread -/

/-- What longjmp brings back. -/
structure Context where
  rbx : Word
  rbp : Word
  r12 : Word
  r13 : Word
  r14 : Word
  r15 : Word
  rsp : Word
  pc : Word

def Cpu.context (c : Cpu) : Context := ⟨c.rbx, c.rbp, c.r12, c.r13, c.r14, c.r15, c.rsp, c.pc⟩

/-- A thread that waits for its turn: it goes on where it was, or begins. -/
inductive Thread where
  | paused (c : Context)
  | created (startRoutine arg sp : Word)

/-- The registers and the memory with which the thread has its turn. A new one is at the start of
    start_routine(arg), and will return to pthread_function_return_save. -/
def Thread.Begins (k : Code) (mem : Mem) (cpu' : Cpu) (mem' : Mem) : Thread → Prop
  | .paused c => cpu'.context = c ∧ cpu'.rax = 1 ∧ mem' = mem
  | .created startRoutine arg sp => cpu'.pc = startRoutine ∧ cpu'.rdi = arg ∧ cpu'.rsp = sp ∧
      load64 mem' sp.toNat = k.returnSave ∧
      ∀ x, ¬ ((sp - 8).toNat ≤ x ∧ x < (sp - 8).toNat + 8) → mem' x = mem x

structure Machine where
  waiting : Tid → Option Thread
  current : Tid
  cpu : Cpu
  mem : Mem
  ended : Bool

/-- The current thread waits, with its registers as they are. -/
def Machine.pause (k : Code) (m : Machine) : Machine :=
  let th := Thread.paused { m.cpu.context with pc := k.afterSchedule }
  { m with waiting := Function.update m.waiting m.current (some th) }

/-- A new thread waits; its return address is on its stack. -/
def Machine.add (k : Code) (m : Machine) (id : Tid) (startRoutine arg stack : Word) : Machine :=
  { m with
    waiting := Function.update m.waiting id (some (.created startRoutine arg (stackPointer stack)))
    mem := store64 m.mem (stackPointer stack).toNat k.returnSave }

/-- The next waiting thread in the round has its turn. -/
structure Machine.Switch (k : Code) (m m' : Machine) : Prop where
  turn : ∃ th, m.waiting m'.current = some th ∧ th.Begins k m.mem m'.cpu m'.mem
  next : ∀ v, m.waiting v ≠ none → rounds m.current m'.current ≤ rounds m.current v
  rest : m'.waiting = Function.update m.waiting m'.current none
  ended : m'.ended = m.ended

inductive Machine.Step (k : Code) : Machine → Process.Input × Option Library.Ret → Machine → Prop
  | run {m : Machine} {cpu : Cpu} {mem : Mem} :
      Machine.Step k m (.run cpu mem, none) { m with cpu := cpu, mem := mem }
  | timer {m m' : Machine} : Machine.Switch k (m.pause k) m' → Machine.Step k m (.timer, some .switched) m'
  | create {m m' : Machine} {id : Tid} {startRoutine arg stack : Word} : id ≠ m.current → m.waiting id = none →
      Machine.Switch k ((m.add k id startRoutine arg stack).pause k) m' →
      Machine.Step k m (.create startRoutine arg stack, some (.created id.val)) m'
  | leave {m m' : Machine} {i : Process.Input} : i = .exit ∨ i = .ret → Machine.Switch k m m' →
      Machine.Step k m (i, some .switched) m'
  | last {m : Machine} {i : Process.Input} : i = .exit ∨ i = .ret → (∀ u, m.waiting u = none) →
      Machine.Step k m (i, some .processExit) { m with ended := true }

namespace Process

/-- What a jmp_buf stands for. -/
def thread (k : Code) (buf : JmpBuf) : Thread :=
  if ptrDemangle k.guard (buf jbPc) = k.startThunk then
    .created (buf jbR12) (buf jbR13) (ptrDemangle k.guard (buf jbRsp))
  else .paused
    { rbx := buf jbRbx, rbp := ptrDemangle k.guard (buf jbRbp), r12 := buf jbR12, r13 := buf jbR13,
      r14 := buf jbR14, r15 := buf jbR15, rsp := ptrDemangle k.guard (buf jbRsp),
      pc := ptrDemangle k.guard (buf jbPc) }

def machine (k : Code) (p : Process) : Machine where
  waiting := fun u => if u ≠ p.lib.tid ∧ p.lib.status u = .ready then (p.regs u).map (thread k) else none
  current := p.lib.tid
  cpu := p.cpu
  mem := p.mem
  ended := p.lib.ended

variable {k : Code} {p p' : Process} {lib : Library} {u v : Tid} {buf : JmpBuf}

/-! ## The stacks of the threads -/

/-- Every stack ends with the return address, the stacks lie apart, and a thread that has not begun is
    at the end of its stack. -/
structure Stacks (k : Code) (p : Process) : Prop where
  returns : ∀ u stack, p.stack u = some stack → load64 p.mem (stackPointer stack).toNat = k.returnSave
  room : ∀ u stack, p.stack u = some stack → stack.toNat + 32767 ≤ 2 ^ 64
  apart : ∀ u v s t, p.stack u = some s → p.stack v = some t → u ≠ v →
    s.toNat + 32767 ≤ t.toNat ∨ t.toNat + 32767 ≤ s.toNat
  fresh : ∀ u buf, p.regs u = some buf → ptrDemangle k.guard (buf jbPc) = k.startThunk →
    ∃ stack, p.stack u = some stack ∧ ptrDemangle k.guard (buf jbRsp) = stackPointer stack

theorem stackPointer_toNat {stack : Word} (h : stack.toNat + 32767 ≤ 2 ^ 64) :
    (stackPointer stack).toNat = stack.toNat + 32759 := by
  unfold stackPointer threadStackSize
  bv_omega

theorem stackPointer_sub {stack : Word} (h : stack.toNat + 32767 ≤ 2 ^ 64) :
    (stackPointer stack - 8).toNat = stack.toNat + 32751 := by
  unfold stackPointer threadStackSize
  bv_omega

theorem thread_setjmp (k : Code) (c : Cpu) {pc : Word} (h : pc ≠ k.startThunk) :
    thread k (setjmp k.guard c pc) = .paused { c.context with pc := pc } := by
  have hm := ptrDemangle_ptrMangle k.guard
  have hpc : ptrDemangle k.guard (setjmp k.guard c pc jbPc) = pc := hm pc
  unfold thread
  rw [hpc, if_neg h]
  show Thread.paused (Context.mk c.rbx (ptrDemangle k.guard (ptrMangle k.guard c.rbp)) c.r12 c.r13 c.r14 c.r15
    (ptrDemangle k.guard (ptrMangle k.guard c.rsp)) pc) = _
  rw [hm, hm]
  rfl

/-- A return address stays when only bytes below another one's are written. -/
theorem Stacks.kept (h : Stacks k p) {stack : Word} (hs : p.stack u = some stack) {mem' : Mem}
    (hm : ∀ x, ¬ ((stackPointer stack - 8).toNat ≤ x ∧ x < (stackPointer stack - 8).toNat + 8) → mem' x = p.mem x)
    {t : Word} (ht : p.stack v = some t) :
    load64 mem' (stackPointer t).toNat = load64 p.mem (stackPointer t).toNat := by
  have hroom := h.room u stack hs
  have hroom' := h.room v t ht
  refine load64_congr fun x h1 h2 => hm x fun hx => ?_
  rw [stackPointer_toNat hroom'] at h1 h2
  rw [stackPointer_sub hroom] at hx
  by_cases huv : u = v
  · subst huv
    rw [hs, Option.some.injEq] at ht
    subst ht
    omega
  · obtain hlt | hlt := h.apart u v stack t hs ht huv
    all_goals omega

/-- longjmp gives the thread its turn. -/
theorem Stacks.resume (h : Stacks k p) (hbuf : p.regs lib.tid = some buf) :
    ∃ p', p.resume k lib = some p' ∧ p'.lib = lib ∧ p'.regs = p.regs ∧ Stacks k p' ∧
      (thread k buf).Begins k p.mem p'.cpu p'.mem := by
  by_cases hpc : ptrDemangle k.guard (buf jbPc) = k.startThunk
  · obtain ⟨stack, hs, hsp⟩ := h.fresh lib.tid buf hbuf hpc
    obtain ⟨c, hc⟩ : ∃ c, longjmp k.guard buf p.cpu = c := ⟨_, rfl⟩
    have hcsp : c.rsp = stackPointer stack := by rw [← hc]; exact hsp
    have hmem : ∀ x, ¬ ((stackPointer stack - 8).toNat ≤ x ∧ x < (stackPointer stack - 8).toNat + 8) →
        (startThunk c p.mem).2 x = p.mem x := fun x hx => startThunk_mem c p.mem (by rw [hcsp]; exact hx)
    refine ⟨{ p with lib := lib, cpu := (startThunk c p.mem).1, mem := (startThunk c p.mem).2 }, ?_, rfl, rfl,
      ⟨fun v t ht => ?_, h.room, h.apart, h.fresh⟩, ?_⟩
    · unfold Process.resume
      rw [hbuf]
      dsimp only
      rw [hc, if_pos (by rw [← hc]; exact hpc)]
    · exact (h.kept hs hmem ht).trans (h.returns v t ht)
    · unfold thread
      rw [if_pos hpc, hsp]
      have hcpu := startThunk_cpu c p.mem
      refine ⟨?_, ?_, ?_, (h.kept hs hmem hs).trans (h.returns _ _ hs), hmem⟩
      · rw [hcpu, ← hc]
        rfl
      · rw [hcpu, ← hc]
        rfl
      · rw [hcpu]
        exact hcsp
  · refine ⟨{ p with lib := lib, cpu := longjmp k.guard buf p.cpu }, ?_, rfl, rfl,
      ⟨h.returns, h.room, h.apart, h.fresh⟩, ?_⟩
    · unfold Process.resume
      rw [hbuf]
      dsimp only
      rw [if_neg (show ¬ (longjmp k.guard buf p.cpu).pc = k.startThunk from hpc)]
    · unfold thread
      rw [if_neg hpc]
      exact ⟨rfl, rfl, rfl⟩

/-! ## schedule() -/

/-- What schedule() does to the thread table. -/
theorem schedule_lib (h : p.lib.schedule = some lib) : ∃ u, pick p.lib.status p.lib.tid = some u ∧ lib.tid = u ∧
    lib.status = switched p.lib.status p.lib.tid u ∧ lib.ended = p.lib.ended ∧ lib.regs u ≠ none ∧
    lib.regs = if preempt p.lib.status p.lib.tid p.lib.tid = .exited then p.lib.regs
      else Function.update p.lib.regs p.lib.tid (some .schedule) := by
  unfold Library.schedule at h
  cases hu : pick p.lib.status p.lib.tid with
  | none =>
      rw [hu] at h
      cases h
  | some u =>
      rw [hu] at h
      obtain ⟨regs, hregs⟩ : ∃ regs, (if preempt p.lib.status p.lib.tid p.lib.tid = .exited then p.lib.regs
        else Function.update p.lib.regs p.lib.tid (some .schedule)) = regs := ⟨_, rfl⟩
      dsimp only at h
      rw [hregs] at h
      by_cases hr : regs u = none
      · rw [if_pos hr] at h
        cases h
      · rw [if_neg hr, Option.some.injEq] at h
        subst h
        exact ⟨u, rfl, rfl, rfl, rfl, hr, hregs.symm⟩

/-- Every slot whose registers are saved has a jmp_buf. -/
def Saved (p : Process) : Prop := ∀ u, p.lib.regs u ≠ none → p.regs u ≠ none

/-- The state in which schedule() has saved the registers. -/
def saved (k : Code) (p : Process) : Process :=
  if preempt p.lib.status p.lib.tid p.lib.tid = .exited then p else p.save k

theorem Stacks.save (h : Stacks k p) : Stacks k (p.saved k) := by
  unfold Process.saved
  split
  · exact h
  refine ⟨h.returns, h.room, h.apart, fun u buf hu hpc => ?_⟩
  by_cases hut : u = p.lib.tid
  · unfold Process.save at hu
    dsimp only at hu
    rw [hut, Function.update_self, Option.some.injEq] at hu
    rw [← hu] at hpc
    exact absurd ((ptrDemangle_ptrMangle k.guard k.afterSchedule).symm.trans hpc) k.schedule_ne
  · unfold Process.save at hu
    dsimp only at hu
    rw [Function.update_of_ne hut] at hu
    exact h.fresh u buf hu hpc

/-- The machine when schedule() looks for the next thread: the current one waits, unless it has exited. -/
def offered (k : Code) (p : Process) : Machine :=
  if p.lib.status p.lib.tid = .exited then p.machine k else (p.machine k).pause k

theorem machine_waiting_of_ne (h : u ≠ p.lib.tid) :
    (p.machine k).waiting u = if p.lib.status u = .ready then (p.regs u).map (thread k) else none := by
  unfold machine
  dsimp only
  simp only [ne_eq, h, not_false_eq_true, true_and]

/-- A thread waits exactly if schedule() sees it as ready. -/
theorem offered_waiting
    (hcur : p.lib.status p.lib.tid = .running ∨ p.lib.status p.lib.tid = .ready ∨ p.lib.status p.lib.tid = .exited)
    (u : Tid) : (p.offered k).waiting u =
      if preempt p.lib.status p.lib.tid u = .ready then ((p.saved k).regs u).map (thread k) else none := by
  by_cases hex : p.lib.status p.lib.tid = .exited
  · have hpre : preempt p.lib.status p.lib.tid = p.lib.status := preempt_not_running (by rw [hex]; decide)
    unfold offered Process.saved
    rw [if_pos hex, hpre, if_pos hex]
    by_cases hut : u = p.lib.tid
    · rw [hut, hex, if_neg (by decide)]
      unfold machine
      dsimp only
      rw [if_neg fun hx => hx.1 rfl]
    · rw [machine_waiting_of_ne hut]
  · have hself : preempt p.lib.status p.lib.tid p.lib.tid = .ready := by
      obtain hc | hc | hc := hcur
      · exact preempt_self hc
      · rw [preempt_not_running (by rw [hc]; decide), hc]
      · exact absurd hc hex
    unfold offered Process.saved
    rw [if_neg hex, hself, if_neg (show ¬ Status.ready = .exited by decide)]
    unfold Machine.pause Process.save
    dsimp only
    by_cases hut : u = p.lib.tid
    · rw [hut, hself, if_pos rfl, Function.update_self, Option.map_some, thread_setjmp k p.cpu k.schedule_ne]
      exact Function.update_self _ _ _
    · rw [preempt_of_ne hut, Function.update_of_ne hut, ← machine_waiting_of_ne hut]
      exact Function.update_of_ne hut _ _

theorem offered_current (k : Code) (p : Process) : (p.offered k).current = p.lib.tid ∧ (p.offered k).mem = p.mem ∧
    (p.offered k).ended = p.lib.ended := by
  unfold offered
  split
  · exact ⟨rfl, rfl, rfl⟩
  · exact ⟨rfl, rfl, rfl⟩

theorem Saved.save (h : Saved p) : ∀ u, (if preempt p.lib.status p.lib.tid p.lib.tid = .exited then p.lib.regs
    else Function.update p.lib.regs p.lib.tid (some .schedule)) u ≠ none → (p.saved k).regs u ≠ none := by
  intro u hu
  unfold Process.saved
  split
  · next hex =>
      rw [if_pos hex] at hu
      exact h u hu
  · next hex =>
      rw [if_neg hex] at hu
      unfold Process.save
      dsimp only
      by_cases hut : u = p.lib.tid
      · rw [hut, Function.update_self]
        exact Option.some_ne_none _
      · rw [Function.update_of_ne hut] at hu ⊢
        exact h u hu

/-- schedule() gives the next thread its turn. -/
theorem Stacks.schedule (h : Stacks k p) (hs : Saved p)
    (hcur : p.lib.status p.lib.tid = .running ∨ p.lib.status p.lib.tid = .ready ∨ p.lib.status p.lib.tid = .exited)
    (hlib : p.lib.schedule = some lib) :
    ∃ p', p.schedule k = some p' ∧ p'.lib = lib ∧ Stacks k p' ∧ Saved p' ∧
      Machine.Switch k (p.offered k) (p'.machine k) := by
  obtain ⟨u, hpick, htid, hstatus, hended, hregs, hall⟩ := schedule_lib hlib
  have hsaved := hs.save (k := k)
  rw [← hall] at hsaved
  obtain ⟨buf, hbuf⟩ := Option.ne_none_iff_exists'.mp (hsaved u hregs)
  have hready := pick_ready hpick
  obtain ⟨hoc, hom, hoe⟩ := offered_current k p
  obtain ⟨p', hrun, hlib', hregs', hst, hbegin⟩ := h.save.resume
    (show (p.saved k).regs lib.tid = some buf by rw [htid]; exact hbuf)
  have hwait := offered_waiting (k := k) hcur
  have hcurrent : (p'.machine k).current = u := by
    show p'.lib.tid = u
    rw [hlib', htid]
  refine ⟨p', ?_, hlib', hst, fun v hv => ?_, ⟨thread k buf, ?_, ?_⟩, fun v hv => ?_, ?_, ?_⟩
  · unfold Process.schedule
    rw [hlib]
    exact hrun
  · rw [hregs']
    rw [hlib'] at hv
    exact hsaved v hv
  · rw [hcurrent, hwait u, if_pos hready, hbuf, Option.map_some]
  · rw [hom]
    have hmem : (p.saved k).mem = p.mem := by
      unfold Process.saved
      split <;> rfl
    rw [hmem] at hbegin
    exact hbegin
  · rw [hoc, hcurrent]
    refine pick_first hpick ?_
    by_contra hne
    rw [hwait v, if_neg hne] at hv
    exact hv rfl
  · rw [hcurrent]
    funext v
    by_cases hvu : v = u
    · rw [hvu, Function.update_self]
      unfold machine
      dsimp only
      rw [hlib', htid, if_neg fun hx => hx.1 rfl]
    · rw [Function.update_of_ne hvu, machine_waiting_of_ne (by rw [hlib', htid]; exact hvu), hwait v, hlib', hstatus,
        switched_of_ne hvu, hregs']
  · rw [hoe]
    show p'.lib.ended = p.lib.ended
    rw [hlib', hended]

/-! ## pthread_create -/

/-- The process before its first pthread_create, or with `n` threads. -/
def Alive (lib : Library) : Prop := lib = Library.boot ∨ ∃ n, Library.Runs lib n

theorem Alive.entered (h : Alive lib) :
    lib.entered.status lib.entered.tid = .running ∨ lib.entered.status lib.entered.tid = .ready := by
  obtain rfl | ⟨n, hr⟩ := h
  · exact .inr rfl
  · rw [hr.entered]
    exact .inl hr.running

theorem Alive.own (h : Alive lib) : lib.tcbTid lib.tid = lib.tid.val := by
  obtain rfl | ⟨n, hr⟩ := h
  · rfl
  · exact hr.inv.own _

theorem entered_tid (lib : Library) : lib.entered.tid = lib.tid ∧ lib.entered.ended = lib.ended := by
  unfold Library.entered
  split <;> exact ⟨rfl, rfl⟩

section NewThread

variable (k : Code) (p : Process) (u : Tid) (startRoutine arg stack : Word)

theorem newThread_mem : (p.newThread k u startRoutine arg stack).mem =
    store64 p.mem (stackPointer stack).toNat k.returnSave := by
  unfold Process.newThread
  dsimp only

theorem newThread_stack : (p.newThread k u startRoutine arg stack).stack =
    Function.update p.stack u (some stack) := rfl

theorem newThread_regs : (p.newThread k u startRoutine arg stack).regs = Function.update (if p.lib.isFirstCall then
    Function.update p.regs mainTid (some (setjmp k.guard p.cpu k.afterFirst)) else p.regs)
    u (some (newRegs k p.cpu startRoutine arg stack)) := rfl

theorem newThread_tid : (p.newThread k u startRoutine arg stack).lib.tid = p.lib.tid := (entered_tid p.lib).1

theorem newThread_status : (p.newThread k u startRoutine arg stack).lib.status =
    Function.update p.lib.entered.status u .ready := rfl

end NewThread

theorem Stacks.newThread (h : Stacks k p) {startRoutine arg stack : Word}
    (ha : p.Allowed (.create startRoutine arg stack)) (u : Tid) :
    Stacks k (p.newThread k u startRoutine arg stack) := by
  obtain ⟨hroom, hapart⟩ := ha
  have hof : ∀ v s, (p.newThread k u startRoutine arg stack).stack v = some s →
      v = u ∧ s = stack ∨ v ≠ u ∧ p.stack v = some s := by
    intro v s hv
    rw [newThread_stack] at hv
    by_cases hvu : v = u
    · rw [hvu, Function.update_self, Option.some.injEq] at hv
      exact .inl ⟨hvu, hv.symm⟩
    · rw [Function.update_of_ne hvu] at hv
      exact .inr ⟨hvu, hv⟩
  have hrooms : ∀ v s, (p.newThread k u startRoutine arg stack).stack v = some s → s.toNat + 32767 ≤ 2 ^ 64 := by
    intro v s hv
    obtain ⟨-, he⟩ | ⟨-, hv'⟩ := hof v s hv
    · rw [he]
      exact hroom
    · exact h.room v s hv'
  refine ⟨fun v s hv => ?_, hrooms, fun v w s t hv hw hvw => ?_, fun v buf hv hpc => ?_⟩
  · rw [newThread_mem]
    obtain ⟨-, he⟩ | ⟨-, hv'⟩ := hof v s hv
    · rw [he, load64_store64]
    · rw [← h.returns v s hv']
      have hs := stackPointer_toNat (hrooms v s hv)
      have ht := stackPointer_toNat hroom
      have hlt := hapart v s hv'
      refine load64_congr fun x h1 h2 => store64_of_notMem ?_
      rw [hs] at h1 h2
      rw [ht]
      omega
  · obtain ⟨hvu, he⟩ | ⟨-, hv'⟩ := hof v s hv
    · obtain ⟨hwu, -⟩ | ⟨-, hw'⟩ := hof w t hw
      · exact absurd (hvu.trans hwu.symm) hvw
      · rw [he]
        exact hapart w t hw'
    · obtain ⟨-, he⟩ | ⟨-, hw'⟩ := hof w t hw
      · rw [he]
        exact (hapart v s hv').symm
      · exact h.apart v w s t hv' hw' hvw
  · rw [newThread_regs] at hv
    rw [newThread_stack]
    by_cases hvu : v = u
    · rw [hvu, Function.update_self, Option.some.injEq] at hv
      refine ⟨stack, by rw [hvu, Function.update_self], ?_⟩
      rw [← hv]
      exact ptrDemangle_ptrMangle _ _
    · rw [Function.update_of_ne hvu] at hv ⊢
      split at hv
      · by_cases hvm : v = mainTid
        · rw [hvm, Function.update_self, Option.some.injEq] at hv
          rw [← hv] at hpc
          exact absurd ((ptrDemangle_ptrMangle k.guard k.afterFirst).symm.trans hpc) k.first_ne
        · rw [Function.update_of_ne hvm] at hv
          exact h.fresh v buf hv hpc
      · exact h.fresh v buf hv hpc

theorem Saved.newThread (h : Saved p) (k : Code) (u : Tid) (startRoutine arg stack : Word) :
    Saved (p.newThread k u startRoutine arg stack) := by
  intro v hv
  unfold Process.newThread at hv ⊢
  unfold Library.newThread at hv
  dsimp only at hv ⊢
  by_cases hvu : v = u
  · rw [hvu, Function.update_self]
    exact Option.some_ne_none _
  · rw [Function.update_of_ne hvu] at hv ⊢
    unfold Library.entered at hv
    split at hv
    · next hfirst =>
        rw [if_pos hfirst]
        by_cases hvm : v = mainTid
        · rw [hvm, Function.update_self]
          exact Option.some_ne_none _
        · rw [Function.update_of_ne hvm]
          unfold Library.schedulerInit at hv
          dsimp only at hv
          rw [Function.update_of_ne hvm] at hv
          exact h v hv
    · next hfirst =>
        rw [if_neg hfirst]
        exact h v hv

theorem thread_newRegs (k : Code) (c : Cpu) (startRoutine arg stack : Word) :
    thread k (newRegs k c startRoutine arg stack) = .created startRoutine arg (stackPointer stack) := by
  have hm := ptrDemangle_ptrMangle k.guard
  have hpc : newRegs k c startRoutine arg stack jbPc = ptrMangle k.guard k.startThunk := rfl
  have hsp : newRegs k c startRoutine arg stack jbRsp = ptrMangle k.guard (stackPointer stack) := rfl
  unfold thread
  rw [hpc, hm, if_pos rfl, hsp, hm]
  rfl

/-- The thread that pthread_create makes waits with the others. -/
theorem machine_newThread (h : Alive p.lib) {startRoutine arg stack : Word} (hne : u ≠ p.lib.tid) :
    (p.newThread k u startRoutine arg stack).machine k = (p.machine k).add k u startRoutine arg stack := by
  have hwait : ((p.newThread k u startRoutine arg stack).machine k).waiting =
      Function.update (p.machine k).waiting u (some (.created startRoutine arg (stackPointer stack))) := by
    funext v
    by_cases hvt : v = p.lib.tid
    · rw [Function.update_of_ne (by rw [hvt]; exact hne.symm)]
      have hvt' := hvt.trans (newThread_tid k p u startRoutine arg stack).symm
      exact (if_neg fun hx => hx.1 hvt').trans (if_neg fun hx => hx.1 hvt).symm
    rw [machine_waiting_of_ne (by rw [newThread_tid]; exact hvt)]
    by_cases hvu : v = u
    · have hready : (p.newThread k u startRoutine arg stack).lib.status v = .ready := by
        rw [newThread_status, hvu, Function.update_self]
      rw [if_pos hready, newThread_regs, hvu, Function.update_self, Function.update_self, Option.map_some,
        thread_newRegs]
    · rw [Function.update_of_ne hvu, machine_waiting_of_ne hvt]
      have hold : (p.newThread k u startRoutine arg stack).lib.status v = p.lib.entered.status v := by
        rw [newThread_status, Function.update_of_ne hvu]
      obtain hb | ⟨n, hr⟩ := h
      · have hempty : p.lib.entered.status v = .empty := by
          rw [hb] at hvt ⊢
          show Function.update (fun _ => Status.empty) mainTid .ready v = .empty
          exact Function.update_of_ne hvt _ _
        have hexited : p.lib.status v = .exited := by
          rw [hb]
          rfl
        rw [if_neg (by rw [hold, hempty]; decide), if_neg (by rw [hexited]; decide)]
      · rw [hold, hr.entered, newThread_regs, Function.update_of_ne hvu, hr.inv.started,
          if_neg (show ¬ (false = true) by decide)]
  unfold Machine.add
  rw [← hwait]
  obtain ⟨htid, hended⟩ := entered_tid p.lib
  unfold machine Process.newThread Library.newThread
  dsimp only
  rw [htid, hended]

theorem Stacks.pthreadCreate (h : Stacks k p) (hs : Saved p) (hl : Alive p.lib) {startRoutine arg stack : Word}
    (ha : p.Allowed (.create startRoutine arg stack)) {id : Nat} (hlib : p.lib.pthreadCreate = some (id, lib)) :
    ∃ p', p.pthreadCreate k startRoutine arg stack = some (id, p') ∧ p'.lib = lib ∧ Stacks k p' ∧ Saved p' ∧
      Machine.Step k (p.machine k) (.create startRoutine arg stack, some (.created id)) (p'.machine k) := by
  unfold Library.pthreadCreate at hlib
  cases hslot : Library.emptySlot p.lib.entered.status maxThreads 1 with
  | none =>
      rw [hslot] at hlib
      cases hlib
  | some u =>
      rw [hslot] at hlib
      obtain ⟨lib', hlib', he⟩ := Option.map_eq_some_iff.mp hlib
      obtain ⟨rfl, rfl⟩ := Prod.mk.inj he
      obtain ⟨-, hempty, -⟩ := Library.emptySlot_eq_some hslot
      obtain ⟨htid, -⟩ := entered_tid p.lib
      have hcur := hl.entered
      have hne : u ≠ p.lib.tid := by
        rintro rfl
        rw [htid, hempty] at hcur
        obtain hc | hc := hcur
        all_goals cases hc
      have hstatus : (p.newThread k u startRoutine arg stack).lib.status
          (p.newThread k u startRoutine arg stack).lib.tid = p.lib.entered.status p.lib.entered.tid := by
        rw [newThread_tid, newThread_status, Function.update_of_ne hne.symm, htid]
      obtain ⟨p', hrun, hlib₁, hst, hsaved, hswitch⟩ := (h.newThread (u := u) ha).schedule
        (hs.newThread k u startRoutine arg stack)
        (by rw [hstatus]; exact hcur.elim .inl fun hx => .inr (.inl hx)) hlib'
      refine ⟨p', ?_, hlib₁, hst, hsaved, .create hne ?_ ?_⟩
      · unfold Process.pthreadCreate
        rw [hslot]
        dsimp only
        rw [hrun]
        rfl
      · rw [machine_waiting_of_ne hne, if_neg]
        obtain hb | ⟨n, hr⟩ := hl
        · rw [show p.lib.status u = .exited by rw [hb]; rfl]
          decide
        · rw [hr.entered] at hempty
          rw [hempty]
          decide
      · have hoff : (p.newThread k u startRoutine arg stack).offered k =
            ((p.machine k).add k u startRoutine arg stack).pause k := by
          unfold offered
          rw [hstatus, if_neg, machine_newThread hl hne]
          obtain hc | hc := hcur
          all_goals rw [hc]; decide
        rwa [hoff] at hswitch

/-! ## pthread_exit -/

/-- The table with the current thread marked as exited. -/
def exited (s : Library) : Library := { s with status := Function.update s.status s.tid .exited }

theorem pthreadExit_lib {s : Library} (h : s.tcbTid s.tid = s.tid.val) : s.pthreadExit =
    if (List.finRange 128).any fun i => Library.Left ((exited s).status i) then
      (exited s).schedule.map fun s => (false, s)
    else some (true, { exited s with ended := true }) := by
  unfold Library.pthreadExit
  rw [dif_pos (by rw [h]; exact s.tid.isLt)]
  simp only [h, ne_eq, not_true, if_false]
  rfl

/-- A thread that exits does not wait, and the others are as they were. -/
theorem machine_exited (k : Code) (p : Process) :
    machine k { p with lib := exited p.lib } = p.machine k := by
  have hwait : (machine k { p with lib := exited p.lib }).waiting = (p.machine k).waiting := by
    funext v
    by_cases hvt : v = p.lib.tid
    · exact (if_neg fun hx => hx.1 hvt).trans (if_neg fun hx => hx.1 hvt).symm
    · have hold : (exited p.lib).status v = p.lib.status v := Function.update_of_ne hvt _ _
      rw [machine_waiting_of_ne (p := { p with lib := exited p.lib }) hvt, machine_waiting_of_ne hvt]
      dsimp only
      rw [hold]
  calc machine k { p with lib := exited p.lib }
      = { p.machine k with waiting := (machine k { p with lib := exited p.lib }).waiting } := rfl
    _ = p.machine k := by rw [hwait]

theorem Stacks.pthreadExit (h : Stacks k p) (hs : Saved p) (hl : Alive p.lib) {i : Input} (hi : i = .exit ∨ i = .ret)
    (hlast : p.NotLast) {ends : Bool} (hlib : p.lib.pthreadExit = some (ends, lib)) :
    ∃ r p', p.pthreadExit k = some (r, p') ∧ r = (if ends then .processExit else .switched) ∧ p'.lib = lib ∧
      Stacks k p' ∧ Saved p' ∧ Machine.Step k (p.machine k) (i, some r) (p'.machine k) := by
  have hlib' := hlib
  rw [pthreadExit_lib hl.own] at hlib'
  have hself : (exited p.lib).status (exited p.lib).tid = .exited := Function.update_self _ _ _
  split at hlib'
  · obtain ⟨lib', hsched, he⟩ := Option.map_eq_some_iff.mp hlib'
    obtain ⟨rfl, rfl⟩ := Prod.mk.inj he
    have hst : Stacks k { p with lib := exited p.lib } := ⟨h.returns, h.room, h.apart, h.fresh⟩
    obtain ⟨p', hrun, hlib₁, hst', hsaved, hswitch⟩ := hst.schedule hs (.inr (.inr hself)) hsched
    have hoff : offered k { p with lib := exited p.lib } = p.machine k := by
      unfold offered
      rw [if_pos hself, machine_exited]
    rw [hoff] at hswitch
    refine ⟨.switched, p', ?_, rfl, hlib₁, hst', hsaved, .leave hi hswitch⟩
    have hresume : p.resume k lib' = some p' := by
      unfold Process.schedule at hrun
      dsimp only at hrun
      have hpre : preempt (exited p.lib).status (exited p.lib).tid (exited p.lib).tid = .exited := by
        rw [preempt_not_running (by rw [hself]; decide), hself]
      rw [hsched] at hrun
      dsimp only at hrun
      rw [if_pos hpre] at hrun
      exact hrun
    unfold Process.pthreadExit
    rw [hlib]
    dsimp only
    rw [hresume]
    rfl
  · next hleft =>
    rw [Option.some.injEq, Prod.mk.injEq] at hlib'
    obtain ⟨rfl, rfl⟩ := hlib'
    have hnone : ∀ v, (p.machine k).waiting v = none := by
      intro v
      by_cases hvt : v = p.lib.tid
      · exact if_neg fun hx => hx.1 hvt
      · rw [machine_waiting_of_ne hvt, if_neg]
        intro hready
        refine hleft (List.any_eq_true.mpr ⟨v, List.mem_finRange v, ?_⟩)
        have hold : (exited p.lib).status v = p.lib.status v := Function.update_of_ne hvt _ _
        rw [hold, hready]
        rfl
    refine ⟨.processExit, { p with lib := { exited p.lib with ended := true } }, ?_, rfl, rfl,
      ⟨h.returns, h.room, h.apart, h.fresh⟩, hs, ?_⟩
    · have hmain : p.lib.tid = mainTid := by
        refine hlast.resolve_right fun hready => ?_
        obtain ⟨u, hne, hu⟩ := hready
        refine hleft (List.any_eq_true.mpr ⟨u, List.mem_finRange u, ?_⟩)
        have hold : (exited p.lib).status u = p.lib.status u := Function.update_of_ne hne _ _
        rw [hold, hu]
        rfl
      unfold Process.pthreadExit
      rw [hlib]
      exact if_pos hmain
    · have hm : machine k { p with lib := { exited p.lib with ended := true } } =
          { p.machine k with ended := true } := by
        rw [← machine_exited k p]
        rfl
      rw [hm]
      exact .last hi hnone

/-! ## Steps and runs -/

/-- What the proof carries along a run. -/
structure Held (k : Code) (p : Process) : Prop where
  lib : p.lib.ended = false → Alive p.lib
  memory : Stacks k p
  saved : Saved p

/-- The call of the library behind an input. -/
def Input.call : Input → Option Library.Input
  | .run _ _ => none
  | .create _ _ _ => some .create
  | .timer => some .timer
  | .exit | .ret => some .exit

theorem Alive.step (h : Alive lib) {i : Library.Input} {r : Library.Ret} {lib' : Library}
    (hs : lib.step i = some (r, lib')) (hlive : lib'.ended = false) : Alive lib' := by
  obtain rfl | ⟨n, hr⟩ := h
  · obtain ⟨-, hend⟩ | ⟨-, hruns⟩ := Library.boot_step hs
    · rw [hend] at hlive
      cases hlive
    · exact .inr ⟨1, hruns⟩
  · obtain ⟨-, ⟨-, hend⟩ | ⟨-, hruns⟩ | ⟨-, hruns⟩⟩ := hr.step hs
    · rw [hend] at hlive
      cases hlive
    · exact .inr ⟨n, hruns⟩
    · exact .inr ⟨n + 1, hruns⟩

/-- The process does what the library does, and what the machine does. -/
theorem Held.follows (h : Held k p) {i : Input} (ha : p.Allowed i) {c : Library.Input} (hc : i.call = some c)
    {r : Library.Ret} (hlib : p.lib.step c = some (r, lib)) : ∃ p', p.step k i = some (some r, p') ∧
      p'.lib = lib ∧ Stacks k p' ∧ Saved p' ∧ Machine.Step k (p.machine k) (i, some r) (p'.machine k) := by
  have hlive : p.lib.ended = false := by
    cases he : p.lib.ended with
    | false => rfl
    | true =>
        unfold Library.step at hlib
        rw [he] at hlib
        cases hlib
  have hl := h.lib hlive
  unfold Library.step at hlib
  rw [hlive, if_neg (by decide)] at hlib
  have exits : i = .exit ∨ i = .ret → p.NotLast → c = .exit → ∃ p', (p.pthreadExit k).map (fun q => (some q.1, q.2)) =
      some (some r, p') ∧ p'.lib = lib ∧ Stacks k p' ∧ Saved p' ∧
      Machine.Step k (p.machine k) (i, some r) (p'.machine k) := by
    rintro hi hlast rfl
    obtain ⟨⟨ends, lib'⟩, hx, he⟩ := Option.map_eq_some_iff.mp hlib
    obtain ⟨hr, rfl⟩ := Prod.mk.inj he
    obtain ⟨r', p', hrun, hr', hrest⟩ := h.memory.pthreadExit h.saved hl hi hlast hx
    obtain rfl : r' = r := hr'.trans hr
    exact ⟨p', by rw [hrun]; rfl, hrest⟩
  unfold Process.step
  rw [hlive, if_neg (by decide)]
  cases i with
  | run cpu mem => cases hc
  | create startRoutine arg stack =>
      cases hc
      obtain ⟨⟨id, lib'⟩, hx, he⟩ := Option.map_eq_some_iff.mp hlib
      obtain ⟨rfl, rfl⟩ := Prod.mk.inj he
      obtain ⟨p', hrun, hrest⟩ := h.memory.pthreadCreate h.saved hl ha hx
      exact ⟨p', by dsimp only; rw [hrun]; rfl, hrest⟩
  | timer =>
      cases hc
      dsimp only at hlib ⊢
      split at hlib
      · cases hlib
      next hfirst =>
      obtain ⟨lib', hx, he⟩ := Option.map_eq_some_iff.mp hlib
      obtain ⟨rfl, rfl⟩ := Prod.mk.inj he
      have hrunning : p.lib.status p.lib.tid = .running := by
        obtain hb | ⟨n, hr⟩ := hl
        · rw [hb] at hfirst
          exact absurd rfl hfirst
        · exact hr.running
      obtain ⟨p', hrun, hlib₁, hst, hsaved, hswitch⟩ := h.memory.schedule h.saved (.inl hrunning) hx
      refine ⟨p', ?_, hlib₁, hst, hsaved, .timer ?_⟩
      · rw [if_neg hfirst, hrun]
        rfl
      · unfold offered at hswitch
        rwa [if_neg (by rw [hrunning]; decide)] at hswitch
  | exit =>
      cases hc
      exact exits (.inl rfl) ha rfl
  | ret =>
      cases hc
      obtain ⟨hlast, stack, hstack, hsp⟩ := ha
      dsimp only
      rw [if_pos (by rw [hsp]; exact h.memory.returns _ _ hstack)]
      exact exits (.inr rfl) hlast rfl

theorem schedule_some (h : p.schedule k = some p') : ∃ lib, p.lib.schedule = some lib := by
  unfold Process.schedule at h
  cases hx : p.lib.schedule with
  | none =>
      rw [hx] at h
      cases h
  | some lib => exact ⟨lib, rfl⟩

theorem pthreadExit_some {r : Library.Ret} (h : p.pthreadExit k = some (r, p')) :
    ∃ q, p.lib.pthreadExit = some q := by
  unfold Process.pthreadExit at h
  cases hx : p.lib.pthreadExit with
  | none =>
      rw [hx] at h
      cases h
  | some q => exact ⟨q, rfl⟩

/-- Where the process gives an answer the library gives one. -/
theorem step_lib {i : Input} {c : Library.Input} (hc : i.call = some c) {r : Option Library.Ret}
    (hs : p.step k i = some (r, p')) : ∃ r' lib, p.lib.step c = some (r', lib) := by
  unfold Process.step at hs
  unfold Library.step
  split at hs
  · cases hs
  next hlive =>
  rw [if_neg hlive]
  cases i with
  | run cpu mem => cases hc
  | create startRoutine arg stack =>
      cases hc
      obtain ⟨⟨id, q⟩, hx, -⟩ := Option.map_eq_some_iff.mp hs
      unfold Process.pthreadCreate at hx
      unfold Library.pthreadCreate
      cases hslot : Library.emptySlot p.lib.entered.status maxThreads 1 with
      | none =>
          rw [hslot] at hx
          cases hx
      | some u =>
          rw [hslot] at hx
          obtain ⟨q', hq, -⟩ := Option.map_eq_some_iff.mp hx
          obtain ⟨lib, hlib⟩ := schedule_some hq
          have hlib' : (p.lib.entered.newThread u).schedule = some lib := hlib
          dsimp only
          rw [hlib']
          exact ⟨_, _, rfl⟩
  | timer =>
      cases hc
      dsimp only at hs ⊢
      split at hs
      · cases hs
      next hfirst =>
      obtain ⟨q, hq, -⟩ := Option.map_eq_some_iff.mp hs
      obtain ⟨lib, hlib⟩ := schedule_some hq
      rw [if_neg hfirst, hlib]
      exact ⟨_, _, rfl⟩
  | exit =>
      cases hc
      obtain ⟨q, hq, -⟩ := Option.map_eq_some_iff.mp hs
      obtain ⟨q', hlib⟩ := pthreadExit_some hq
      dsimp only
      rw [hlib]
      exact ⟨_, _, rfl⟩
  | ret =>
      cases hc
      dsimp only at hs
      split at hs
      · obtain ⟨q, hq, -⟩ := Option.map_eq_some_iff.mp hs
        obtain ⟨q', hlib⟩ := pthreadExit_some hq
        dsimp only
        rw [hlib]
        exact ⟨_, _, rfl⟩
      · cases hs

theorem Held.step (h : Held k p) {i : Input} (ha : p.Allowed i) {r : Option Library.Ret}
    (hs : p.step k i = some (r, p')) : Held k p' ∧ Machine.Step k (p.machine k) (i, r) (p'.machine k) := by
  cases hc : i.call with
  | none =>
      cases i with
      | run cpu mem =>
          unfold Process.step at hs
          split at hs
          · cases hs
          cases hs
          refine ⟨⟨h.lib, ⟨fun u stack hu => ?_, h.memory.room, h.memory.apart, h.memory.fresh⟩, h.saved⟩, .run⟩
          exact (ha u stack hu).trans (h.memory.returns u stack hu)
      | _ => cases hc
  | some c =>
      obtain ⟨r', lib, hlib⟩ := step_lib hc hs
      obtain ⟨p₁, hrun, hlib₁, hst, hsaved, hstep⟩ := h.follows ha hc hlib
      rw [hrun, Option.some.injEq, Prod.mk.injEq] at hs
      obtain ⟨rfl, rfl⟩ := hs
      refine ⟨⟨fun hlive => ?_, hst, hsaved⟩, hstep⟩
      have hlive₀ : p.lib.ended = false := by
        cases he : p.lib.ended with
        | false => rfl
        | true =>
            unfold Library.step at hlib
            rw [he] at hlib
            cases hlib
      rw [hlib₁] at hlive ⊢
      exact (h.lib hlive₀).step hlib hlive

end Process

end EC440.Threads
