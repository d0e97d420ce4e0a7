/-
  pthread_barrier_wait of threads.c with context switches at schedule() calls only, which pick
  threads round-robin. What a thread does between two calls of schedule() is one step.

  `left` goes down with every arrival. The last arrival of a round releases the blocked thread,
  which is the one that sets `left` back to `count`, on its return. The last arrival itself may
  return before that: when it calls pthread_barrier_wait again at once, `left` wraps below zero.
-/
import EC440.Lib.Run
import EC440.Lib.Count
import EC440.Threads.Scheduler
import Mathlib.Data.Finset.Card

namespace EC440.Threads

open EC440.Lib

/-- Where a thread goes on when it is switched in: in user code, or after one of the three calls
    of schedule() in pthread_barrier_wait. -/
inductive BarrierPc
  | user
  | inIf
  | inWhile
  | inLast
  deriving DecidableEq, Repr

/-- PTHREAD_BARRIER_SERIAL_THREAD -/
def serialThread : Int := -1

/-- The thread table, the fields of the barrier and the threads' program counters. `entered` and
    `results` are history variables that no statement reads: how often each thread has called
    pthread_barrier_wait, and what its calls have returned. -/
structure Barrier where
  status : Tid → Status
  tid : Tid
  pc : Tid → BarrierPc
  flag : Nat
  callingThread : Option Tid
  count : UInt32
  left : UInt32
  entered : Tid → Nat
  results : Tid → List Int

namespace Barrier

/-- schedule(); `none` when its search does not end. -/
def schedule (pc : BarrierPc) (s : Barrier) : Option Barrier :=
  (pick s.status s.tid).map fun u =>
    { s with pc := Function.update s.pc s.tid pc, status := switched s.status s.tid u, tid := u }

/-- From the while loop to the last schedule(). `callingThread` is set when the flag is. -/
def waitLoop (s : Barrier) : Option Barrier :=
  if s.left ≠ 0 then s.schedule .inWhile
  else if s.flag = 1 then
    s.callingThread.bind fun c =>
      { s with flag := 0, status := Function.update s.status c .ready }.schedule .inLast
  else s.schedule .inLast

/-- pthread_barrier_wait up to its first schedule(). -/
def barrierWait (s : Barrier) : Option Barrier :=
  let s := { s with left := s.left - 1, entered := Function.update s.entered s.tid (s.entered s.tid + 1) }
  if s.flag ≠ 1 then
    { s with
      status := Function.update s.status s.tid .blocked
      callingThread := some s.tid
      flag := 1 }.schedule .inIf
  else s.waitLoop

/-- A return from pthread_barrier_wait. -/
def returns (value : Int) (s : Barrier) : Barrier :=
  { s with
    pc := Function.update s.pc s.tid .user
    results := Function.update s.results s.tid (s.results s.tid ++ [value]) }

/-- After the last schedule(). -/
def barrierReturn (s : Barrier) : Barrier :=
  if s.callingThread = some s.tid then { s with left := s.count }.returns serialThread else s.returns 0

end Barrier

/-- What the running thread does next: call pthread_barrier_wait, go on in it, create a thread or
    give way in another library call, or exit. -/
inductive BarrierInput
  | wait
  | resume
  | create (u : Tid)
  | yield
  | exit
  deriving DecidableEq, Repr

def Barrier.step (s : Barrier) : BarrierInput → Option (Unit × Barrier)
  | .wait => if s.pc s.tid = .user then s.barrierWait.map fun s => ((), s) else none
  | .resume =>
      match s.pc s.tid with
      | .user => none
      | .inIf => s.waitLoop.map fun s => ((), s)
      | .inWhile => s.waitLoop.map fun s => ((), s)
      | .inLast => some ((), s.barrierReturn)
  | .create u =>
      if s.pc s.tid = .user ∧ s.status u = .empty then
        ({ s with status := Function.update s.status u .ready }.schedule .user).map fun s => ((), s)
      else none
  | .yield => if s.pc s.tid = .user then (s.schedule .user).map fun s => ((), s) else none
  | .exit =>
      if s.pc s.tid = .user then
        ({ s with status := Function.update s.status s.tid .exited }.schedule .user).map fun s => ((), s)
      else none

/-- A barrier initialised for the threads `P`, before any of them has called it. -/
structure Barrier.Initial (P : Finset Tid) (s : Barrier) : Prop where
  count : P.card = s.count.toNat
  two : 2 ≤ P.card
  left : s.left = s.count
  flag : s.flag = 0
  callingThread : s.callingThread = none
  pc : ∀ t, s.pc t = .user
  entered : ∀ t, s.entered t = 0
  results : ∀ t, s.results t = []
  running : s.status s.tid = .running
  others : ∀ t, t ≠ s.tid → s.status t ≠ .running

/-- Only the threads of `P` call pthread_barrier_wait. -/
def ByParticipants (P : Finset Tid) (s : Barrier) : BarrierInput → Prop
  | .wait => s.tid ∈ P
  | _ => True

/-- Rounds are numbered from 0. No thread returns from a round before all have entered it, at most
    one return of a round is PTHREAD_BARRIER_SERIAL_THREAD and the others are 0, one is when all
    have returned, and `left` has not wrapped. -/
structure RoundsOk (P : Finset Tid) (s : Barrier) : Prop where
  order : ∀ t ∈ P, ∀ k, k < (s.results t).length → ∀ u ∈ P, k < s.entered u
  values : ∀ t ∈ P, ∀ (k : Nat) (v : Int), (s.results t)[k]? = some v → v = serialThread ∨ v = 0
  unique : ∀ t ∈ P, ∀ u ∈ P, ∀ k : Nat, (s.results t)[k]? = some serialThread →
    (s.results u)[k]? = some serialThread → t = u
  serial : ∀ k, (∀ t ∈ P, k < (s.results t).length) → ∃ t ∈ P, (s.results t)[k]? = some serialThread
  left : s.left.toNat ≤ s.count.toNat

/-- No thread calls pthread_barrier_wait while the thread that was released from the last round is
    still inside its call. -/
def AfterRelease (s : Barrier) : BarrierInput → Prop
  | .wait => s.flag = 1 ∨ ∀ c, s.callingThread = some c → s.pc c = .user
  | _ => True

end EC440.Threads
