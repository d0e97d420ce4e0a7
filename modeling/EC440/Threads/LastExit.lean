/-
  pthread_exit of the threading library statement by statement, with the timer's signal delivered
  before any of them. The handler is schedule(); a thread that is marked as exited is not saved by
  it and does not come back.

  The last thread of the process is marked before pthread_exit has found that no thread is left. A
  signal in between finds no slot to switch to: the search of schedule() never ends. And the stacks
  that pthread_exit frees before exit(0) are those of all threads that have exited, so that a last
  thread other than main frees the stack it runs on.
-/
import EC440.Threads.Library

namespace EC440.Threads

open EC440.Lib

/-- The points of pthread_exit: the one before each of its statements. -/
inductive ExitPoint
  | mark
  | readTid
  | testTid
  | wake
  | clearLeft
  | look (i : Tid)
  | setLeft (i : Tid)
  | testLeft
  | leave
  | lookExited (i : Tid)
  | freeStack (i : Tid)
  | exit
  deriving DecidableEq, Repr

/-- How a call ends without exit(0): the search of schedule() does not end, entered in the given
    state; another thread is switched to; or C gives no result. -/
inductive Halt
  | hangs (s : Library)
  | away (s : Library)
  | undefined

namespace Library

/-- A call of schedule(), with the two ways in which it gives no result told apart. -/
def scheduleCall (s : Library) : Except Halt Library :=
  if pick s.status s.tid = none then .error (.hangs s)
  else match s.schedule with
    | none => .error .undefined
    | some s' => .ok s'

/-- The signal handler. A thread that is switched back to goes on. -/
def alarm (s : Library) : Except Halt Library := do
  let s' ← s.scheduleCall
  if s'.tid = s.tid then .ok s' else .error (.away s')

/-- `n` signals one after the other. -/
def deliver : Nat → Library → Except Halt Library
  | 0, s => .ok s
  | n + 1, s => do
      let s ← s.alarm
      deliver n s

/-- `TCB_Table[TID].status = TS_EXITED` -/
def marked (s : Library) : Library := { s with status := Function.update s.status s.tid .exited }

/-- `pthread_t tid = TCB_Table[TID].tid` and the test of it. -/
def wakeOther (d : ExitPoint → Nat) (s : Library) : Except Halt Library := do
  let s ← deliver (d .readTid) s
  let tid := s.tcbTid s.tid
  let s ← deliver (d .testTid) s
  if tid ≠ s.tid.val then
    let s ← deliver (d .wake) s
    if h : tid < 128 then .ok { s with status := Function.update s.status ⟨tid, h⟩ .ready } else .error .undefined
  else .ok s

/-- The loop that looks for threads that are left. -/
def countLeft (d : ExitPoint → Nat) : List Tid → Library × Bool → Except Halt (Library × Bool)
  | [], p => .ok p
  | i :: is, p => do
      let s ← deliver (d (.look i)) p.1
      if Left (s.status i) then
        let s ← deliver (d (.setLeft i)) s
        countLeft d is (s, true)
      else countLeft d is (s, p.2)

/-- `free(TCB_Table[i].stack)`. The stack of the main thread is NULL; without the stack it runs on the
    call has no result. The other stacks are not used any more. -/
def freeStack (i : Tid) (s : Library) : Except Halt Library :=
  if i = s.tid ∧ i ≠ mainTid then .error .undefined else .ok s

/-- The loop that frees the stacks. -/
def freeStacks (d : ExitPoint → Nat) : List Tid → Library → Except Halt Library
  | [], s => .ok s
  | i :: is, s => do
      let s ← deliver (d (.lookExited i)) s
      if s.status i = .exited then
        let s ← deliver (d (.freeStack i)) s
        let s ← s.freeStack i
        freeStacks d is s
      else freeStacks d is s

/-- `if(threads_left) schedule();`, made by a thread that has exited. -/
def leave (d : ExitPoint → Nat) (threadsLeft : Bool) (s : Library) : Except Halt Library := do
  let s ← deliver (d .testLeft) s
  if threadsLeft then
    let s ← deliver (d .leave) s
    let s' ← s.scheduleCall
    .error (.away s')
  else .ok s

/-- pthread_exit from `threads_left = 0` on. -/
def leaveOrExit (d : ExitPoint → Nat) (s : Library) : Except Halt Library := do
  let s ← deliver (d .clearLeft) s
  let p ← countLeft d (List.finRange 128) (s, false)
  let s ← leave d p.2 p.1
  let s ← freeStacks d (List.finRange 128) s
  let s ← deliver (d .exit) s
  .ok { s with ended := true }

/-- pthread_exit with `d p` signals delivered at the point `p`; a result is exit(0). -/
def pthreadExitWith (d : ExitPoint → Nat) (s : Library) : Except Halt Library := do
  let s ← deliver (d .mark) s
  let s ← wakeOther d s.marked
  leaveOrExit d s

variable {s s' : Library} {d : ExitPoint → Nat} {n : Nat}

/-! ## Before the mark -/

/-- The current thread is the only one that has not exited. -/
structure LastThread (s : Library) : Prop where
  current : Left (s.status s.tid) = true
  others : ∀ u, u ≠ s.tid → Left (s.status u) = false

/-- `s'` differs from `s` at most in the saved registers. -/
structure SameTable (s s' : Library) : Prop where
  status : s'.status = s.status
  tid : s'.tid = s.tid
  tcbTid : s'.tcbTid = s.tcbTid

theorem LastThread.of_same (h : LastThread s) (hsame : SameTable s s') : LastThread s' := by
  refine ⟨?_, ?_⟩
  · rw [hsame.status, hsame.tid]
    exact h.current
  · rw [hsame.status, hsame.tid]
    exact h.others

theorem left_of_ready {st : Status} (h : st = .ready) : Left st = true := by rw [h]; rfl

/-- schedule() goes all round the table and comes back to the last thread. -/
theorem LastThread.pick_self (h : LastThread s) (hrun : s.status s.tid = .running) :
    pick s.status s.tid = some s.tid := by
  obtain ⟨u, hu⟩ := pick_returns (preempt_self hrun)
  obtain rfl : u = s.tid := by
    by_contra hut
    have hready := preempt_ready_of_ne (pick_ready hu) hut
    have hleft := h.others u hut
    rw [left_of_ready hready] at hleft
    cases hleft
  exact hu

theorem switched_same {status : Tid → Status} {t : Tid} (h : status t = .running) :
    switched status t t = status := by
  unfold switched preempt
  rw [if_pos h, Function.update_idem, ← h, Function.update_eq_self]

theorem LastThread.alarm (h : LastThread s) (hrun : s.status s.tid = .running) :
    ∃ s', s.alarm = .ok s' ∧ SameTable s s' := by
  have hpick := h.pick_self hrun
  have hsaved : preempt s.status s.tid s.tid ≠ .exited := by
    rw [preempt_self hrun]
    simp
  have hsched : s.schedule = some { s with
      status := switched s.status s.tid s.tid, regs := Function.update s.regs s.tid (some .schedule) } := by
    unfold Library.schedule
    rw [hpick]
    dsimp only
    rw [if_neg hsaved, if_neg (by rw [Function.update_self]; simp)]
  rw [switched_same hrun] at hsched
  refine ⟨{ s with regs := Function.update s.regs s.tid (some .schedule) }, ?_, rfl, rfl, rfl⟩
  unfold Library.alarm scheduleCall
  rw [hpick, hsched, if_neg (by simp)]
  exact if_pos rfl

theorem LastThread.deliver (h : LastThread s) (hrun : s.status s.tid = .running) (n : Nat) :
    ∃ s', Library.deliver n s = .ok s' ∧ SameTable s s' := by
  induction n generalizing s with
  | zero => exact ⟨s, rfl, rfl, rfl, rfl⟩
  | succ n ih =>
    obtain ⟨t, ht, hsame⟩ := h.alarm hrun
    obtain ⟨s', hs', hsame'⟩ := ih (h.of_same hsame) (by rw [hsame.status, hsame.tid]; exact hrun)
    refine ⟨s', ?_, ?_⟩
    · rw [Library.deliver, ht]
      exact hs'
    · exact ⟨hsame'.status.trans hsame.status, hsame'.tid.trans hsame.tid, hsame'.tcbTid.trans hsame.tcbTid⟩

/-! ## After the mark -/

/-- Every thread has exited. -/
def AllExited (s : Library) : Prop := ∀ u, Left (s.status u) = false

/-- schedule() entered in such a state does not end. -/
structure Stuck (s : Library) : Prop where
  ready : ∀ u, s.status u ≠ .ready
  running : s.status s.tid ≠ .running

theorem AllExited.stuck (h : AllExited s) : Stuck s := by
  refine ⟨fun u hu => ?_, fun hrun => ?_⟩
  · have hleft := h u
    rw [hu] at hleft
    cases hleft
  · have hleft := h s.tid
    rw [hrun] at hleft
    cases hleft

theorem Stuck.pick_eq_none (h : Stuck s) : pick s.status s.tid = none := by
  cases hp : pick s.status s.tid with
  | none => rfl
  | some u =>
    have hready := pick_ready hp
    rw [preempt_not_running h.running] at hready
    exact absurd hready (h.ready u)

/-- The call goes on with `x` if `c` holds; else it hangs in `s`. -/
def gate {α : Type} (c : Prop) [Decidable c] (s : Library) (x : Except Halt α) : Except Halt α :=
  if c then x else .error (.hangs s)

theorem gate_bind {α β : Type} {c e : Prop} [Decidable c] [Decidable e] {a : α} {x : Except Halt β}
    {f : α → Except Halt β} (hf : f a = gate e s x) : (gate c s (.ok a) >>= f) = gate (c ∧ e) s x := by
  unfold gate at hf ⊢
  by_cases hc : c
  · rw [if_pos hc]
    refine hf.trans (if_congr ?_ rfl rfl)
    rw [and_iff_right hc]
  · rw [if_neg hc, if_neg fun h => hc h.1]
    rfl

theorem gate_congr {α : Type} {c e : Prop} [Decidable c] [Decidable e] {x : Except Halt α} (h : c ↔ e) :
    gate c s x = gate e s x := by
  unfold gate
  exact if_congr h rfl rfl

theorem AllExited.deliver (h : AllExited s) (n : Nat) : deliver n s = gate (n = 0) s (.ok s) := by
  cases n with
  | zero => rfl
  | succ n =>
    unfold Library.deliver Library.alarm scheduleCall
    rw [if_pos h.stuck.pick_eq_none]
    rfl

theorem AllExited.wakeOther (h : AllExited s) (hown : s.tcbTid s.tid = s.tid.val) :
    wakeOther d s = gate (d .readTid = 0 ∧ d .testTid = 0 ∧ True) s (.ok s) := by
  unfold Library.wakeOther
  rw [h.deliver]
  apply gate_bind
  rw [h.deliver]
  apply gate_bind
  rw [if_neg (not_not.mpr hown)]
  rfl

-- The tests of a list of slots are decided one after the other, as the loops make them.
local instance (p : Tid → Prop) [DecidablePred p] (is : List Tid) : Decidable (∀ i ∈ is, p i) := List.decidableBAll p is

theorem AllExited.countLeft (h : AllExited s) (is : List Tid) :
    countLeft d is (s, false) = gate (∀ i ∈ is, d (.look i) = 0) s (.ok (s, false)) := by
  induction is with
  | nil => rfl
  | cons i is ih =>
    unfold Library.countLeft
    rw [h.deliver]
    refine (gate_bind (e := ∀ i ∈ is, d (.look i) = 0) (x := .ok (s, false)) ?_).trans (gate_congr ?_)
    · rw [h i]
      exact ih
    · rw [List.forall_mem_cons]

/-- The slots that the loop comes to before the last thread is without a stack. -/
def BeforeOwn (s : Library) (i : Tid) : Prop := s.tid = mainTid ∨ i.val ≤ s.tid.val

instance (s : Library) (i : Tid) : Decidable (BeforeOwn s i) := inferInstanceAs (Decidable (_ ∨ _))

/-- No signal comes while slot `i` is looked at and its stack is freed. -/
def Freed (d : ExitPoint → Nat) (s : Library) (i : Tid) : Prop :=
  d (.lookExited i) = 0 ∧ (s.status i = .exited → d (.freeStack i) = 0)

instance (d : ExitPoint → Nat) (s : Library) (i : Tid) : Decidable (Freed d s i) :=
  inferInstanceAs (Decidable (_ ∧ (_ → _)))

/-- A slot whose stack can be freed. -/
theorem AllExited.freeStacks_cons (h : AllExited s) {i : Tid} {is : List Tid} {c : Prop} [Decidable c]
    {x : Except Halt Library} (hi : ¬ (i = s.tid ∧ i ≠ mainTid)) (hrest : freeStacks d is s = gate c s x) :
    freeStacks d (i :: is) s = gate (Freed d s i ∧ c) s x := by
  unfold Library.freeStacks
  rw [h.deliver]
  refine (gate_bind (e := (s.status i = .exited → d (.freeStack i) = 0) ∧ c) (x := x) ?_).trans (gate_congr ?_)
  · split
    · next hex =>
      rw [h.deliver]
      refine (gate_bind (e := c) (x := x) ?_).trans (gate_congr ?_)
      · rw [Library.freeStack, if_neg hi]
        exact hrest
      · rw [forall_prop_of_true hex]
    · next hex =>
      refine hrest.trans (gate_congr ?_)
      rw [and_iff_right fun hx => absurd hx hex]
  · rw [Freed, and_assoc]

/-- The main thread frees the stacks of the others. -/
theorem AllExited.freeStacks_main (h : AllExited s) (hmain : s.tid = mainTid) (is : List Tid) :
    freeStacks d is s = gate (∀ i ∈ is, Freed d s i) s (.ok s) := by
  induction is with
  | nil => rfl
  | cons i is ih =>
    have hi : ¬ (i = s.tid ∧ i ≠ mainTid) := fun hi => hi.2 (hi.1.trans hmain)
    refine (h.freeStacks_cons hi ih).trans (gate_congr ?_)
    rw [List.forall_mem_cons]

/-- Another thread comes as far as its own stack. -/
theorem AllExited.freeStacks_own (h : AllExited s) (hmain : s.tid ≠ mainTid) (hex : s.status s.tid = .exited)
    {is : List Tid} (hsorted : is.Pairwise fun i j => i.val < j.val) (hmem : s.tid ∈ is) :
    freeStacks d is s = gate (∀ i ∈ is, i.val ≤ s.tid.val → Freed d s i) s (.error .undefined) := by
  induction is with
  | nil => cases hmem
  | cons i is ih =>
    obtain ⟨hlt, hsorted⟩ := List.pairwise_cons.mp hsorted
    by_cases hi : i = s.tid
    · -- the slots behind its own are not come to
      have hrest : (∀ j ∈ i :: is, j.val ≤ s.tid.val → Freed d s j) ↔ Freed d s i := by
        rw [List.forall_mem_cons, and_iff_left fun j hj hle => absurd (hlt j hj) (by rw [hi]; exact Nat.not_lt.mpr hle),
          hi]
        exact forall_prop_of_true (Nat.le_refl _)
      unfold Library.freeStacks
      rw [h.deliver]
      refine (gate_bind (e := d (.freeStack i) = 0 ∧ True) (x := .error .undefined) ?_).trans (gate_congr ?_)
      · rw [if_pos (by rw [hi]; exact hex), h.deliver]
        refine gate_bind ?_
        rw [Library.freeStack, if_pos ⟨hi, by rw [hi]; exact hmain⟩]
        rfl
      · rw [hrest, Freed, forall_prop_of_true (by rw [hi]; exact hex), and_true]
    · have hmem := (List.mem_cons.mp hmem).resolve_left (Ne.symm hi)
      refine (h.freeStacks_cons (fun hi' => hi hi'.1) (ih hsorted hmem)).trans (gate_congr ?_)
      rw [List.forall_mem_cons, forall_prop_of_true (Nat.le_of_lt (hlt s.tid hmem))]

/-- The points that the last thread comes by after it is marked. No other thread is left or made
    ready, and the stacks of the exited threads are freed, up to its own. -/
def AfterMark (s : Library) : ExitPoint → Prop
  | .mark | .wake | .setLeft _ | .leave => False
  | .lookExited i => BeforeOwn s i
  | .freeStack i => BeforeOwn s i ∧ (i = s.tid ∨ s.status i = .exited)
  | .exit => s.tid = mainTid
  | _ => True

/-- How the call ends when no signal comes: with exit(0), or without the stack it runs on. -/
def lastHalt (s : Library) : Except Halt Library :=
  if s.tid = mainTid then .ok { s with ended := true } else .error .undefined

theorem AllExited.freeStacks (h : AllExited s) (hex : s.status s.tid = .exited) :
    (Library.freeStacks d (List.finRange 128) s >>= fun s => do
      let s ← Library.deliver (d .exit) s
      .ok { s with ended := true }) =
      gate ((∀ i ∈ List.finRange 128, BeforeOwn s i → Freed d s i) ∧ (s.tid = mainTid → d .exit = 0)) s
        s.lastHalt := by
  unfold lastHalt BeforeOwn
  by_cases hmain : s.tid = mainTid
  · rw [h.freeStacks_main hmain, if_pos hmain]
    refine (gate_bind (e := d .exit = 0 ∧ True) ?_).trans (gate_congr ?_)
    · rw [h.deliver]
      exact gate_bind rfl
    · simp only [hmain, true_or, forall_const, and_true]
  · rw [h.freeStacks_own hmain hex (List.pairwise_lt_finRange 128) (List.mem_finRange s.tid), if_neg hmain]
    unfold gate
    simp only [hmain, false_or, false_implies, and_true]
    split
    · rfl
    · rfl

theorem AllExited.leaveOrExit (h : AllExited s) (hex : s.status s.tid = .exited) :
    leaveOrExit d s = gate (d .clearLeft = 0 ∧ (∀ i ∈ List.finRange 128, d (.look i) = 0) ∧ (d .testLeft = 0 ∧ True) ∧
      (∀ i ∈ List.finRange 128, BeforeOwn s i → Freed d s i) ∧ (s.tid = mainTid → d .exit = 0)) s s.lastHalt := by
  have hleave : Library.leave d false s = gate (d .testLeft = 0 ∧ True) s (.ok s) := by
    unfold Library.leave
    rw [h.deliver]
    exact gate_bind rfl
  unfold Library.leaveOrExit
  rw [h.deliver]
  apply gate_bind
  rw [h.countLeft]
  apply gate_bind
  rw [hleave]
  apply gate_bind
  exact h.freeStacks hex

theorem LastThread.marked (h : LastThread s) : AllExited s.marked := by
  intro u
  unfold Library.marked
  dsimp only
  by_cases hu : u = s.tid
  · rw [hu, Function.update_self]
    rfl
  · rw [Function.update_of_ne hu]
    exact h.others u hu

theorem marked_exited {i : Tid} : s.marked.status i = .exited ↔ i = s.tid ∨ s.status i = .exited := by
  unfold Library.marked
  dsimp only
  by_cases hi : i = s.tid
  · rw [hi, Function.update_self]
    exact iff_of_true rfl (.inl rfl)
  · rw [Function.update_of_ne hi, or_iff_right hi]

/-- The conditions of the parts, put together. -/
theorem afterMark_iff : (d .readTid = 0 ∧ d .testTid = 0 ∧ True) ∧ d .clearLeft = 0 ∧
      (∀ i ∈ List.finRange 128, d (.look i) = 0) ∧ (d .testLeft = 0 ∧ True) ∧
      (∀ i ∈ List.finRange 128, BeforeOwn s i → Freed d s.marked i) ∧ (s.tid = mainTid → d .exit = 0) ↔
      ∀ p, AfterMark s p → d p = 0 := by
  constructor
  · rintro ⟨⟨hread, htest, -⟩, hclear, hlook, ⟨hleft, -⟩, hfree, hexit⟩ p hp
    cases p with
    | mark => exact hp.elim
    | readTid => exact hread
    | testTid => exact htest
    | wake => exact hp.elim
    | clearLeft => exact hclear
    | look i => exact hlook i (List.mem_finRange i)
    | setLeft i => exact hp.elim
    | testLeft => exact hleft
    | leave => exact hp.elim
    | lookExited i => exact (hfree i (List.mem_finRange i) hp).1
    | freeStack i => exact (hfree i (List.mem_finRange i) hp.1).2 (marked_exited.mpr hp.2)
    | exit => exact hexit hp
  · intro h
    exact ⟨⟨h _ trivial, h _ trivial, trivial⟩, h _ trivial, fun i _ => h _ trivial, ⟨h _ trivial, trivial⟩,
      fun i _ hown => ⟨h (.lookExited i) hown, fun hex => h (.freeStack i) ⟨hown, marked_exited.mp hex⟩⟩, fun hm => h .exit hm⟩

/-- pthread_exit by the last thread: without a signal after the mark it comes to exit(0), or to the end of
    its stack; else to no end. -/
theorem LastThread.exit (h : LastThread s) (hrun : s.status s.tid = .running) (hown : s.tcbTid s.tid = s.tid.val)
    [Decidable (∀ p, AfterMark s p → d p = 0)] :
    ∃ t, AllExited t ∧ t.tid = s.tid ∧ pthreadExitWith d s = gate (∀ p, AfterMark s p → d p = 0) t t.lastHalt := by
  obtain ⟨t, ht, hsame⟩ := h.deliver hrun (d .mark)
  have hall := (h.of_same hsame).marked
  have howned : t.marked.tcbTid t.marked.tid = t.marked.tid.val := by
    change t.tcbTid t.tid = t.tid.val
    rw [hsame.tcbTid, hsame.tid]
    exact hown
  have hstatus : t.marked.status = s.marked.status := by
    change Function.update t.status t.tid .exited = Function.update s.status s.tid .exited
    rw [hsame.status, hsame.tid]
  have hexited : t.marked.status t.marked.tid = .exited := Function.update_self _ _ _
  have hbefore : ∀ i, BeforeOwn t.marked i ↔ BeforeOwn s i := by
    intro i
    unfold BeforeOwn
    rw [show t.marked.tid = s.tid from hsame.tid]
  have hfreed : ∀ i, Freed d t.marked i ↔ Freed d s.marked i := by
    intro i
    unfold Freed
    rw [hstatus]
  refine ⟨t.marked, hall, hsame.tid, ?_⟩
  unfold pthreadExitWith
  rw [ht]
  change (Library.wakeOther d t.marked >>= fun s => Library.leaveOrExit d s) = _
  rw [hall.wakeOther howned]
  refine (gate_bind (hall.leaveOrExit hexited)).trans (gate_congr ?_)
  simp only [hbefore, hfreed, show t.marked.tid = s.tid from hsame.tid]
  exact afterMark_iff

/-! ## Without signals -/

theorem countLeft_zero (is : List Tid) (left : Bool) :
    countLeft (fun _ => 0) is (s, left) = .ok (s, left || is.any fun i => Left (s.status i)) := by
  induction is generalizing left with
  | nil => rw [List.any_nil, Bool.or_false]; rfl
  | cons i is ih =>
    rw [List.any_cons]
    unfold countLeft
    change (if Left (s.status i) then countLeft (fun _ => 0) is (s, true) else countLeft (fun _ => 0) is (s, left)) = _
    split
    · next hl =>
      rw [ih, hl]
      simp
    · next hl =>
      rw [ih, Bool.eq_false_iff.mpr hl, Bool.false_or]

theorem freeStacks_zero (hmain : s.tid = mainTid) (is : List Tid) : freeStacks (fun _ => 0) is s = .ok s := by
  induction is with
  | nil => rfl
  | cons i is ih =>
    have hfree : s.freeStack i = .ok s := if_neg fun hi => hi.2 (hi.1.trans hmain)
    unfold freeStacks
    change (if s.status i = .exited then s.freeStack i >>= fun s => freeStacks (fun _ => 0) is s
      else freeStacks (fun _ => 0) is s) = _
    rw [hfree]
    change (if s.status i = .exited then freeStacks (fun _ => 0) is s else freeStacks (fun _ => 0) is s) = _
    rw [ite_self]
    exact ih

theorem leaveOrExit_zero (hmain : s.tid = mainTid) :
    leaveOrExit (fun _ => 0) s =
      if (List.finRange 128).any fun i => Left (s.status i) then do
        let s' ← s.scheduleCall
        .error (.away s')
      else .ok { s with ended := true } := by
  unfold leaveOrExit
  change (countLeft (fun _ => 0) (List.finRange 128) (s, false) >>= _) = _
  rw [countLeft_zero, Bool.false_or]
  change (leave (fun _ => 0) _ s >>= _) = _
  unfold leave
  change ((if _ then _ else _) >>= _) = _
  split
  · change ((s.scheduleCall >>= fun s' => .error (.away s')) >>= _) = _
    cases s.scheduleCall with
    | error e => rfl
    | ok s' => rfl
  · change (freeStacks (fun _ => 0) (List.finRange 128) s >>= _) = _
    rw [freeStacks_zero hmain]
    rfl

theorem wakeOther_zero (h : s.tcbTid s.tid < 128) : wakeOther (fun _ => 0) s = .ok { s with
    status := if s.tcbTid s.tid ≠ s.tid.val then Function.update s.status ⟨s.tcbTid s.tid, h⟩ .ready else s.status } := by
  unfold wakeOther
  change (if _ then dite _ _ _ else _) = _
  split
  · rfl
  · rfl

/-- With no signal delivered this is the uninterrupted call, for the main thread. -/
theorem pthreadExitWith_zero (hmain : s.tid = mainTid) (h : s.tcbTid s.tid < 128) :
    pthreadExitWith (fun _ => 0) s = .ok s' ↔ s.pthreadExit = some (true, s') := by
  obtain ⟨w, hwake, htid, hexit⟩ : ∃ w, wakeOther (fun _ => 0) s.marked = .ok w ∧ w.tid = s.tid ∧
      s.pthreadExit = if (List.finRange 128).any fun i => Left (w.status i) then w.schedule.map fun s => (false, s)
        else some (true, { w with ended := true }) := by
    refine ⟨_, wakeOther_zero (s := s.marked) h, rfl, ?_⟩
    unfold pthreadExit
    rw [dif_pos h]
    rfl
  have hwith : pthreadExitWith (fun _ => 0) s = leaveOrExit (fun _ => 0) w := by
    unfold pthreadExitWith
    change (wakeOther (fun _ => 0) s.marked >>= _) = _
    rw [hwake]
    rfl
  rw [hwith, leaveOrExit_zero (htid.trans hmain), hexit]
  split
  · refine iff_of_false ?_ ?_
    · intro he
      cases hc : w.scheduleCall with
      | error e => rw [hc] at he; cases he
      | ok t => rw [hc] at he; cases he
    · intro he
      obtain ⟨t, -, ht⟩ := Option.map_eq_some_iff.mp he
      cases (Prod.mk.inj ht).1
  · rw [Except.ok.injEq, Option.some.injEq, Prod.mk.injEq, and_iff_right rfl]

/-! ## Every reachable state -/

theorem run_lastThread {es : List (Input × Ret)} (hrun : Run (Guarded step fun _ _ => True) boot es s)
    (hlive : s.ended = false) (hlast : LastThread s) (d : ExitPoint → Nat) [Decidable (∀ p, AfterMark s p → d p = 0)] :
    ∃ t, AllExited t ∧ t.tid = s.tid ∧ pthreadExitWith d s = gate (∀ p, AfterMark s p → d p = 0) t t.lastHalt := by
  have hr := run_reached hrun
  have hne : es ≠ [] := by
    intro hnil
    have hcur := hlast.current
    rw [hr.start hnil] at hcur
    cases hcur
  have hruns := hr.runs hne hlive
  exact hlast.exit hruns.running (hruns.inv.own s.tid)

/-- The last thread's pthread_exit reaches exit(0) exactly when it is the main thread and no signal is
    delivered after it is marked as exited. With such a signal the handler is entered in a state it never
    leaves; without one, a thread other than main frees the stack it runs on. -/
theorem last_exit {es : List (Input × Ret)} (hrun : Run (Guarded step fun _ _ => True) boot es s)
    (hlive : s.ended = false) (hlast : LastThread s) (d : ExitPoint → Nat) :
    ((∃ s', pthreadExitWith d s = .ok s' ∧ s'.ended = true) ↔ s.tid = mainTid ∧ ∀ p, AfterMark s p → d p = 0) ∧
      ((∃ t, pthreadExitWith d s = .error (.hangs t) ∧ Stuck t) ↔ ¬ ∀ p, AfterMark s p → d p = 0) ∧
      (pthreadExitWith d s = .error .undefined ↔ s.tid ≠ mainTid ∧ ∀ p, AfterMark s p → d p = 0) := by
  classical
  obtain ⟨t, hall, htid, hexit⟩ := run_lastThread hrun hlive hlast d
  rw [hexit, gate, lastHalt, htid]
  by_cases hd : ∀ p, AfterMark s p → d p = 0
  · rw [if_pos hd, and_iff_left hd, and_iff_left hd]
    by_cases hmain : s.tid = mainTid
    · rw [if_pos hmain]
      refine ⟨iff_of_true ⟨_, rfl, rfl⟩ hmain, iff_of_false ?_ (not_not.mpr hd), iff_of_false ?_ (not_not.mpr hmain)⟩
      · intro h
        obtain ⟨t, ht, -⟩ := h
        cases ht
      · intro h
        cases h
    · rw [if_neg hmain]
      refine ⟨iff_of_false ?_ hmain, iff_of_false ?_ (not_not.mpr hd), iff_of_true rfl hmain⟩
      all_goals
        intro h
        obtain ⟨t, ht, -⟩ := h
        cases ht
  · rw [if_neg hd]
    refine ⟨iff_of_false ?_ fun h => hd h.2, iff_of_true ⟨t, rfl, hall.stuck⟩ hd, iff_of_false ?_ fun h => hd h.2⟩
    · intro h
      obtain ⟨s', hs', -⟩ := h
      cases hs'
    · intro h
      cases h

/-- One thread is created and exits; the main thread is the last. -/
theorem last_thread_reached : ∃ es s, Run (Guarded step fun _ _ => True) boot es s ∧ s.ended = false ∧
    LastThread s ∧ s.tid = mainTid := by
  have hexec : ((exec step (fun _ _ => true) boot [.create, .exit]).map fun q => decide (q.2.ended = false ∧
      q.2.tid = mainTid ∧ Left (q.2.status q.2.tid) = true ∧ ∀ u, u ≠ q.2.tid → Left (q.2.status u) = false)) = some true := by
    decide +kernel
  obtain ⟨⟨es, s⟩, he, hp⟩ := Option.map_eq_some_iff.mp hexec
  obtain ⟨hlive, hmain, hcur, hothers⟩ := of_decide_eq_true hp
  exact ⟨[] ++ es, s, exec_run (fun _ _ _ _ => trivial) .start he, hlive, ⟨hcur, hothers⟩, hmain⟩

/-- It exits with a signal just before the mark. -/
theorem last_exit_main : ∃ es s s', Run (Guarded step fun _ _ => True) boot es s ∧
    pthreadExitWith (fun p => if p = .mark then 1 else 0) s = .ok s' ∧ s'.ended = true := by
  obtain ⟨es, s, hrun, hlive, hlast, hmain⟩ := last_thread_reached
  obtain ⟨s', hs', hended⟩ := (last_exit hrun hlive hlast fun p => if p = .mark then 1 else 0).1.mpr ⟨hmain, by
    intro p hp
    apply if_neg
    intro hmark
    rw [hmark] at hp
    exact hp⟩
  exact ⟨es, s, s', hrun, hs', hended⟩

/-- With a signal right after the mark it does not. -/
theorem last_exit_interrupted :
    ¬ ∀ (es : List (Input × Ret)) (s : Library), Run (Guarded step fun _ _ => True) boot es s → s.ended = false →
      LastThread s → ∀ d, ∃ s', pthreadExitWith d s = .ok s' ∧ s'.ended = true := by
  classical
  intro hall
  obtain ⟨es, s, hrun, hlive, hlast, -⟩ := last_thread_reached
  obtain ⟨s', hs', -⟩ := hall es s hrun hlive hlast fun p => if p = .readTid then 1 else 0
  obtain ⟨t, -, -, hexit⟩ := run_lastThread hrun hlive hlast fun p => if p = .readTid then 1 else 0
  have hread : ¬ ∀ p, AfterMark s p → (if p = .readTid then 1 else 0) = 0 := by
    intro h
    exact absurd (h .readTid trivial) (by decide)
  rw [hs', gate, if_neg hread] at hexit
  cases hexit

end Library

end EC440.Threads
