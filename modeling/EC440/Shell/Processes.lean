/-
  The shell over a whole session: the loop of main, the children that execCommand forks, and the
  handler that main sets for SIGCHLD. Lines are given, children end and signals are delivered in
  any order.

  A signal that is pending stays one signal, however many children end. It is delivered between
  any two steps, also while wait blocks, which then goes on, and it is held back while the handler
  runs. wait collects any child that has ended, not only the one that was forked last. pipe and fork
  do not fail.
-/
import EC440.Lib.Run
import EC440.Shell.Wiring
import Mathlib.Algebra.GroupWithZero.Nat
import Mathlib.Data.Fintype.EquivFin

namespace EC440.Shell

open EC440.Lib

variable {α : Type}

/-- A process that was forked and that no wait or waitpid has returned. `pipe` is the number of the
    pipe that was made for its command. -/
structure Child (α : Type) where
  pid : Nat
  pipe : Nat
  descriptors : Descriptors (File α)
  zombie : Bool

/-- Where the shell is: at fgets, before a call of execCommand, in the branch of the parent, or
    behind the loop. -/
inductive Pc (α : Type)
  | prompt
  | execute (commands : List Command) (background : Bool) (input first : Nat)
  | parent (call : Executed α) (commands : List Command) (background : Bool)
  | ended

structure Myshell (α : Type) where
  children : List (Child α)
  descriptors : Descriptors (File α)
  pipes : Nat
  pending : Bool
  inHandler : Bool
  pc : Pc α

inductive Event
  | line (p : Pipeline)
  | eof
  | fork (command : Command) (pid : Nat)
  | wait (pid : Nat)
  | noChild
  | noWait
  | exit (pid : Nat)
  | signal
  | waitpid (pid : Nat)
  | handled

/-- The steps of fgets. -/
def Event.Reads : Event → Prop
  | .line _ | .eof => True
  | _ => False

namespace Myshell

def start (shell : Descriptors α) : Myshell α where
  children := []
  descriptors := shell.map .inherited
  pipes := 0
  pending := false
  inHandler := false
  pc := .prompt

/-- The descriptors with both ends of a pipe. -/
def piped (k : Nat) (d : Descriptors (File α)) : Descriptors (File α) :=
  ((d.allocate (.readEnd k)).2.allocate (.writeEnd k)).2

/-- execCommand up to the branch of the parent. -/
def fork (s : Myshell α) (pid : Nat) (command : Command) (commands : List Command) (background : Bool)
    (input first : Nat) : Myshell α :=
  let call := execCommand s.pipes command input first (if commands = [] then 1 else 0) background s.descriptors
  { s with
    children := s.children ++ [{ pid := pid, pipe := s.pipes, descriptors := call.child, zombie := false }]
    descriptors := piped s.pipes s.descriptors
    pipes := s.pipes + 1
    pc := .parent call commands background }

/-- The rest of execCommand, and the next command of the loop. -/
def next (s : Myshell α) (call : Executed α) (commands : List Command) (background : Bool) : Myshell α :=
  { s with
    descriptors := call.shell
    pc := if commands = [] then .prompt else .execute commands background call.returned 0 }

/-- The steps. fork gives a pid that no uncollected child has; wait fails when there is no child. A child
    that runs may end or go on; whether it can end is left to `Possible`. -/
inductive Step : Myshell α → Event → Myshell α → Prop
  | line {s : Myshell α} {p : Pipeline} : s.pc = .prompt → s.inHandler = false → p.commands ≠ [] →
      Step s (.line p) { s with pc := .execute p.commands p.isBackground 0 1 }
  | eof {s : Myshell α} : s.pc = .prompt → s.inHandler = false → Step s .eof { s with pc := .ended }
  | fork {s : Myshell α} {command : Command} {commands : List Command} {background : Bool} {input first pid : Nat} :
      s.pc = .execute (command :: commands) background input first → s.inHandler = false →
      (∀ c ∈ s.children, c.pid ≠ pid) →
      Step s (.fork command pid) (s.fork pid command commands background input first)
  | wait {s : Myshell α} {call : Executed α} {commands : List Command} {c : Child α} {l₁ l₂ : List (Child α)} :
      s.pc = .parent call commands false → s.inHandler = false → s.children = l₁ ++ c :: l₂ → c.zombie = true →
      Step s (.wait c.pid) (next { s with children := l₁ ++ l₂ } call commands false)
  | noChild {s : Myshell α} {call : Executed α} {commands : List Command} :
      s.pc = .parent call commands false → s.inHandler = false → s.children = [] →
      Step s .noChild (next s call commands false)
  | noWait {s : Myshell α} {call : Executed α} {commands : List Command} :
      s.pc = .parent call commands true → s.inHandler = false → Step s .noWait (next s call commands true)
  | exit {s : Myshell α} {c : Child α} {l₁ l₂ : List (Child α)} :
      s.children = l₁ ++ c :: l₂ → c.zombie = false →
      Step s (.exit c.pid) { s with children := l₁ ++ { c with zombie := true } :: l₂, pending := true }
  | signal {s : Myshell α} : s.pc ≠ .ended → s.pending = true → s.inHandler = false →
      Step s .signal { s with pending := false, inHandler := true }
  | waitpid {s : Myshell α} {c : Child α} {l₁ l₂ : List (Child α)} :
      s.inHandler = true → s.children = l₁ ++ c :: l₂ → c.zombie = true →
      Step s (.waitpid c.pid) { s with children := l₁ ++ l₂ }
  | handled {s : Myshell α} : s.inHandler = true → (∀ c ∈ s.children, c.zombie = false) →
      Step s .handled { s with inHandler := false }

variable {base : Descriptors α} {s s' : Myshell α} {es : List Event} {e : Event}

@[simp] theorem next_children (s : Myshell α) (call : Executed α) (commands : List Command) (background : Bool) :
    (s.next call commands background).children = s.children := rfl

@[simp] theorem next_pending (s : Myshell α) (call : Executed α) (commands : List Command) (background : Bool) :
    (s.next call commands background).pending = s.pending := rfl

@[simp] theorem next_inHandler (s : Myshell α) (call : Executed α) (commands : List Command) (background : Bool) :
    (s.next call commands background).inHandler = s.inHandler := rfl

@[simp] theorem next_pipes (s : Myshell α) (call : Executed α) (commands : List Command) (background : Bool) :
    (s.next call commands background).pipes = s.pipes := rfl

/-! ## Zombies -/

/-- A zombie is never left behind: the signal of its end is still to come, or the handler runs. -/
def Noticed (s : Myshell α) : Prop := (∃ c ∈ s.children, c.zombie = true) → s.pending = true ∨ s.inHandler = true

theorem Noticed.mono (h : Noticed s) (hp : s'.pending = s.pending) (hi : s'.inHandler = s.inHandler)
    (hc : ∀ c ∈ s'.children, c.zombie = true → c ∈ s.children) : Noticed s' := by
  intro hz
  obtain ⟨c, hmem, hzombie⟩ := hz
  rw [hp, hi]
  exact h ⟨c, hc c hmem hzombie, hzombie⟩

/-- The children without one. -/
theorem mem_without {l₁ l₂ : List (Child α)} {c x : Child α} (h : x ∈ l₁ ++ l₂) : x ∈ l₁ ++ c :: l₂ := by
  rcases List.mem_append.mp h with h | h
  · exact List.mem_append_left _ h
  · exact List.mem_append_right _ (List.mem_cons_of_mem c h)

theorem Noticed.step (h : Noticed s) (hs : Step s e s') : Noticed s' := by
  cases hs with
  | line hpc hi hne => exact h.mono rfl rfl fun c hc _ => hc
  | eof hpc hi => exact h.mono rfl rfl fun c hc _ => hc
  | fork hpc hi hfree =>
    refine h.mono rfl rfl fun c hc hz => ?_
    rcases List.mem_append.mp hc with hc | hc
    · exact hc
    · rw [List.mem_singleton.mp hc] at hz
      cases hz
  | wait hpc hi hsplit hz =>
    refine h.mono rfl rfl fun c hc _ => ?_
    rw [hsplit]
    exact mem_without hc
  | noChild hpc hi hnone => exact h.mono rfl rfl fun c hc _ => hc
  | noWait hpc hi => exact h.mono rfl rfl fun c hc _ => hc
  | exit hsplit hz => exact fun _ => .inl rfl
  | signal hpc hp hi => exact fun _ => .inr rfl
  | waitpid hi hsplit hz => exact fun _ => .inr hi
  | handled hi hall =>
    -- the handler returns only when waitpid finds no zombie
    intro hz
    obtain ⟨c, hmem, hzombie⟩ := hz
    rw [hall c hmem] at hzombie
    cases hzombie

/-! ## Pids -/

def pids (s : Myshell α) : List Nat := s.children.map Child.pid

def forks (pid : Nat) (es : List Event) : Nat :=
  es.countP fun e => match e with
    | .fork _ p => p == pid
    | _ => false

/-- How often wait and waitpid returned the pid. -/
def collects (pid : Nat) (es : List Event) : Nat :=
  es.countP fun e => match e with
    | .wait p | .waitpid p => p == pid
    | _ => false

theorem forks_snoc (pid : Nat) (es : List Event) (e : Event) :
    forks pid (es ++ [e]) = forks pid es + forks pid [e] := List.countP_append

theorem collects_snoc (pid : Nat) (es : List Event) (e : Event) :
    collects pid (es ++ [e]) = collects pid es + collects pid [e] := List.countP_append

/-- Every process that was forked has been collected, or is in the table once. -/
structure Accounted (es : List Event) (s : Myshell α) : Prop where
  count : ∀ pid, forks pid es = collects pid es + s.pids.count pid
  nodup : s.pids.Nodup

theorem pids_split {l₁ l₂ : List (Child α)} {c : Child α} (h : s.children = l₁ ++ c :: l₂) :
    s.pids = l₁.map Child.pid ++ c.pid :: l₂.map Child.pid := by
  rw [pids, h, List.map_append, List.map_cons]

theorem Accounted.same (h : Accounted es s) (hp : s'.pids = s.pids) (hf : ∀ pid, forks pid [e] = 0)
    (hc : ∀ pid, collects pid [e] = 0) : Accounted (es ++ [e]) s' := by
  refine ⟨fun pid => ?_, by rw [hp]; exact h.nodup⟩
  rw [forks_snoc, collects_snoc, hf, hc, hp]
  exact h.count pid

theorem Accounted.collect {l₁ l₂ : List (Child α)} {c : Child α} (h : Accounted es s)
    (hsplit : s.children = l₁ ++ c :: l₂) (hchildren : s'.children = l₁ ++ l₂)
    (hf : ∀ pid, forks pid [e] = 0) (hc : ∀ pid, collects pid [e] = if c.pid = pid then 1 else 0) :
    Accounted (es ++ [e]) s' := by
  have hp : s'.pids = l₁.map Child.pid ++ l₂.map Child.pid := by rw [pids, hchildren, List.map_append]
  have hnodup := h.nodup
  rw [pids_split hsplit] at hnodup
  refine ⟨fun pid => ?_, ?_⟩
  · have hcount := h.count pid
    rw [pids_split hsplit, List.count_append, List.count_cons] at hcount
    rw [forks_snoc, collects_snoc, hf, hc, hp, List.count_append, hcount]
    simp only [beq_iff_eq]
    omega
  · rw [hp]
    exact hnodup.sublist ((List.sublist_cons_self _ _).append_left _)

theorem Accounted.step (h : Accounted es s) (hs : Step s e s') : Accounted (es ++ [e]) s' := by
  cases hs with
  | line hpc hi hne => exact h.same rfl (fun _ => rfl) fun _ => rfl
  | eof hpc hi => exact h.same rfl (fun _ => rfl) fun _ => rfl
  | @fork command commands background input first pid hpc hi hfree =>
    have hp : (s.fork pid command commands background input first).pids = s.pids ++ [pid] := by
      rw [pids, fork, List.map_append]
      rfl
    refine ⟨fun q => ?_, ?_⟩
    · have hcount := h.count q
      have hone : forks q [.fork command pid] = [pid].count q := List.countP_singleton.trans List.count_singleton.symm
      have hnone : collects q [.fork command pid] = 0 := rfl
      rw [forks_snoc, collects_snoc, hp, List.count_append, hcount, hone, hnone]
      omega
    · rw [hp]
      refine List.nodup_append.mpr ⟨h.nodup, List.pairwise_singleton _ _, fun a ha b hb => ?_⟩
      obtain ⟨c, hc, rfl⟩ := List.mem_map.mp ha
      rw [List.mem_singleton.mp hb]
      exact hfree c hc
  | wait hpc hi hsplit hz =>
    refine h.collect hsplit rfl (fun _ => rfl) fun pid => ?_
    unfold collects
    rw [List.countP_singleton]
    simp only [beq_iff_eq]
  | noChild hpc hi hnone => exact h.same rfl (fun _ => rfl) fun _ => rfl
  | noWait hpc hi => exact h.same rfl (fun _ => rfl) fun _ => rfl
  | exit hsplit hz =>
    refine h.same ?_ (fun _ => rfl) fun _ => rfl
    rw [pids_split hsplit, pids, List.map_append]
    rfl
  | signal hpc hp hi => exact h.same rfl (fun _ => rfl) fun _ => rfl
  | waitpid hi hsplit hz =>
    refine h.collect hsplit rfl (fun _ => rfl) fun pid => ?_
    unfold collects
    rw [List.countP_singleton]
    simp only [beq_iff_eq]
  | handled hi hall => exact h.same rfl (fun _ => rfl) fun _ => rfl

/-- In every session: a zombie is left only while SIGCHLD is still pending or handled, and every
    process that was forked is collected once or is a child that is not collected yet. -/
theorem children_collected (hrun : Run Step (start base) es s) :
    ((∃ c ∈ s.children, c.zombie = true) → s.pending = true ∨ s.inHandler = true) ∧
      ∀ pid, forks pid es = collects pid es + if pid ∈ s.pids then 1 else 0 := by
  have hn : Noticed s := hrun.invariant (fun hz => absurd hz (by simp [start])) fun _ _ _ h hs => h.step hs
  have ha : Accounted es s := hrun.invariant_trace ⟨fun _ => rfl, List.nodup_nil⟩ fun _ _ _ _ h hs => h.step hs
  refine ⟨hn, fun pid => ?_⟩
  rw [ha.count pid, ha.nodup.count]

/-- "ls" on a terminal. -/
def ls : Command := ⟨[[108, 115]], none, none⟩

def terminal : Descriptors Nat := ⟨[some 0, some 1, some 2]⟩

def callOfLs : Executed Nat := execCommand 0 ls 0 1 1 false (start terminal).descriptors

/-- The child while it runs, and when it has ended. -/
def childOfLs (zombie : Bool) : Child Nat := ⟨7, 0, callOfLs.child, zombie⟩

/-- ls was forked and has ended, and the shell comes to wait. -/
def endOfLs : Myshell Nat :=
  ⟨[childOfLs true], piped 0 (start terminal).descriptors, 1, true, false, .parent callOfLs [] false⟩

/-- The call for ls, and the branch of the parent in it. -/
def beforeLs : Myshell Nat := { start terminal with pc := .execute [ls] false 0 1 }

def inLs : Myshell Nat := beforeLs.fork 7 ls [] false 0 1

theorem step_line_ls : Step (start terminal) (.line ⟨[ls], false⟩) beforeLs := .line rfl rfl (List.cons_ne_nil _ _)

theorem step_fork_ls : Step beforeLs (.fork ls 7) inLs := .fork rfl rfl nofun

theorem step_exit_ls : Step inLs (.exit 7) endOfLs :=
  .exit (show inLs.children = [] ++ childOfLs false :: [] from rfl) rfl

theorem run_ls : Run Step (start terminal) [.line ⟨[ls], false⟩, .fork ls 7, .exit 7] endOfLs :=
  ((Run.start.step step_line_ls).step step_fork_ls).step step_exit_ls

theorem children_collected_ls : ∃ es s, Run Step (start terminal) es s ∧ s.pids = [7] ∧
    ((∃ c ∈ s.children, c.zombie = true) → s.pending = true ∨ s.inHandler = true) ∧
      ∀ pid, forks pid es = collects pid es + if pid ∈ s.pids then 1 else 0 :=
  ⟨_, _, run_ls, rfl, children_collected run_ls⟩

/-! ## The order of the commands -/

/-- The commands that are still to be forked. -/
def rest : Pc α → List Command
  | .execute commands _ _ _ | .parent _ commands _ => commands
  | .prompt | .ended => []

theorem rest_next (s : Myshell α) (call : Executed α) (commands : List Command) (background : Bool) :
    rest (s.next call commands background).pc = commands := by
  unfold next
  cases commands with
  | nil => rfl
  | cons command commands => rfl

/-- The commands of the lines that were given. -/
def given (es : List Event) : List Command :=
  es.flatMap fun e => match e with
    | .line p => p.commands
    | _ => []

/-- The commands that were forked. -/
def forked (es : List Event) : List Command :=
  es.filterMap fun e => match e with
    | .fork command _ => some command
    | _ => none

theorem given_snoc (es : List Event) (e : Event) : given (es ++ [e]) = given es ++ given [e] := List.flatMap_append

theorem forked_snoc (es : List Event) (e : Event) : forked (es ++ [e]) = forked es ++ forked [e] :=
  List.filterMap_append

/-- Only fgets and fork change what is still to be forked. -/
theorem rest_given (hs : Step s e s') : rest s.pc ++ given [e] = forked [e] ++ rest s'.pc := by
  have same : ∀ {e : Event}, given [e] = [] → forked [e] = [] → ∀ {pc : Pc α}, rest pc = rest s.pc →
      rest s.pc ++ given [e] = forked [e] ++ rest pc := by
    intro e hg hf pc hpc
    rw [hg, hf, hpc, List.append_nil, List.nil_append]
  cases hs with
  | line hpc hi hne =>
    rw [hpc]
    simp [given, forked, rest]
  | eof hpc hi => exact same rfl rfl (by rw [hpc]; rfl)
  | fork hpc hi hfree =>
    rw [hpc]
    simp [given, forked, rest, fork]
  | wait hpc hi hsplit hz => exact same rfl rfl (by rw [rest_next, hpc]; rfl)
  | noChild hpc hi hnone => exact same rfl rfl (by rw [rest_next, hpc]; rfl)
  | noWait hpc hi => exact same rfl rfl (by rw [rest_next, hpc]; rfl)
  | exit hsplit hz => exact same rfl rfl rfl
  | signal hpc hp hi => exact same rfl rfl rfl
  | waitpid hi hsplit hz => exact same rfl rfl rfl
  | handled hi hall => exact same rfl rfl rfl

theorem rest_step (h : forked es ++ rest s.pc = given es) (hs : Step s e s') :
    forked (es ++ [e]) ++ rest s'.pc = given (es ++ [e]) := by
  rw [given_snoc, forked_snoc, ← h, List.append_assoc, List.append_assoc, rest_given hs]

/-- Between two calls of execCommand no child is left, and in a call only its own. -/
def OneByOne (s : Myshell α) : Prop :=
  match s.pc with
  | .prompt | .ended => s.children = []
  | .execute _ background _ _ => background = false ∧ s.children = []
  | .parent _ _ background => background = false ∧ (s.children = [] ∨ ∃ c, s.children = [c] ∧ c.pipe + 1 = s.pipes)

theorem OneByOne.next (call : Executed α) (commands : List Command) (h : s.children = []) :
    OneByOne (s.next call commands false) := by
  unfold Myshell.next OneByOne
  cases commands with
  | nil => exact h
  | cons command commands => exact ⟨rfl, h⟩

theorem OneByOne.parent {call : Executed α} {commands : List Command} {background : Bool} (h : OneByOne s)
    (hpc : s.pc = .parent call commands background) :
    background = false ∧ (s.children = [] ∨ ∃ c, s.children = [c] ∧ c.pipe + 1 = s.pipes) := by
  unfold OneByOne at h
  rwa [hpc] at h

theorem OneByOne.prompt (h : OneByOne s) (hpc : s.pc = .prompt) : s.children = [] := by
  unfold OneByOne at h
  rwa [hpc] at h

/-- There is at most one child, and only in a call. -/
theorem OneByOne.child {l₁ l₂ : List (Child α)} {c : Child α} (h : OneByOne s) (hsplit : s.children = l₁ ++ c :: l₂) :
    l₁ = [] ∧ l₂ = [] ∧ c.pipe + 1 = s.pipes ∧ ∃ call commands, s.pc = .parent call commands false := by
  have hne : s.children ≠ [] := by
    rw [hsplit]
    simp
  unfold OneByOne at h
  split at h
  · exact absurd h hne
  · exact absurd h hne
  · exact absurd h.2 hne
  · next call commands background hpc =>
    obtain ⟨rfl, hnone | ⟨d, hd, hpipe⟩⟩ := h
    · exact absurd hnone hne
    · rw [hsplit] at hd
      obtain ⟨hl₁, hl₂⟩ | ⟨-, hl₂⟩ := List.append_eq_singleton_iff.mp hd
      · obtain ⟨rfl, rfl⟩ := List.cons.inj hl₂
        exact ⟨hl₁, rfl, hpipe, call, commands, hpc⟩
      · cases hl₂

theorem OneByOne.step (h : OneByOne s) (hline : ∀ p, e = .line p → p.isBackground = false) (hs : Step s e s') :
    OneByOne s' := by
  cases hs with
  | line hpc hi hne => exact ⟨hline _ rfl, h.prompt hpc⟩
  | eof hpc hi => exact h.prompt hpc
  | fork hpc hi hfree =>
    unfold OneByOne at h
    rw [hpc] at h
    exact ⟨h.1, .inr ⟨_, congrArg (· ++ [_]) h.2, rfl⟩⟩
  | wait hpc hi hsplit hz =>
    obtain ⟨hl₁, hl₂, -⟩ := h.child hsplit
    refine OneByOne.next _ _ ?_
    rw [hl₁, hl₂]
    rfl
  | noChild hpc hi hnone => exact OneByOne.next _ _ hnone
  | noWait hpc hi => cases (h.parent hpc).1
  | @exit c l₁ l₂ hsplit hz =>
    obtain ⟨hl₁, hl₂, hpipe, call, commands, hpc⟩ := h.child hsplit
    unfold OneByOne
    dsimp only
    rw [hpc]
    refine ⟨rfl, .inr ⟨{ c with zombie := true }, ?_, hpipe⟩⟩
    rw [hl₁, hl₂]
    rfl
  | signal hpc hp hi => exact h
  | waitpid hi hsplit hz =>
    obtain ⟨hl₁, hl₂, hpipe, call, commands, hpc⟩ := h.child hsplit
    unfold OneByOne
    dsimp only
    rw [hpc]
    refine ⟨rfl, .inl ?_⟩
    rw [hl₁, hl₂]
    rfl
  | handled hi hall => exact h

/-- In every session the commands of the lines are forked in their order, each once. When no line is
    in the background they run one by one: there is no child at the prompt nor when a command is
    forked, and in a call of execCommand at most the child of this call. -/
theorem commands_in_order (hrun : Run Step (start base) es s) :
    forked es ++ rest s.pc = given es ∧
      ((∀ p, .line p ∈ es → p.isBackground = false) →
        s.children = [] ∨ ∃ call commands c, s.pc = .parent call commands false ∧ s.children = [c] ∧
          c.pipe + 1 = s.pipes) := by
  refine ⟨hrun.invariant_trace (I := fun es s => forked es ++ rest s.pc = given es) rfl
    fun _ _ _ _ h hs => rest_step h hs, fun hlines => ?_⟩
  have hone : (∀ p, .line p ∈ es → p.isBackground = false) → OneByOne s := by
    refine hrun.invariant_trace (I := fun es s => (∀ p, .line p ∈ es → p.isBackground = false) → OneByOne s) ?_ ?_
    · intro _
      exact (rfl : (start base).children = [])
    · intro es s e s' h hs hlines
      refine (h fun p hp => hlines p (List.mem_append_left _ hp)).step (fun p hp => ?_) hs
      exact hlines p (List.mem_append_right _ (by rw [hp]; exact List.mem_singleton_self _))
  have hone := hone hlines
  cases hchildren : s.children with
  | nil => exact .inl rfl
  | cons c l =>
    obtain ⟨-, hl, hpipe, call, commands, hpc⟩ := hone.child (show s.children = [] ++ c :: l from hchildren)
    rw [hl]
    exact .inr ⟨call, commands, c, hpc, rfl, hpipe⟩

theorem commands_in_order_ls : ∃ es s, Run Step (start terminal) es s ∧ s.pids = [7] ∧
    forked es ++ rest s.pc = given es ∧
      (s.children = [] ∨ ∃ call commands c, s.pc = .parent call commands false ∧ s.children = [c] ∧
        c.pipe + 1 = s.pipes) := by
  obtain ⟨horder, hone⟩ := commands_in_order run_ls
  exact ⟨_, _, run_ls, rfl, horder, hone fun p hp => by simp at hp; rw [hp]⟩

/-! ## The end of a line -/

/-- What is still to happen before the shell is idle. -/
def childWork (c : Child α) : Nat := if c.zombie then 1 else 4

def pcWork : Pc α → Nat
  | .execute commands _ _ _ => 6 * commands.length
  | .parent _ commands _ => 6 * commands.length + 1
  | .prompt | .ended => 0

def work (s : Myshell α) : Nat :=
  pcWork s.pc + (s.children.map childWork).sum + (if s.pending then 2 else 0) + (if s.inHandler then 1 else 0)

theorem pcWork_next (s : Myshell α) (call : Executed α) (commands : List Command) (background : Bool) :
    pcWork (s.next call commands background).pc = 6 * commands.length := by
  unfold next
  cases commands with
  | nil => rfl
  | cons command commands => rfl

/-- Every step but those of fgets brings the shell nearer to being idle. -/
theorem work_step (hs : Step s e s') (he : ¬ e.Reads) : work s' < work s := by
  unfold work
  cases hs with
  | line hpc hi hne => exact absurd trivial he
  | eof hpc hi => exact absurd trivial he
  | @fork command commands background input first pid hpc hi hfree =>
    have hsum : ((s.fork pid command commands background input first).children.map childWork).sum =
        (s.children.map childWork).sum + 4 := by
      rw [fork, List.map_append, List.sum_append]
      rfl
    have hpc' : pcWork (s.fork pid command commands background input first).pc = 6 * commands.length + 1 := rfl
    have hpc₀ : pcWork s.pc = 6 * (commands.length + 1) := by rw [hpc]; rfl
    rw [hsum, hpc', hpc₀]
    change _ + (if s.pending then 2 else 0) + (if s.inHandler then 1 else 0) < _
    omega
  | @wait call commands c l₁ l₂ hpc hi hsplit hz =>
    have hpc₀ : pcWork s.pc = 6 * commands.length + 1 := by rw [hpc]; rfl
    rw [pcWork_next, hpc₀, next_children, next_pending, next_inHandler, hsplit, List.map_append, List.map_append,
      List.sum_append, List.sum_append, List.map_cons, List.sum_cons]
    dsimp only
    omega
  | noChild hpc hi hnone => rw [pcWork_next, hpc, next_children, next_pending, next_inHandler, pcWork]; omega
  | noWait hpc hi => rw [pcWork_next, hpc, next_children, next_pending, next_inHandler, pcWork]; omega
  | @exit c l₁ l₂ hsplit hz =>
    have hold : childWork c = 4 := by rw [childWork, hz]; rfl
    have hnew : childWork { c with zombie := true } = 1 := rfl
    dsimp only
    rw [hsplit, List.map_append, List.map_append, List.sum_append, List.sum_append, List.map_cons, List.map_cons,
      List.sum_cons, List.sum_cons, hold, hnew, if_pos rfl]
    split <;> omega
  | signal hpc hp hi =>
    dsimp only
    rw [hp, hi]
    simp
  | @waitpid c l₁ l₂ hi hsplit hz =>
    have hold : childWork c = 1 := by rw [childWork, hz]; rfl
    dsimp only
    rw [hsplit, List.map_append, List.map_append, List.sum_append, List.sum_append, List.map_cons, List.sum_cons, hold]
    omega
  | handled hi hall =>
    dsimp only
    rw [hi]
    simp

/-- The loop of main has a command left whenever it goes on. -/
def Busy (s : Myshell α) : Prop :=
  ∀ commands background input first, s.pc = .execute commands background input first → commands ≠ []

theorem next_ne_ended (s : Myshell α) (call : Executed α) (commands : List Command) (background : Bool) :
    (s.next call commands background).pc ≠ .ended := by
  unfold next
  cases commands with
  | nil => exact fun h => by cases h
  | cons command commands => exact fun h => by cases h

theorem Busy.next (s : Myshell α) (call : Executed α) (commands : List Command) (background : Bool) :
    Busy (s.next call commands background) := by
  intro commands' background' input first hpc hnil
  have hrest := rest_next s call commands background
  rw [hpc, rest, hnil] at hrest
  rw [← hrest] at hpc
  cases hpc

theorem Busy.step (h : Busy s) (hs : Step s e s') : Busy s' := by
  cases hs with
  | line hpc hi hne =>
    intro commands background input first he
    cases he
    exact hne
  | eof hpc hi =>
    intro commands background input first he
    cases he
  | fork hpc hi hfree =>
    intro commands background input first he
    cases he
  | wait hpc hi hsplit hz => exact Busy.next _ _ _ _
  | noChild hpc hi hnone => exact Busy.next _ _ _ _
  | noWait hpc hi => exact Busy.next _ _ _ _
  | exit hsplit hz => exact h
  | signal hpc hp hi => exact h
  | waitpid hi hsplit hz => exact h
  | handled hi hall => exact h

/-- One of the children is a zombie, or all of them run. -/
theorem zombie_or (l : List (Child α)) :
    (∃ l₁ c l₂, l = l₁ ++ c :: l₂ ∧ c.zombie = true) ∨ ∀ c ∈ l, c.zombie = false := by
  by_cases h : ∃ c ∈ l, c.zombie = true
  · obtain ⟨c, hc, hz⟩ := h
    obtain ⟨l₁, l₂, hl⟩ := List.append_of_mem hc
    exact .inl ⟨l₁, c, l₂, hl, hz⟩
  · push Not at h
    exact .inr fun c hc => by simpa using h c hc

/-- `Ends s pid`: the child can end. One that writes to a full pipe cannot, as long as the process that
    is to read from it is not forked. -/
def Possible (Ends : Myshell α → Nat → Prop) (s : Myshell α) (e : Event) (s' : Myshell α) : Prop :=
  Step s e s' ∧ ∀ pid, e = .exit pid → Ends s pid

variable {Ends : Myshell α → Nat → Prop}

/-- A step that is not one of fgets can be made. -/
def Enabled (Ends : Myshell α → Nat → Prop) (s : Myshell α) : Prop := ∃ e s', Possible Ends s e s' ∧ ¬ e.Reads

/-- The shell waits for children that all run: in wait, or at the prompt for those of the background. -/
structure Waits (s : Myshell α) : Prop where
  pc : s.pc = .prompt ∨ ∃ call commands, s.pc = .parent call commands false
  children : s.children ≠ []
  running : ∀ c ∈ s.children, c.zombie = false
  pending : s.pending = false
  inHandler : s.inHandler = false

theorem Waits.enabled_or (h : Waits s) : Enabled Ends s ∨ ∀ c ∈ s.children, ¬ Ends s c.pid := by
  by_cases hends : ∃ c ∈ s.children, Ends s c.pid
  · obtain ⟨c, hc, hends⟩ := hends
    obtain ⟨l₁, l₂, hl⟩ := List.append_of_mem hc
    refine .inl ⟨_, _, ⟨.exit hl (h.running c hc), fun pid he => ?_⟩, id⟩
    rwa [← Event.exit.inj he]
  · push Not at hends
    exact .inr hends

theorem enabled_execute {command : Command} {commands : List Command} {background : Bool} {input first : Nat}
    (hpc : s.pc = .execute (command :: commands) background input first) (hi : s.inHandler = false) :
    Enabled Ends s := by
  obtain ⟨pid, hpid⟩ := Infinite.exists_notMem_finset s.pids.toFinset
  have hfree : ∀ c ∈ s.children, c.pid ≠ pid := by
    intro c hc he
    refine hpid ?_
    rw [List.mem_toFinset, ← he]
    exact List.mem_map_of_mem hc
  exact ⟨_, _, ⟨.fork hpc hi hfree, nofun⟩, id⟩

/-- wait blocks only while a child runs. -/
theorem enabled_parent {call : Executed α} {commands : List Command} {background : Bool}
    (hpc : s.pc = .parent call commands background) (hp : s.pending = false) (hi : s.inHandler = false) :
    Enabled Ends s ∨ Waits s := by
  cases background with
  | true => exact .inl ⟨_, _, ⟨.noWait hpc hi, nofun⟩, id⟩
  | false =>
    obtain ⟨l₁, c, l₂, hl, hz⟩ | hall := zombie_or s.children
    · exact .inl ⟨_, _, ⟨.wait hpc hi hl hz, nofun⟩, id⟩
    · cases hl : s.children with
      | nil => exact .inl ⟨_, _, ⟨.noChild hpc hi hl, nofun⟩, id⟩
      | cons c l => exact .inr ⟨.inr ⟨call, commands, hpc⟩, by rw [hl]; exact List.cons_ne_nil c l, hall, hp, hi⟩

/-- The shell waits for a line, and has collected all its children. -/
structure Idle (s : Myshell α) : Prop where
  pc : s.pc = .prompt
  children : s.children = []
  pending : s.pending = false
  inHandler : s.inHandler = false

/-- The shell is never stuck but for children. -/
theorem Busy.enabled (h : Busy s) (hn : Noticed s) (hended : s.pc ≠ .ended) :
    Idle s ∨ Enabled Ends s ∨ Waits s := by
  cases hi : s.inHandler with
  | true =>
    right; left
    obtain ⟨l₁, c, l₂, hl, hz⟩ | hall := zombie_or s.children
    · exact ⟨_, _, ⟨.waitpid hi hl hz, nofun⟩, id⟩
    · exact ⟨_, _, ⟨.handled hi hall, nofun⟩, id⟩
  | false =>
    cases hp : s.pending with
    | true => exact .inr (.inl ⟨_, _, ⟨.signal hended hp hi, nofun⟩, id⟩)
    | false =>
      cases hpc : s.pc with
      | ended => exact absurd hpc hended
      | parent call commands background => exact .inr (enabled_parent hpc hp hi)
      | execute commands background input first =>
        cases commands with
        | nil => exact absurd rfl (h _ _ _ _ hpc)
        | cons command commands => exact .inr (.inl (enabled_execute hpc hi))
      | prompt =>
        have hall : ∀ c ∈ s.children, c.zombie = false := by
          intro c hc
          by_contra hz
          rcases hn ⟨c, hc, by simpa using hz⟩ with hpending | hhandler
          · rw [hp] at hpending
            cases hpending
          · rw [hi] at hhandler
            cases hhandler
        cases hl : s.children with
        | nil => exact .inl ⟨hpc, hl, hp, hi⟩
        | cons c l => exact .inr (.inr ⟨.inl hpc, by rw [hl]; exact List.cons_ne_nil c l, hall, hp, hi⟩)

/-- Only the end of the input ends the shell. -/
theorem ended_step (hs : Step s e s') (he : ¬ e.Reads) (h : s.pc ≠ .ended) : s'.pc ≠ .ended := by
  cases hs with
  | line hpc hi hne => exact absurd trivial he
  | eof hpc hi => exact absurd trivial he
  | fork hpc hi hfree => exact fun hn => by cases hn
  | wait hpc hi hsplit hz => exact next_ne_ended _ _ _ _
  | noChild hpc hi hnone => exact next_ne_ended _ _ _ _
  | noWait hpc hi => exact next_ne_ended _ _ _ _
  | exit hsplit hz => exact h
  | signal hpc hp hi => exact h
  | waitpid hi hsplit hz => exact h
  | handled hi hall => exact h

/-- Every line comes to its end, when its children do. `Ends` says which of the children that run can end,
    in which state. From every state of a session in which the shell has not ended, the steps up to
    the next line are bounded in number, in whatever order they are made; and when none is left the
    shell is at the prompt, all children have ended and are collected, or it waits and none of the
    children it waits for can end. -/
theorem line_ends (Ends : Myshell α → Nat → Prop) (hrun : Run (Possible Ends) (start base) es s)
    (hended : s.pc ≠ .ended) :
    ∀ es' s', Run (fun s e s' => Possible Ends s e s' ∧ ¬ e.Reads) s es' s' →
      es'.length + work s' ≤ work s ∧
        (Idle s' ∨ (∃ e s'', Possible Ends s' e s'' ∧ ¬ e.Reads) ∨
          (Waits s' ∧ ∀ c ∈ s'.children, ¬ Ends s' c.pid)) := by
  intro es' s' hrun'
  have hinv : (Busy s' ∧ Noticed s') ∧ s'.pc ≠ .ended := by
    refine hrun'.invariant (I := fun s => (Busy s ∧ Noticed s) ∧ s.pc ≠ .ended) ⟨?_, hended⟩ ?_
    · refine hrun.invariant (I := fun s => Busy s ∧ Noticed s) ⟨?_, ?_⟩ fun _ _ _ h hs => ⟨h.1.step hs.1, h.2.step hs.1⟩
      · intro commands background input first he
        cases he
      · exact fun hz => absurd hz (by simp [start])
    · intro s e s' h hs
      exact ⟨⟨h.1.1.step hs.1.1, h.1.2.step hs.1.1⟩, ended_step hs.1.1 hs.2 h.2⟩
  refine ⟨hrun'.length_le fun _ _ _ h => work_step h.1.1 h.2, ?_⟩
  rcases hinv.1.1.enabled hinv.1.2 hinv.2 with hidle | henabled | hwaits
  · exact .inl hidle
  · exact .inr (.inl henabled)
  · exact .inr (hwaits.enabled_or.imp_right fun hnone => ⟨hwaits, hnone⟩)

/-- A child that writes to its pipe can end when the next command has been forked. -/
def Drained (s : Myshell Nat) (pid : Nat) : Prop :=
  ∀ c ∈ s.children, c.pid = pid → c.descriptors.file 1 = some (.writeEnd c.pipe) → c.pipe + 2 ≤ s.pipes

/-- ls writes to the terminal, and has ended. -/
theorem line_ends_ls : ∃ es s, Run (Possible Drained) (start terminal) es s ∧ s.pids = [7] ∧
    ∀ es' s', Run (fun s e s' => Possible Drained s e s' ∧ ¬ e.Reads) s es' s' →
      es'.length + work s' ≤ work s ∧
        (Idle s' ∨ (∃ e s'', Possible Drained s' e s'' ∧ ¬ e.Reads) ∨
          (Waits s' ∧ ∀ c ∈ s'.children, ¬ Drained s' c.pid)) := by
  have hexit : ∀ pid, Event.exit 7 = .exit pid → Drained inLs pid := by
    intro pid _ c hc _ hwrite
    rw [List.mem_singleton.mp hc] at hwrite
    cases hwrite
  have hrun : Run (Possible Drained) (start terminal) _ endOfLs :=
    ((Run.start.step ⟨step_line_ls, nofun⟩).step ⟨step_fork_ls, nofun⟩).step ⟨step_exit_ls, hexit⟩
  exact ⟨_, _, hrun, rfl, line_ends Drained hrun nofun⟩

end Myshell

end EC440.Shell
