/-
  How myshell.c wires a pipeline: execCommand, and the loop of main that runs it over the commands.

  The child of fork starts with the descriptors of the shell. It keeps the write end of the pipe, the
  output file and the input file in one variable, fd[1], one after the other, and it closes fd[1]
  for a pipeline in the background before it is used. `execPipeline_wired` says which pipelines
  get their descriptors all the same.
-/
import EC440.Lib.Descriptors
import EC440.Shell.Parser

namespace EC440.Shell

open EC440.Lib

/-- What a descriptor refers to: a file that the shell was started with, an end of the pipe that was
    made for a command, or a file that was opened by creat or open. -/
inductive File (α : Type) where
  | inherited (x : α)
  | readEnd (command : Nat)
  | writeEnd (command : Nat)
  | created (path : Str)
  | opened (path : Str)
  deriving DecidableEq, Repr

variable {α : Type}

/-- `if(path) fd[1] = ...` -/
def openRedirect (path : Option Str) (mode : Str → File α) (fd1 : Nat × Descriptors (File α)) :
    Nat × Descriptors (File α) :=
  match path with
  | none => fd1
  | some path => fd1.2.allocate (mode path)

/-- The child, up to its execvp: the descriptors that the command is started with. -/
def execChild (command : Command) (input first last : Nat) (background : Bool) (fd1 : Nat)
    (d : Descriptors (File α)) : Descriptors (File α) :=
  let out := openRedirect command.redirectOutPath .created (fd1, d)
  let inn := openRedirect command.redirectInPath .opened out
  let fd1 := inn.1
  let d := if background then inn.2.close fd1 else inn.2
  if first = 1 ∧ last = 0 ∧ input = 0 then
    d.dup2 fd1 1
  else if first = 0 ∧ last = 0 ∧ input ≠ 0 then
    (d.dup2 input 0).dup2 fd1 1
  else
    let d := if command.redirectOutPath.isSome then d.dup2 fd1 1 else d
    let d := if command.redirectInPath.isSome then d.dup2 fd1 0 else d
    d.dup2 input 0

/-- What comes of a call of execCommand: the descriptors of the child, the value returned, and the
    descriptors of the shell. -/
structure Executed (α : Type) where
  child : Descriptors (File α)
  returned : Nat
  shell : Descriptors (File α)

/-- `k` numbers the commands; the pipe that is made here is the one of command `k`. -/
def execCommand (k : Nat) (command : Command) (input first last : Nat) (background : Bool)
    (d : Descriptors (File α)) : Executed α :=
  let fd0 := d.allocate (.readEnd k)
  let fd1 := fd0.2.allocate (.writeEnd k)
  let child := execChild command input first last background fd1.1 fd1.2
  let shell := fd1.2.close fd1.1
  let shell := if input ≠ 0 then shell.close input else shell
  let shell := if last = 1 then shell.close fd0.1 else shell
  { child := child, returned := fd0.1, shell := shell }

/-- The loop of main from command `k` on, and the call behind it. -/
def execCommands (background : Bool) : Nat → List Command → Nat → Nat → Descriptors (File α) →
    List (Descriptors (File α))
  | _, [], _, _, _ => []
  | k, [command], input, first, d => [(execCommand k command input first 1 background d).child]
  | k, command :: next :: commands, input, first, d =>
      let r := execCommand k command input first 0 background d
      r.child :: execCommands background (k + 1) (next :: commands) r.returned 0 r.shell

/-- The descriptors of the commands of a pipeline, each at its execvp, with those of the shell. -/
def execPipeline (p : Pipeline) (shell : Descriptors α) : List (Descriptors (File α)) :=
  execCommands p.isBackground 0 p.commands 0 1 (shell.map .inherited)

/-! ## What the descriptors are to be -/

def stdinFile (stdin : α) (k : Nat) (command : Command) : File α :=
  if k = 0 then
    match command.redirectInPath with
    | some path => .opened path
    | none => .inherited stdin
  else .readEnd (k - 1)

def stdoutFile (stdout : α) (n k : Nat) (command : Command) : File α :=
  if k + 1 = n then
    match command.redirectOutPath with
    | some path => .created path
    | none => .inherited stdout
  else .writeEnd k

/-- Of `n` commands, those from command `k` on have their descriptors 0 and 1. -/
def Wired (stdin stdout : α) (n : Nat) : Nat → List Command → List (Descriptors (File α)) → Prop
  | _, [], [] => True
  | k, command :: commands, d :: ds =>
      (d.file 0 = some (stdinFile stdin k command) ∧ d.file 1 = some (stdoutFile stdout n k command)) ∧
        Wired stdin stdout n (k + 1) commands ds
  | _, _, _ => False

/-- Only the first command has its input redirected, and only the last its output. -/
def Redirectable (commands : List Command) : Prop :=
  (∀ command ∈ commands.tail, command.redirectInPath = none) ∧
    ∀ command ∈ commands.dropLast, command.redirectOutPath = none

/-! ## The child -/

variable {d : Descriptors (File α)} {a b z : File α} {x : Option (File α)} {command : Command}
  {k fd1 input first last : Nat} {background : Bool}

/-- Standard input and output are `a` and `b`, the input is `z`, and fd[1] is another descriptor. -/
structure Holds (d : Descriptors (File α)) (a b : File α) (input : Nat) (z : File α) (fd1 : Nat)
    (x : Option (File α)) : Prop where
  stdin : d.file 0 = some a
  stdout : d.file 1 = some b
  source : d.file input = some z
  target : d.file fd1 = x
  ne_stdin : 0 ≠ fd1
  ne_stdout : 1 ≠ fd1
  ne_source : input ≠ fd1
  source_ne : input ≠ 1

/-- The file that fd[1] stands for in the end; `none` when it is closed. -/
def childTarget (k : Nat) (command : Command) (background : Bool) : Option (File α) :=
  if background then none
  else some ((command.redirectInPath.map .opened).getD ((command.redirectOutPath.map .created).getD (.writeEnd k)))

theorem Holds.openRedirect {y : File α} (h : Holds d a b input z fd1 (some y)) (path : Option Str) (mode : Str → File α) :
    Holds (openRedirect path mode (fd1, d)).2 a b input z (openRedirect path mode (fd1, d)).1
      (some ((path.map mode).getD y)) := by
  cases path with
  | none => exact h
  | some path =>
    exact ⟨Descriptors.file_allocate_open h.stdin, Descriptors.file_allocate_open h.stdout,
      Descriptors.file_allocate_open h.source, Descriptors.file_allocate _ _, Descriptors.lowest_ne h.stdin,
      Descriptors.lowest_ne h.stdout, Descriptors.lowest_ne h.source, h.source_ne⟩

theorem Holds.close (h : Holds d a b input z fd1 x) (background : Bool) :
    Holds (if background then d.close fd1 else d) a b input z fd1 (if background then none else x) := by
  cases background with
  | false => exact h
  | true =>
    refine ⟨?_, ?_, ?_, Descriptors.file_close_self d fd1, h.ne_stdin, h.ne_stdout, h.ne_source, h.source_ne⟩
    · rw [if_pos rfl, Descriptors.file_close_ne d h.ne_stdin, h.stdin]
    · rw [if_pos rfl, Descriptors.file_close_ne d h.ne_stdout, h.stdout]
    · rw [if_pos rfl, Descriptors.file_close_ne d h.ne_source, h.source]

/-- The three ways a child goes on when fd[1] is set. -/
theorem execChild_eq (h : Holds d a b input z fd1 (some (.writeEnd k))) (command : Command) (first last : Nat)
    (background : Bool) : ∃ d' fd', Holds d' a b input z fd' (childTarget k command background) ∧
      execChild command input first last background fd1 d =
        if first = 1 ∧ last = 0 ∧ input = 0 then d'.dup2 fd' 1
        else if first = 0 ∧ last = 0 ∧ input ≠ 0 then (d'.dup2 input 0).dup2 fd' 1
        else
          ((fun d => if command.redirectInPath.isSome then d.dup2 fd' 0 else d)
            (if command.redirectOutPath.isSome then d'.dup2 fd' 1 else d')).dup2 input 0 :=
  ⟨_, _, ((h.openRedirect command.redirectOutPath .created).openRedirect command.redirectInPath .opened).close background,
    rfl⟩

section
variable (h : Holds d a b input z fd1 (some (.writeEnd k)))
include h

theorem execChild_first (command : Command) (background : Bool) (hinput : input = 0) :
    (execChild command input 1 0 background fd1 d).file 0 = some a ∧
      (execChild command input 1 0 background fd1 d).file 1 = (childTarget k command background).or (some b) := by
  obtain ⟨d', fd', h', heq⟩ := execChild_eq h command 1 0 background
  rw [heq, if_pos ⟨rfl, rfl, hinput⟩, Descriptors.file_dup2_ne d' fd' (by decide), Descriptors.file_dup2_self,
    h'.stdin, h'.stdout, h'.target]
  exact ⟨rfl, rfl⟩

theorem execChild_middle (command : Command) (background : Bool) (hinput : input ≠ 0) :
    (execChild command input 0 0 background fd1 d).file 0 = some z ∧
      (execChild command input 0 0 background fd1 d).file 1 = (childTarget k command background).or (some b) := by
  obtain ⟨d', fd', h', heq⟩ := execChild_eq h command 0 0 background
  rw [heq, if_neg (by simp), if_pos ⟨rfl, rfl, hinput⟩]
  constructor
  · rw [Descriptors.file_dup2_ne _ fd' (by decide), Descriptors.file_dup2_self, h'.source]
    rfl
  · rw [Descriptors.file_dup2_self, Descriptors.file_dup2_ne d' input (Ne.symm h'.ne_stdin),
      Descriptors.file_dup2_ne d' input (by decide), h'.target, h'.stdout]

theorem execChild_last (command : Command) (first : Nat) (background : Bool) :
    (execChild command input first 1 background fd1 d).file 0 =
      (if input = 0 then (if command.redirectInPath.isSome then (childTarget k command background).or (some a) else some a)
        else some z) ∧
      (execChild command input first 1 background fd1 d).file 1 =
        if command.redirectOutPath.isSome then (childTarget k command background).or (some b) else some b := by
  obtain ⟨d', fd', h', heq⟩ := execChild_eq h command first 1 background
  rw [heq, if_neg (by simp), if_neg (by simp)]
  -- after the test for an output file
  obtain ⟨d₁, hd₁, h₁, hout⟩ : ∃ d₁, d₁ = (if command.redirectOutPath.isSome then d'.dup2 fd' 1 else d') ∧
      (∀ fd ≠ 1, d₁.file fd = d'.file fd) ∧ d₁.file 1 =
        if command.redirectOutPath.isSome then (childTarget k command background).or (some b) else some b := by
    refine ⟨_, rfl, fun fd hfd => ?_, ?_⟩
    · split
      · exact Descriptors.file_dup2_ne d' fd' hfd
      · rfl
    · split
      · rw [Descriptors.file_dup2_self, h'.target, h'.stdout]
      · exact h'.stdout
  -- and after the test for an input file
  obtain ⟨d₂, hd₂, h₂, hin⟩ : ∃ d₂, d₂ = (if command.redirectInPath.isSome then d₁.dup2 fd' 0 else d₁) ∧
      (∀ fd ≠ 0, d₂.file fd = d₁.file fd) ∧ d₂.file 0 =
        if command.redirectInPath.isSome then (childTarget k command background).or (some a) else some a := by
    have h0 : d₁.file 0 = some a := by rw [h₁ 0 (by decide), h'.stdin]
    refine ⟨_, rfl, fun fd hfd => ?_, ?_⟩
    · split
      · exact Descriptors.file_dup2_ne d₁ fd' hfd
      · rfl
    · split
      · rw [Descriptors.file_dup2_self, h0, h₁ fd' (Ne.symm h'.ne_stdout), h'.target]
      · exact h0
  rw [← hd₁]
  dsimp only
  rw [← hd₂]
  constructor
  · rw [Descriptors.file_dup2_self]
    by_cases hinput : input = 0
    · rw [if_pos hinput, hinput, hin, Option.or_self]
    · rw [if_neg hinput, h₂ input hinput, h₁ input h'.source_ne, h'.source, Option.some_or]
  · rw [Descriptors.file_dup2_ne d₂ input (by decide), h₂ 1 (by decide), hout]

end

/-! ## The shell -/

/-- The descriptors of the shell before a call of execCommand. -/
structure Ready (d : Descriptors (File α)) (a b : File α) (input : Nat) (z : File α) : Prop where
  stdin : d.file 0 = some a
  stdout : d.file 1 = some b
  source : d.file input = some z
  source_ne : input ≠ 1

/-- With the pipe. -/
theorem Ready.holds (h : Ready d a b input z) (k : Nat) :
    Holds ((d.allocate (.readEnd k)).2.allocate (.writeEnd k)).2 a b input z
      ((d.allocate (.readEnd k)).2.allocate (.writeEnd k)).1 (some (.writeEnd k)) := by
  have h0 := Descriptors.file_allocate_open (y := .readEnd k) h.stdin
  have h1 := Descriptors.file_allocate_open (y := .readEnd k) h.stdout
  have hz := Descriptors.file_allocate_open (y := .readEnd k) h.source
  exact ⟨Descriptors.file_allocate_open h0, Descriptors.file_allocate_open h1, Descriptors.file_allocate_open hz,
    Descriptors.file_allocate _ _, Descriptors.lowest_ne h0, Descriptors.lowest_ne h1, Descriptors.lowest_ne hz,
    h.source_ne⟩

/-- After a call that is not the last, the input is the read end of the pipe. -/
theorem Ready.next (h : Ready d a b input z) (k : Nat) (command : Command) (first : Nat) (background : Bool) :
    Ready (execCommand k command input first 0 background d).shell a b
        (execCommand k command input first 0 background d).returned (.readEnd k) ∧
      (execCommand k command input first 0 background d).returned ≠ 0 := by
  have hr := Descriptors.file_allocate d (.readEnd k)
  have hr' := Descriptors.file_allocate_open (y := .writeEnd k) hr
  have hr1 := Ne.symm (Descriptors.lowest_ne h.stdin)
  have hne : ∀ {fd : Nat} {x : File α}, d.file fd = some x → fd ≠ (d.allocate (.readEnd k)).1 :=
    fun hfd => Descriptors.lowest_ne hfd
  have hholds := h.holds k
  -- the two calls of close leave the other descriptors
  have hclose : ∀ fd, fd ≠ ((d.allocate (.readEnd k)).2.allocate (.writeEnd k)).1 → (input ≠ 0 → fd ≠ input) →
      (execCommand k command input first 0 background d).shell.file fd =
        ((d.allocate (.readEnd k)).2.allocate (.writeEnd k)).2.file fd := by
    intro fd hfd hinput
    simp only [execCommand]
    rw [if_neg (by decide)]
    split
    · next hne => rw [Descriptors.file_close_ne _ (hinput hne), Descriptors.file_close_ne _ hfd]
    · exact Descriptors.file_close_ne _ hfd
  refine ⟨⟨?_, ?_, ?_, Ne.symm (hne h.stdout)⟩, hr1⟩
  · rw [hclose 0 hholds.ne_stdin (fun h0 => Ne.symm h0), hholds.stdin]
  · rw [hclose 1 hholds.ne_stdout (fun _ => Ne.symm h.source_ne), hholds.stdout]
  · have hr0 : (d.allocate (.readEnd k)).1 ≠ ((d.allocate (.readEnd k)).2.allocate (.writeEnd k)).1 :=
      Descriptors.lowest_ne hr
    rw [show (execCommand k command input first 0 background d).returned = (d.allocate (.readEnd k)).1 from rfl,
      hclose _ hr0 (fun _ => Ne.symm (hne h.source)), hr']

/-! ## The pipeline -/

variable {stdin stdout : α} {commands : List Command}

theorem childTarget_plain (hin : command.redirectInPath = none) (hout : command.redirectOutPath = none) :
    childTarget k command false = some (.writeEnd k : File α) := by
  rw [childTarget, hin, hout]
  rfl

/-- The last command takes its input from the pipe, and no input file is in the way of its output file. -/
theorem execCommand_last (h : Ready d (.inherited stdin) (.inherited stdout) input (.readEnd k)) (hinput : input ≠ 0)
    (hin : command.redirectInPath = none) :
    (execCommand (k + 1) command input 0 1 false d).child.file 0 = some (.readEnd k) ∧
      (execCommand (k + 1) command input 0 1 false d).child.file 1 =
        some (stdoutFile stdout (k + 2) (k + 1) command) := by
  obtain ⟨h0, h1⟩ := execChild_last (h.holds (k + 1)) command 0 false
  rw [if_neg hinput] at h0
  refine ⟨h0, h1.trans ?_⟩
  rw [stdoutFile, if_pos rfl, childTarget, hin]
  cases command.redirectOutPath with
  | none => rfl
  | some path => rfl

theorem execCommand_middle (h : Ready d (.inherited stdin) (.inherited stdout) input (.readEnd k)) (hinput : input ≠ 0)
    (hin : command.redirectInPath = none) (hout : command.redirectOutPath = none) :
    (execCommand (k + 1) command input 0 0 false d).child.file 0 = some (.readEnd k) ∧
      (execCommand (k + 1) command input 0 0 false d).child.file 1 = some (.writeEnd (k + 1)) := by
  obtain ⟨h0, h1⟩ := execChild_middle (h.holds (k + 1)) command false hinput
  rw [childTarget_plain hin hout] at h1
  exact ⟨h0, h1⟩

/-- The commands behind the first, in the foreground. -/
theorem execCommands_rest {n : Nat} (h : Ready d (.inherited stdin) (.inherited stdout) input (.readEnd k))
    (hinput : input ≠ 0) (hin : ∀ c ∈ commands, c.redirectInPath = none)
    (hout : ∀ c ∈ commands.dropLast, c.redirectOutPath = none) (hn : n = k + 1 + commands.length) :
    Wired stdin stdout n (k + 1) commands (execCommands false (k + 1) commands input 0 d) := by
  induction commands generalizing k input d with
  | nil => trivial
  | cons command commands ih =>
    have hcommand := hin command List.mem_cons_self
    cases commands with
    | nil =>
      have hlast := execCommand_last h hinput hcommand
      rw [hn]
      exact ⟨hlast, trivial⟩
    | cons next commands =>
      have hplain := hout command (by simp)
      obtain ⟨h0, h1⟩ := execCommand_middle h hinput hcommand hplain
      obtain ⟨hready, hreturned⟩ := h.next (k + 1) command 0 false
      have hlt : k + 1 + 1 ≠ n := by
        rw [hn, List.length_cons, List.length_cons]
        omega
      refine ⟨⟨h0, ?_⟩, ih hready hreturned (fun c hc => hin c (List.mem_cons_of_mem command hc)) (fun c hc => ?_) ?_⟩
      · rw [stdoutFile, if_neg hlt]
        exact h1
      · exact hout c (by simp [hc])
      · rw [hn, List.length_cons, List.length_cons]
        omega

/-- The pipelines that are wired as they are written: a single command in the foreground with at most
    one redirect, or in the background with none, and a longer pipeline in the foreground whose
    first command takes its input from the shell. -/
def Wirable (p : Pipeline) : Prop :=
  match p.commands with
  | [] => True
  | [command] => if p.isBackground then command.redirectInPath = none ∧ command.redirectOutPath = none
      else command.redirectInPath = none ∨ command.redirectOutPath = none
  | command :: _ :: _ => p.isBackground = false ∧ command.redirectInPath = none

theorem execPipeline_single (h : Ready d (.inherited stdin) (.inherited stdout) 0 (.inherited stdin)) :
    Wired stdin stdout 1 0 [command] (execCommands background 0 [command] 0 1 d) ↔
      Wirable { commands := [command], isBackground := background } := by
  obtain ⟨h0, h1⟩ := execChild_last (h.holds 0) command 1 background
  have hwired : Wired stdin stdout 1 0 [command] (execCommands background 0 [command] 0 1 d) ↔
      (if command.redirectInPath.isSome then (childTarget 0 command background).or (some (.inherited stdin))
          else some (.inherited stdin)) = some (stdinFile stdin 0 command) ∧
        (if command.redirectOutPath.isSome then (childTarget 0 command background).or (some (.inherited stdout))
          else some (.inherited stdout)) = some (stdoutFile stdout 1 0 command) := by
    rw [if_pos rfl] at h0
    rw [← h0, ← h1]
    exact and_iff_left trivial
  rw [hwired, stdinFile, stdoutFile, if_pos rfl, if_pos rfl]
  cases hin : command.redirectInPath with
  | none =>
    cases hout : command.redirectOutPath with
    | none => simp [Wirable, hin, hout]
    | some outPath => cases background <;> simp [Wirable, childTarget, hin, hout]
  | some inPath =>
    cases hout : command.redirectOutPath with
    | none => cases background <;> simp [Wirable, childTarget, hin, hout]
    | some outPath => cases background <;> simp [Wirable, childTarget, hin, hout]

/-- The first command of a longer pipeline writes to its pipe only if fd[1] is still the write end. -/
theorem execPipeline_longer {next : Command}
    (h : Ready d (.inherited stdin) (.inherited stdout) 0 (.inherited stdin))
    (hredirect : Redirectable (command :: next :: commands)) :
    Wired stdin stdout (commands.length + 2) 0 (command :: next :: commands)
        (execCommands background 0 (command :: next :: commands) 0 1 d) ↔
      background = false ∧ command.redirectInPath = none := by
  obtain ⟨hin, hout⟩ := hredirect
  have hplain := hout command (by simp)
  obtain ⟨h0, h1⟩ := execChild_first (h.holds 0) command background rfl
  obtain ⟨hready, hreturned⟩ := h.next 0 command 1 background
  constructor
  · intro hw
    have hwrite : (childTarget 0 command background).or (some (.inherited stdout)) = some (.writeEnd 0) := by
      rw [← h1]
      exact hw.1.2.trans (by rw [stdoutFile, if_neg (by omega)])
    cases background with
    | true => simp [childTarget] at hwrite
    | false =>
      refine ⟨rfl, ?_⟩
      cases hpath : command.redirectInPath with
      | none => rfl
      | some path => simp [childTarget, hpath] at hwrite
  · intro hw
    obtain ⟨rfl, hnone⟩ := hw
    rw [childTarget_plain hnone hplain] at h1
    refine ⟨⟨h0.trans ?_, h1.trans ?_⟩, execCommands_rest hready hreturned hin ?_ ?_⟩
    · rw [stdinFile, if_pos rfl, hnone]
    · rw [stdoutFile, if_neg (by omega)]
      rfl
    · intro c hc
      exact hout c (by simp [hc])
    · rw [List.length_cons]
      omega

/-- Which pipelines are wired as they are written. -/
theorem execPipeline_wired {p : Pipeline} (hredirect : Redirectable p.commands) {shell : Descriptors α}
    {stdin stdout : α} (h0 : shell.file 0 = some stdin) (h1 : shell.file 1 = some stdout) :
    Wired stdin stdout p.commands.length 0 p.commands (execPipeline p shell) ↔ Wirable p := by
  have h : Ready (shell.map .inherited) (.inherited stdin) (.inherited stdout) 0 (.inherited stdin) := by
    have hstdin : (shell.map File.inherited).file 0 = some (.inherited stdin) := by
      rw [Descriptors.file_map, h0, Option.map_some]
    refine ⟨hstdin, ?_, hstdin, by decide⟩
    rw [Descriptors.file_map, h1, Option.map_some]
  obtain ⟨commands, background⟩ := p
  cases commands with
  | nil => exact iff_of_true trivial trivial
  | cons command commands =>
    cases commands with
    | nil => exact execPipeline_single h
    | cons next commands => exact execPipeline_longer h hredirect

/-- "ls | wc > out" -/
theorem execPipeline_wired_wc :
    Wired 0 1 2 0 [⟨[[108, 115]], none, none⟩, ⟨[[119, 99]], none, some [111, 117, 116]⟩]
      (execPipeline ⟨[⟨[[108, 115]], none, none⟩, ⟨[[119, 99]], none, some [111, 117, 116]⟩], false⟩
        (⟨[some 0, some 1, some 2]⟩ : Descriptors Nat)) :=
  (execPipeline_wired (p := ⟨[⟨[[108, 115]], none, none⟩, ⟨[[119, 99]], none, some [111, 117, 116]⟩], false⟩)
    ⟨by decide, by decide⟩ rfl rfl).mpr ⟨rfl, rfl⟩

/-- "cat < x > y": the standard output is the input file. -/
theorem execPipeline_wired_cat :
    Redirectable [⟨[[99, 97, 116]], some [120], some [121]⟩] ∧
      ¬ Wired 0 1 1 0 [⟨[[99, 97, 116]], some [120], some [121]⟩]
        (execPipeline ⟨[⟨[[99, 97, 116]], some [120], some [121]⟩], false⟩
          (⟨[some 0, some 1, some 2]⟩ : Descriptors Nat)) := by
  refine ⟨⟨by decide, by decide⟩, fun hw => ?_⟩
  have hout := hw.1.2
  revert hout
  decide

end EC440.Shell
