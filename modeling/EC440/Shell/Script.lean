/-
  A session of the shell from the bytes of its standard input: main cuts them into lines with fgets,
  pipeline_build parses each line, and the commands are forked as in `Processes`.

  fgets gives a line that is longer than its buffer in pieces, and each piece is executed as a line.
  The children share the standard input with the shell, and any of them may read or seek it.
-/
import EC440.Shell.Robust
import EC440.Shell.Processes

namespace EC440.Shell

open EC440.Lib

/-- fgets(buf, size, stdin): the characters stored and the rest of the input; `none` is NULL. -/
def fgets (size : Nat) (input : Str) : Option (Str × Str) :=
  if input = [] then none
  else
    let n := min (size - 1) ((input.takeWhile (· ≠ 10)).length + 1)
    some (input.take n, input.drop n)

theorem fgets_rest {input line rest : Str} (h : fgets maxLineLength input = some (line, rest)) :
    rest.length < input.length := by
  obtain ⟨hne, h⟩ := Option.ite_none_left_eq_some.mp h
  obtain ⟨-, rfl⟩ := Prod.mk.inj (Option.some.inj h)
  have hpos := List.length_pos_iff.mpr hne
  rw [List.length_drop, maxLineLength]
  omega

/-- What fgets gives, call after call. -/
def inputLines (input : Str) : List Str :=
  match _h : fgets maxLineLength input with
  | none => []
  | some (line, rest) => line :: inputLines rest
termination_by input.length
decreasing_by exact fgets_rest _h

theorem inputLines_cons {input line rest : Str} (h : fgets maxLineLength input = some (line, rest)) :
    inputLines input = line :: inputLines rest := by
  rw [inputLines]
  split
  · next hnone =>
    rw [hnone] at h
    cases h
  · next line' rest' hsome =>
    rw [hsome] at h
    obtain ⟨rfl, rfl⟩ := Prod.mk.inj (Option.some.inj h)
    rfl

theorem inputLines_nil {input : Str} (h : fgets maxLineLength input = none) : inputLines input = [] := by
  rw [inputLines]
  split
  · rfl
  · next line rest hsome =>
    rw [hsome] at h
    cases h

/-- The string in the buffer: a NUL that was read ends it. -/
def bufferText (line : Str) : Str := line.takeWhile (· ≠ 0)

/-- The commands of a line, by its text. -/
def lineCommands (line : Str) : List Command :=
  (chain ((toks pipeChar (bufferText line)).filterMap link)).map Parsed.command

/-- Every redirect of the line has a path. -/
def Complete (line : Str) : Prop := ∀ w ∈ toks pipeChar (bufferText line), link w ≠ none

instance (line : Str) : Decidable (Complete line) := inferInstanceAs (Decidable (∀ _ ∈ _, _))

/-! ## The session -/

structure Session (α : Type) where
  shell : Myshell α
  input : Str

/-- fgets gives a line and pipeline_build a pipeline, the shell or a child goes on, or a child that runs
    reads or seeks the standard input: it shares it with the shell. -/
inductive Act
  | read (line : Str) (p : Pipeline)
  | shell (e : Event)
  | shared (input : Str)

def Act.events : Act → List Event
  | .read _ p => [.line p]
  | .shell e => [e]
  | .shared _ => []

def events (acts : List Act) : List Event := acts.flatMap Act.events

def linesRead (acts : List Act) : List Str :=
  acts.filterMap fun a => match a with
    | .read line _ => some line
    | _ => none

/-- The steps of the shell; a line is what pipeline_build makes of the buffer, in whatever memory. A child
    leaves any input: cat reads some of it, and one whose execvp failed seeks back in exit. -/
inductive Session.Step {α : Type} (s : Session α) : Act → Session α → Prop
  | line {shell : Myshell α} {line rest : Str} {m : Mem} {commandLine : Ptr} {r : Built} {p : Pipeline} :
      fgets maxLineLength s.input = some (line, rest) → m.heap.str commandLine = some (bufferText line) →
      pipelineBuild commandLine m = some r → r.read = some p → Myshell.Step s.shell (.line p) shell →
      Session.Step s (.read line p) ⟨shell, rest⟩
  | eof {shell : Myshell α} : fgets maxLineLength s.input = none → Myshell.Step s.shell .eof shell →
      Session.Step s (.shell .eof) ⟨shell, s.input⟩
  | other {shell : Myshell α} {e : Event} : ¬ e.Reads → Myshell.Step s.shell e shell →
      Session.Step s (.shell e) ⟨shell, s.input⟩
  | shared {c : Child α} {input : Str} : c ∈ s.shell.children → c.zombie = false →
      Session.Step s (.shared input) ⟨s.shell, input⟩

variable {α : Type} {base : Descriptors α} {s s' : Session α} {e : Event} {a : Act} {acts : List Act}
  {input line rest : Str}

theorem events_snoc (acts : List Act) (a : Act) : events (acts ++ [a]) = events acts ++ a.events := by
  rw [events, List.flatMap_append, List.flatMap_singleton]
  rfl

theorem linesRead_snoc (acts : List Act) (a : Act) : linesRead (acts ++ [a]) = linesRead acts ++ linesRead [a] :=
  List.filterMap_append

theorem fgets_line (h : fgets maxLineLength input = some (line, rest)) : line.length ≤ maxLineLength := by
  obtain ⟨-, h⟩ := Option.ite_none_left_eq_some.mp h
  obtain ⟨rfl, -⟩ := Prod.mk.inj (Option.some.inj h)
  rw [List.length_take, maxLineLength]
  omega

theorem chain_ne_nil (ls : List Parsed) : chain ls ≠ [] := by
  induction ls using List.reverseRecOn with
  | nil => exact List.cons_ne_nil _ _
  | append_singleton ls l _ =>
    rw [chain_snoc, joined]
    split
    · simp
    · simp

/-- What pipeline_build makes of a line that was read. -/
theorem pipelineBuild_line (hf : fgets maxLineLength input = some (line, rest)) (hc : Complete line) {m : Mem}
    {commandLine : Ptr} (hs : m.heap.str commandLine = some (bufferText line)) :
    ∃ r p, pipelineBuild commandLine m = some r ∧ r.read = some p ∧ p.commands = lineCommands line := by
  have hlen : (bufferText line).length ≤ maxLineLength :=
    (List.takeWhile_prefix _).length_le.trans (fgets_line hf)
  obtain ⟨r, hr, hread⟩ := pipelineBuild_chain hs hlen hc
  exact ⟨r, _, hr, hread, rfl⟩

/-- The shell has ended only by a step that says so. -/
theorem ended_of_other {s s' : Myshell α} (hs : Myshell.Step s e s') (he : ¬ e.Reads) (h : s'.pc = .ended) :
    s.pc = .ended := by
  by_contra hne
  exact Myshell.ended_step hs he hne h

/-- The commands of the lines read are forked, or still to be. -/
def Executes (acts : List Act) (s : Session α) : Prop :=
  Myshell.forked (events acts) ++ Myshell.rest s.shell.pc = (linesRead acts).flatMap lineCommands

theorem Executes.step (h : Executes acts s) (hc : ∀ line ∈ linesRead (acts ++ [a]), Complete line)
    (hs : s.Step a s') : Executes (acts ++ [a]) s' := by
  have same : ∀ {e : Event} {shell : Myshell α}, ¬ (∃ p, e = .line p) → Myshell.Step s.shell e shell →
      Myshell.forked (events acts ++ [e]) ++ Myshell.rest shell.pc = (linesRead acts).flatMap lineCommands := by
    intro e shell he hstep
    have hnone : Myshell.given [e] = [] := by
      cases e with
      | line p => exact absurd ⟨p, rfl⟩ he
      | _ => rfl
    rw [Myshell.forked_snoc, List.append_assoc, ← Myshell.rest_given hstep, hnone, List.append_nil]
    exact h
  unfold Executes
  rw [events_snoc, linesRead_snoc]
  cases hs with
  | @line shell line rest m commandLine r p hf hs hbuild hread hstep =>
    have hcomplete : Complete line := hc line (by rw [linesRead_snoc]; exact List.mem_append_right _ List.mem_cons_self)
    obtain ⟨r', p', hbuild', hread', hp⟩ := pipelineBuild_line hf hcomplete hs
    obtain rfl : r' = r := Option.some.inj (hbuild'.symm.trans hbuild)
    obtain rfl : p' = p := Option.some.inj (hread'.symm.trans hread)
    have hgiven := Myshell.rest_given hstep
    rw [Act.events, Myshell.forked_snoc, List.append_assoc, ← hgiven, ← List.append_assoc, h, List.flatMap_append]
    simp [Myshell.given, linesRead, hp]
  | eof hf hstep =>
    rw [show linesRead [Act.shell .eof] = [] from rfl, List.append_nil]
    refine same ?_ hstep
    rintro ⟨p, hp⟩
    cases hp
  | @other shell e he hstep =>
    rw [show linesRead [Act.shell e] = [] from rfl, List.append_nil]
    refine same ?_ hstep
    rintro ⟨p, rfl⟩
    exact he trivial
  | @shared c input hmem hz =>
    rw [show linesRead [Act.shared input] = [] from rfl, Act.events, List.append_nil, List.append_nil]
    exact h

/-- The lines so far are those with which the input begins. -/
structure ReadSoFar (input : Str) (acts : List Act) (s : Session α) : Prop where
  lines : inputLines input = linesRead acts ++ inputLines s.input
  ended : s.shell.pc = .ended → inputLines s.input = []

theorem ReadSoFar.step (h : ReadSoFar input acts s) (hshared : ∀ input', a ≠ .shared input') (hs : s.Step a s') :
    ReadSoFar input (acts ++ [a]) s' := by
  cases hs with
  | @line shell line rest m commandLine r p hf hs hbuild hread hstep =>
    refine ⟨?_, fun hend => ?_⟩
    · rw [h.lines, inputLines_cons hf, linesRead_snoc, List.append_assoc]
      rfl
    · cases hstep
      cases hend
  | eof hf hstep =>
    refine ⟨?_, fun _ => inputLines_nil hf⟩
    rw [h.lines, linesRead_snoc, List.append_assoc]
    rfl
  | other he hstep =>
    refine ⟨?_, fun hend => h.ended (ended_of_other hstep he hend)⟩
    rw [h.lines, linesRead_snoc, List.append_assoc]
    rfl
  | @shared c input' hmem hz => exact absurd rfl (hshared input')

/-- main is never stuck at fgets. -/
theorem Session.reads (hc : ∀ line rest, fgets maxLineLength s.input = some (line, rest) → Complete line)
    (hpc : s.shell.pc = .prompt) (hi : s.shell.inHandler = false) :
    ∃ a s', s.Step a s' ∧ ((∃ line p, a = .read line p) ∨ a = .shell .eof) := by
  cases hf : fgets maxLineLength s.input with
  | none => exact ⟨_, _, .eof hf (.eof hpc hi), .inr rfl⟩
  | some lr =>
    obtain ⟨line, rest⟩ := lr
    have hz : (0 : UInt8) ∉ bufferText line := by
      intro hmem
      have hne := List.all_eq_true.mp List.all_takeWhile 0 hmem
      simp at hne
    have hs := push_str ({} : Heap) hz []
    obtain ⟨r, p, hbuild, hread, hp⟩ := pipelineBuild_line (m := ⟨_, none⟩) hf (hc line rest hf) hs
    have hne : p.commands ≠ [] := by
      rw [hp, lineCommands, Ne, List.map_eq_nil_iff]
      exact chain_ne_nil _
    exact ⟨_, _, .line hf hs hbuild hread (.line hpc hi hne), .inl ⟨line, p, rfl⟩⟩

/-- What the shell runs is what it reads. When the redirects of the lines have paths, in whatever order
    children end and signals come: the commands forked so far, and those of the line that is executed,
    are the commands of the lines fgets has given, each once and in their order; and the shell goes on
    at every prompt. When no child touches the standard input these are the lines written on it, and
    when the shell ends all of them were executed. -/
theorem script_executed (hrun : Run Session.Step ⟨Myshell.start base, input⟩ acts s)
    (hc : ∀ line ∈ linesRead acts, Complete line) :
    Myshell.forked (events acts) ++ Myshell.rest s.shell.pc = (linesRead acts).flatMap lineCommands ∧
    (s.shell.pc = .prompt → s.shell.inHandler = false →
      (∀ line rest, fgets maxLineLength s.input = some (line, rest) → Complete line) →
      ∃ a s', s.Step a s' ∧ ((∃ line p, a = .read line p) ∨ a = .shell .eof)) ∧
    ((∀ input', .shared input' ∉ acts) → inputLines input = linesRead acts ++ inputLines s.input ∧
      (s.shell.pc = .ended → Myshell.forked (events acts) = (inputLines input).flatMap lineCommands)) := by
  have hexecutes : (∀ line ∈ linesRead acts, Complete line) → Executes acts s := by
    refine hrun.invariant_trace (I := fun acts s => (∀ line ∈ linesRead acts, Complete line) → Executes acts s) ?_ ?_
    · intro _
      exact (rfl : Myshell.forked (events []) ++ Myshell.rest (Myshell.start base).pc = [])
    · intro acts s a s' h hs hc
      refine (h fun line hline => hc line ?_).step hc hs
      rw [linesRead_snoc]
      exact List.mem_append_left _ hline
  have hexecutes := hexecutes hc
  have hread : (∀ input', .shared input' ∉ acts) → ReadSoFar input acts s := by
    refine hrun.invariant_trace (I := fun acts s => (∀ input', .shared input' ∉ acts) → ReadSoFar input acts s) ?_ ?_
    · exact fun _ => ⟨rfl, fun hend => by cases hend⟩
    · intro acts s a s' h hs hshared
      refine (h fun input' hmem => hshared input' (List.mem_append_left _ hmem)).step (fun input' he => ?_) hs
      exact hshared input' (by rw [he]; exact List.mem_append_right _ (List.mem_singleton_self _))
  refine ⟨hexecutes, fun hpc hi hline => Session.reads hline hpc hi, fun hshared => ?_⟩
  have h := hread hshared
  refine ⟨h.lines, fun hend => ?_⟩
  have hcommands : Myshell.forked (events acts) ++ Myshell.rest s.shell.pc = _ := hexecutes
  rw [hend, Myshell.rest, List.append_nil] at hcommands
  rw [hcommands, h.lines, h.ended hend, List.append_nil]

/-- "ls" and a newline: ls is forked, leaves the standard input as it is, and ends. -/
theorem script_executed_ls : ∃ acts s, Run Session.Step ⟨Myshell.start Myshell.terminal, [108, 115, 10]⟩ acts s ∧
    s.shell = Myshell.endOfLs ∧
    Myshell.forked (events acts) ++ Myshell.rest s.shell.pc = (linesRead acts).flatMap lineCommands ∧
    inputLines [108, 115, 10] = linesRead acts ++ inputLines s.input := by
  have hf : fgets maxLineLength [108, 115, 10] = some ([108, 115, 10], []) := by decide
  have hc : Complete [108, 115, 10] := by decide +kernel
  have hs := push_str ({} : Heap) (show (0 : UInt8) ∉ bufferText [108, 115, 10] by decide) []
  obtain ⟨r, hbuild, hread⟩ := pipelineBuild_chain (m := ⟨_, none⟩) hs (by decide) hc
  have hls : Pipeline.mk (lineCommands [108, 115, 10]) (decide (ampersand <:+: bufferText [108, 115, 10])) =
      ⟨[Myshell.ls], false⟩ := by
    decide +kernel
  have hread : Session.Step ⟨Myshell.start Myshell.terminal, [108, 115, 10]⟩ _ _ :=
    .line hf hs hbuild (hread.trans (congrArg some hls)) Myshell.step_line_ls
  have hrun := ((Run.start.step hread).step (.other id Myshell.step_fork_ls)).step (.other id Myshell.step_exit_ls)
  obtain ⟨hcommands, -, hlines⟩ := script_executed hrun (by simpa [linesRead] using hc)
  exact ⟨_, _, hrun, rfl, hcommands, (hlines (by simp)).1⟩

end EC440.Shell
