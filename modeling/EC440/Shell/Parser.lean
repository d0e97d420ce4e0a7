/-
  myshell_parser.c. A function works on the memory of `Lib.CString`, and is `none` where its
  behaviour is undefined or it does not return: NULL or a byte outside a block is accessed,
  command_args is written behind its end, or a number does not fit its int.

  The structs pipeline_command have a list of their own, in the order they are allocated; a next
  pointer is a place in it. String literals are given by their characters.
-/
import Mathlib.Algebra.Group.Int.Defs
import Mathlib.Algebra.Group.Nat.Defs
import EC440.Lib.CString

namespace EC440.Shell

open EC440.Lib

def whitespaceChars : Str := [10, 9, 32]

def specialChars : Str := [38, 124, 60, 62]

def ampersand : Str := [38]

def pipeChar : Str := [124]

def redIn : Str := [60]

def redOut : Str := [62]

def maxLineLength : Nat := 512

def maxArgvLength : Nat := maxLineLength / 2 + 1

structure PipelineCommand where
  commandArgs : List (Option Ptr)
  redirectInPath : Option Ptr
  redirectOutPath : Option Ptr
  next : Option Nat
  deriving DecidableEq, Repr

def pipelineCommandAlloc : PipelineCommand :=
  { commandArgs := List.replicate maxArgvLength none, redirectInPath := none, redirectOutPath := none, next := none }

/-- The memory, and the position that strtok keeps between its calls. -/
structure Mem where
  heap : Heap
  saved : Option Ptr

def Mem.strtok (m : Mem) (s : Option Ptr) (delim : Str) : Option (Option Ptr × Mem) := do
  let (token, save, heap) ← m.heap.strtokR (← s <|> m.saved) delim
  return (token, { heap := heap, saved := some save })

def findChars (h : Heap) (line : Ptr) (chars : Str) : Option Bool :=
  (h.str line).map fun s => (strstr s chars).isSome

/-! ## deleteWords -/

/-- The value of an int. -/
def int (n : Int) : Option Int := if -2 ^ 31 ≤ n ∧ n < 2 ^ 31 then some n else none

/-- The loop that counts. The fuel bounds the tests of `s[i]`; `countWords_eq` shows that
    `strlen(s) + 1` of it is enough. -/
def countWords (h : Heap) (s oldWord : Ptr) (oldWordLength : Int) : Nat → Int → Int → Option (Int × Int)
  | 0, _, _ => none
  | fuel + 1, i, c => do
      if (← h.load (s + i.toNat)) = 0 then
        return (i, c)
      else if strstr (← h.str (s + i.toNat)) (← h.str oldWord) = some 0 then
        let i ← int (i + (oldWordLength - 1))
        countWords h s oldWord oldWordLength fuel (← int (i + 1)) (← int (c + 1))
      else
        countWords h s oldWord oldWordLength fuel (← int (i + 1)) c

/-- The loop that copies. -/
def copyWords (oldWord : Ptr) (newWord : Str) (newWordLength oldWordLength : Int) (result : Ptr) :
    Nat → Int → Ptr → Heap → Option (Int × Heap)
  | 0, _, _, _ => none
  | fuel + 1, i, s, h => do
      let char ← h.load s
      if char = 0 then
        return (i, h)
      else if strstr (← h.str s) (← h.str oldWord) = some 0 then
        let h ← h.strcpy (result + i.toNat) newWord
        copyWords oldWord newWord newWordLength oldWordLength result fuel (← int (i + newWordLength))
          (s + oldWordLength.toNat) h
      else
        let h ← h.store (result + i.toNat) char
        copyWords oldWord newWord newWordLength oldWordLength result fuel (← int (i + 1)) (s + 1) h

def deleteWords (h : Heap) (s : Ptr) (oldWord : Option Ptr) (newWord : Str) : Option (Ptr × Heap) := do
  let oldWord ← oldWord
  let newWordLength ← int newWord.length
  let oldWordLength ← int (← h.strlen oldWord)
  let n ← h.strlen s
  let (i, c) ← countWords h s oldWord oldWordLength (n + 1) 0 0
  let size ← int ((← int (i + (← int (c * (newWordLength - oldWordLength))))) + 1)
  let (result, h) := h.malloc size.toNat
  let (i, h) ← copyWords oldWord newWord newWordLength oldWordLength result (n + 1) 0 s h
  let h ← h.store (result + i.toNat) 0
  return (result, h)

/-! ## p_command_link -/

/-- The path of a redirect, in a copy of the line. -/
def redirectPath (red : Str) (cline : Ptr) (m : Mem) : Option (Option Ptr × Mem) := do
  let (line, heap) ← m.heap.strdup cline
  let (_, m) ← Mem.strtok { m with heap := heap } (some line) red
  let (path, m) ← m.strtok none red
  let (path, m) ← m.strtok path whitespaceChars
  m.strtok path specialChars

/-- The body of the two tests for a redirect: the path, and the line without it. -/
def redirect (red : Str) (cline : Ptr) (m : Mem) : Option (Option Ptr × Ptr × Mem) := do
  let (path, m) ← redirectPath red cline m
  let (line, heap) ← deleteWords m.heap cline path []
  let (cline, heap) ← heap.strdup line
  let heap ← heap.free line
  return (path, cline, { m with heap := heap })

/-- `if(findChars(cline, red)) ...`, with the field of the command that takes the path. -/
def linkRedirect (red : Str) (field : Option Ptr → PipelineCommand → PipelineCommand) (cline : Ptr)
    (pCommand : PipelineCommand) (m : Mem) : Option (Ptr × PipelineCommand × Mem) :=
  (findChars m.heap cline red).bind fun found =>
    if found then (redirect red cline m).map fun (path, cline, m) => (cline, field path pCommand, m)
    else some (cline, pCommand, m)

def setIn (path : Option Ptr) (c : PipelineCommand) : PipelineCommand := { c with redirectInPath := path }

def setOut (path : Option Ptr) (c : PipelineCommand) : PipelineCommand := { c with redirectOutPath := path }

/-- `command_args[pos] = tok` -/
def setArg (pos : Nat) (tok : Ptr) : Heap × List (Option Ptr) → Option (Heap × List (Option Ptr))
  | (h, args) => if pos < args.length then some (h, args.set pos (some tok)) else none

/-- The loop over the special characters, and `pos++`. -/
def linkArg (token : Ptr) :
    Heap × List (Option Ptr) × Nat → Option (Heap × List (Option Ptr) × Nat)
  | (h, args, pos) => do
      let (h, args) ← tokens specialChars (setArg pos) token (h, args)
      let pos ← int (pos + 1)
      return (h, args, pos.toNat)

def pCommandLink (cline : Ptr) (pCommand : PipelineCommand) (m : Mem) : Option (PipelineCommand × Mem) := do
  let (cline, pCommand, m) ← linkRedirect redIn setIn cline pCommand m
  let (cline, pCommand, m) ← linkRedirect redOut setOut cline pCommand m
  let (heap, args, _) ← tokens whitespaceChars linkArg cline (m.heap, pCommand.commandArgs, 0)
  return ({ pCommand with commandArgs := args }, { m with heap := heap })

/-! ## pipeline_build -/

/-- What the loop of pipeline_build works on beside the memory: the structs, and `pipe->commands`. -/
structure Build where
  saved : Option Ptr
  structs : List PipelineCommand
  commands : Nat

/-- `while(temp->next != NULL) temp = temp->next` -/
def lastCommand (structs : List PipelineCommand) : Nat → Nat → Option Nat
  | 0, _ => none
  | fuel + 1, temp => do
      let c ← structs[temp]?
      match c.next with
      | none => some temp
      | some next => lastCommand structs fuel next

def pipelines (pipeTokens : Ptr) : Heap × Build → Option (Heap × Build)
  | (h, pipe) => do
      let (command, m) ← pCommandLink pipeTokens pipelineCommandAlloc { heap := h, saved := pipe.saved }
      let last := pipe.structs.length
      let structs := pipe.structs ++ [command]
      let first ← structs[pipe.commands]?
      if (← first.commandArgs[0]?) = none then
        return (m.heap, { saved := m.saved, structs := structs, commands := last })
      else
        -- a struct is allocated for temp and never used
        let structs := structs ++ [pipelineCommandAlloc]
        let temp ← lastCommand structs structs.length pipe.commands
        let c ← structs[temp]?
        return (m.heap,
          { pipe with saved := m.saved, structs := structs.set temp { c with next := some last } })

/-- What pipeline_build leaves: `*pipeline_v`, the structs and the memory. -/
structure Built where
  structs : List PipelineCommand
  commands : Nat
  isBackground : Bool
  heap : Heap

/-- The copy of the line that is made, and cut at the ampersand, when there is one. -/
def cutBackground (cline : Ptr) (m : Mem) : Option Mem := do
  let (line, heap) ← m.heap.strdup cline
  let (_, m) ← Mem.strtok { m with heap := heap } (some line) ampersand
  return m

/-- Both branches of the test for a pipe are the loop below. -/
def pipelineBuild (commandLine : Ptr) (m : Mem) : Option Built := do
  let (cline, heap) ← m.heap.strdup commandLine
  let background ← findChars heap cline ampersand
  let m ← if background then cutBackground cline { m with heap := heap } else some { m with heap := heap }
  let (heap, pipe) ← tokens pipeChar pipelines cline
    (m.heap, { saved := m.saved, structs := [pipelineCommandAlloc], commands := 0 })
  return { structs := pipe.structs, commands := pipe.commands, isBackground := background, heap := heap }

/-! ## What the structs say -/

structure Command where
  args : List Str
  redirectInPath : Option Str
  redirectOutPath : Option Str
  deriving DecidableEq, Repr

structure Pipeline where
  commands : List Command
  isBackground : Bool
  deriving DecidableEq, Repr

/-- The strings of command_args up to its NULL; `none` when there is no NULL. -/
def readArgs (h : Heap) : List (Option Ptr) → Option (List Str)
  | [] => none
  | none :: _ => some []
  | some p :: args => do
      let w ← h.str p
      let ws ← readArgs h args
      return w :: ws

def readPath (h : Heap) : Option Ptr → Option (Option Str)
  | none => some none
  | some p => (h.str p).map some

def PipelineCommand.read (h : Heap) (c : PipelineCommand) : Option Command := do
  let args ← readArgs h c.commandArgs
  let inPath ← readPath h c.redirectInPath
  let outPath ← readPath h c.redirectOutPath
  return { args := args, redirectInPath := inPath, redirectOutPath := outPath }

/-- The commands from the struct at a place on. -/
def readCommands (h : Heap) (structs : List PipelineCommand) : Nat → Nat → Option (List Command)
  | 0, _ => none
  | fuel + 1, i => do
      let c ← structs[i]?
      let command ← c.read h
      match c.next with
      | none => return [command]
      | some next => (readCommands h structs fuel next).map (command :: ·)

def Built.read (r : Built) : Option Pipeline :=
  (readCommands r.heap r.structs r.structs.length r.commands).map fun commands =>
    { commands := commands, isBackground := r.isBackground }

end EC440.Shell
