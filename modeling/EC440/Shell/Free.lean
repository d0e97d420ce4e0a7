/-
  pipeline_free on what pipeline_build has made. A struct pipeline_command that was freed is `none`
  in the list of the structs, so that a walk over it, or a second free, has no result.

  main moves `commands` along the list while it executes a line, and calls pipeline_free when the
  input ends; how much is freed depends on how far it has come.
-/
import EC440.Shell.Robust

namespace EC440.Shell

open EC440.Lib

abbrev Structs := List (Option PipelineCommand)

/-- free; nothing happens to NULL. -/
def Structs.free (structs : Structs) : Option Nat → Option Structs
  | none => some structs
  | some i => (structs[i]?).join.map fun _ => structs.set i none

/-- The loop of pipeline_free: what is left, `current_command` and `next_command`. -/
def freeLoop : Nat → Structs → Option Nat → Option Nat → Option (Structs × Option Nat × Option Nat)
  | 0, _, _, _ => none
  | _ + 1, structs, none, nextCommand => some (structs, none, nextCommand)
  | fuel + 1, structs, some currentCommand, _ => do
      let c ← (structs[currentCommand]?).join
      let structs ← structs.free (some currentCommand)
      freeLoop fuel structs c.next c.next

/-- The struct pipeline itself, which is freed at the end, is in no list. -/
def pipelineFree (structs : Structs) (commands : Option Nat) : Option Structs := do
  -- the struct that current_command is given first is lost at once
  let nextCommand := structs.length + 1
  let structs := structs ++ [some pipelineCommandAlloc, some pipelineCommandAlloc]
  let (structs, currentCommand, nextCommand) ← freeLoop (structs.length + 1) structs commands (some nextCommand)
  let structs ← structs.free nextCommand
  structs.free currentCommand

/-- The structs, before any is freed. -/
def Built.live (r : Built) : Structs := r.structs.map some

variable {structs structs' : Structs} {cells : List PipelineCommand} {ids : List Nat} {i fuel : Nat}
  {o nextCommand : Option Nat}

/-- Of the structs, those at `ids` are freed. -/
def Freed (structs : Structs) (ids : List Nat) (structs' : Structs) : Prop :=
  ∀ j, structs'[j]? = if j ∈ ids then some none else structs[j]?

theorem Freed.refl (structs : Structs) : Freed structs [] structs := by
  intro j
  rw [if_neg List.not_mem_nil]

/-- One struct is freed, and then others. -/
theorem Freed.cons {c : PipelineCommand} (hi : structs[i]? = some (some c))
    (h : Freed (structs.set i none) ids structs') : Freed structs (i :: ids) structs' := by
  intro j
  rw [h j]
  by_cases hj : j ∈ ids
  · rw [if_pos hj, if_pos (List.mem_cons_of_mem i hj)]
  · rw [if_neg hj]
    by_cases hij : j = i
    · rw [hij, if_pos List.mem_cons_self, List.getElem?_set_self (List.getElem?_eq_some_iff.mp hi).1]
    · rw [List.getElem?_set_ne (Ne.symm hij), if_neg]
      simp [hij, hj]

theorem free_live {c : PipelineCommand} (hi : structs[i]? = some (some c)) :
    structs.free (some i) = some (structs.set i none) := by
  rw [Structs.free, hi]
  rfl

/-- The loop frees a list of live structs: no struct is met twice. -/
theorem freeLoop_eq (nextCommand : Option Nat)
    (hlive : ∀ i ∈ ids, ∃ c, cells[i]? = some c ∧ structs[i]? = some (some c)) (hnodup : ids.Nodup)
    (hlinked : Lib.Linked (nextOf cells) o ids) (hfuel : ids.length < fuel) :
    ∃ structs', freeLoop fuel structs o nextCommand = some (structs', none, if ids = [] then nextCommand else none) ∧
      Freed structs ids structs' := by
  induction ids generalizing structs o nextCommand fuel with
  | nil =>
    obtain ⟨fuel, rfl⟩ : ∃ f, fuel = f + 1 := ⟨fuel - 1, by omega⟩
    rw [Lib.Linked, seg_nil] at hlinked
    rw [hlinked]
    exact ⟨structs, rfl, .refl structs⟩
  | cons i ids ih =>
    obtain ⟨fuel, rfl⟩ : ∃ f, fuel = f + 1 := ⟨fuel - 1, by omega⟩
    rw [Lib.Linked, seg_cons] at hlinked
    obtain ⟨rfl, hnext⟩ := hlinked
    obtain ⟨hi, hnodup⟩ := List.nodup_cons.mp hnodup
    obtain ⟨c, hc, hs⟩ := hlive i List.mem_cons_self
    rw [nextOf, hc, Option.bind_some] at hnext
    have hrest : ∀ j ∈ ids, ∃ c, cells[j]? = some c ∧ (structs.set i none)[j]? = some (some c) := by
      intro j hj
      obtain ⟨c', hc', hs'⟩ := hlive j (List.mem_cons_of_mem i hj)
      refine ⟨c', hc', ?_⟩
      have hij : i ≠ j := by
        rintro rfl
        exact hi hj
      rw [List.getElem?_set_ne hij, hs']
    obtain ⟨structs', hrun, hfreed⟩ := ih c.next hrest hnodup hnext (by simpa using hfuel)
    refine ⟨structs', ?_, hfreed.cons hs⟩
    have hlast : (if ids = [] then c.next else none) = none := by
      split
      · next hnil =>
        rw [hnil] at hnext
        exact seg_nil.mp hnext
      · rfl
    rw [freeLoop, hs, Option.join_some, Option.bind_eq_bind, Option.bind_some, free_live hs, Option.bind_eq_bind,
      Option.bind_some, hrun, hlast, if_neg (List.cons_ne_nil i ids)]

theorem pipelineFree_eq (hlive : ∀ i ∈ ids, i < cells.length) (hlen : ids.length ≤ cells.length)
    (hnodup : ids.Nodup) (hne : ids ≠ []) (hlinked : Lib.Linked (nextOf cells) o ids) :
    ∃ structs', pipelineFree (cells.map some) o = some structs' ∧
      Freed (cells.map some ++ [some pipelineCommandAlloc, some pipelineCommandAlloc]) ids structs' := by
  have hlive' : ∀ i ∈ ids, ∃ c, cells[i]? = some c ∧
      (cells.map some ++ [some pipelineCommandAlloc, some pipelineCommandAlloc])[i]? = some (some c) := by
    intro i hi
    have hlt := hlive i hi
    refine ⟨cells[i], List.getElem?_eq_getElem hlt, ?_⟩
    rw [List.getElem?_append_left (by rwa [List.length_map]), List.getElem?_map, List.getElem?_eq_getElem hlt]
    rfl
  have hfuel : ids.length < (cells.map some ++ [some pipelineCommandAlloc, some pipelineCommandAlloc]).length + 1 := by
    rw [List.length_append, List.length_map]
    omega
  obtain ⟨structs', hrun, hfreed⟩ := freeLoop_eq (some ((cells.map some).length + 1)) hlive' hnodup hlinked hfuel
  rw [if_neg hne] at hrun
  refine ⟨structs', ?_, hfreed⟩
  rw [pipelineFree]
  dsimp only
  rw [hrun]
  rfl

/-- For every line that pipeline_build returns from, and every command that main has moved `commands` to:
    pipeline_free ends without a struct it has freed, and frees that command and those behind it, each
    once, and nothing else. The walk of main stops at the last command, the only one it then frees. -/
theorem pipeline_freed {m : Mem} {commandLine : Ptr} {text : Str} {r : Built}
    (hs : m.heap.str commandLine = some text) (hr : pipelineBuild commandLine m = some r) :
    ∃ ids, Lib.Linked (nextOf r.structs) (some r.commands) ids ∧ ids.Nodup ∧
      lastCommand r.structs r.structs.length r.commands = ids.getLast? ∧
      ∀ before i rest, ids = before ++ i :: rest → ∃ structs', pipelineFree r.live (some i) = some structs' ∧
        Freed (r.live ++ [some pipelineCommandAlloc, some pipelineCommandAlloc]) (i :: rest) structs' := by
  obtain ⟨hnone, -⟩ | ⟨b, o, saved, r', hr', -, hc⟩ := pipelineBuild_cases hs
  · rw [hnone] at hr
    cases hr
  obtain rfl : r' = r := Option.some.inj (hr'.symm.trans hr)
  obtain ⟨ids, ls, -, hlist⟩ := hc.listed
  refine ⟨ids, hlist.linked, hlist.nodup, lastCommand_eq (fun j hj => hlist.lt hj) hlist.linked hlist.length_le, ?_⟩
  intro before i rest hsplit
  have hlinked := hlist.linked
  have hnodup := hlist.nodup
  rw [hsplit] at hlinked hnodup
  obtain ⟨o', -, htail⟩ := seg_append.mp hlinked
  obtain rfl : o' = some i := (seg_cons.mp htail).1
  have hle : ids.length ≤ r'.structs.length := hlist.length_le
  rw [hsplit, List.length_append] at hle
  refine pipelineFree_eq (fun j hj => hlist.lt ?_) (by omega) (List.nodup_append.mp hnodup).2.1
    (List.cons_ne_nil i rest) htail
  rw [hsplit]
  exact List.mem_append_right before hj

/-- "ls -l | wc" -/
theorem pipeline_freed_wc : ∃ r,
    pipelineBuild ⟨0, 0⟩ ⟨⟨[[108, 115, 32, 45, 108, 32, 124, 32, 119, 99, 0].map some]⟩, none⟩ = some r ∧
    ∃ ids, Lib.Linked (nextOf r.structs) (some r.commands) ids ∧
      lastCommand r.structs r.structs.length r.commands = ids.getLast? ∧ ∀ i, ids.getLast? = some i →
        ∃ structs', pipelineFree r.live (some i) = some structs' ∧
          Freed (r.live ++ [some pipelineCommandAlloc, some pipelineCommandAlloc]) [i] structs' := by
  have hs : (Heap.mk [[108, 115, 32, 45, 108, 32, 124, 32, 119, 99, 0].map some]).str ⟨0, 0⟩ =
      some [108, 115, 32, 45, 108, 32, 124, 32, 119, 99] := by decide
  have hpieces : ∀ w ∈ toks pipeChar [108, 115, 32, 45, 108, 32, 124, 32, 119, 99],
      w.length ≤ maxLineLength ∧ ∀ e ∈ erasures w, pathOf e.1 e.2 ≠ none := by decide
  obtain ⟨-, w, hw, hbad⟩ | ⟨b, o, saved, r, hr, -⟩ := pipelineBuild_cases (m := ⟨_, none⟩) hs
  · exact absurd (.of_paths (hpieces w hw).1 fun e he => pathOf_ne_none.mp ((hpieces w hw).2 e he)) hbad
  obtain ⟨ids, hlinked, -, hlast, hfree⟩ := pipeline_freed (m := ⟨_, none⟩) hs hr
  refine ⟨r, hr, ids, hlinked, hlast, fun i hi => ?_⟩
  obtain ⟨before, hsplit⟩ := List.getLast?_eq_some_iff.mp hi
  exact hfree before i [] hsplit

end EC440.Shell
