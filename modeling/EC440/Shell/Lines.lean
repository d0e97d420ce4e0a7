/-
  Lines that are written for the parser: words with blanks between them, and commands with pipes
  between them. `pipelineBuild_renders` is what pipeline_build makes of every line without redirects
  that fits MAX_LINE_LENGTH.

  An ampersand at the end, on its own or at the last word, counts as a separator of the two loops
  over the arguments: it leaves at most entries of command_args that stay NULL.
-/
import Mathlib.Data.List.TakeWhile
import Mathlib.Data.List.ReduceOption
import EC440.Shell.Build

namespace EC440.Shell

open EC440.Lib

/-- A text that can be an argument, or what an erasure leaves of one. -/
def Plain (u : Str) : Prop := ∀ c ∈ u, c ∉ whitespaceChars ∧ c ∉ specialChars

instance (u : Str) : Decidable (Plain u) := List.decidableBAll _ u

/-- A word as the README has it. -/
structure Word where
  text : Str
  ne_nil : text ≠ []
  isPlain : Plain text
  no_nul : 0 ∉ text

def Blank (s : Str) : Prop := ∀ c ∈ s, c ∈ whitespaceChars

instance (s : Str) : Decidable (Blank s) := List.decidableBAll _ s

theorem disjoint_chars : ∀ c ∈ whitespaceChars, c ∉ specialChars := by
  simp [whitespaceChars, specialChars]

/-- Texts with at least one blank between two of them. -/
inductive Joined : List Str → Str → Prop
  | single (u : Str) : Joined [u] u
  | cons (u : Str) {us : List Str} {gap s : Str} :
      Blank gap → gap ≠ [] → Joined us s → Joined (u :: us) (u ++ (gap ++ s))

variable {us : List Str} {s u gap junk text : Str}

theorem Joined.mem (hj : Joined us s) {c : UInt8} (hc : c ∈ s) : c ∈ whitespaceChars ∨ ∃ u ∈ us, c ∈ u := by
  induction hj with
  | single u => exact .inr ⟨u, List.mem_singleton_self u, hc⟩
  | cons u hgap _ _ ih =>
    rcases List.mem_append.mp hc with hc | hc
    · exact .inr ⟨u, List.mem_cons_self, hc⟩
    · rcases List.mem_append.mp hc with hc | hc
      · exact .inl (hgap c hc)
      · rcases ih hc with hc | ⟨u', hu', hc⟩
        · exact .inl hc
        · exact .inr ⟨u', List.mem_cons_of_mem u hu', hc⟩

/-- A word takes a character, and so does each gap. -/
theorem Joined.length (hj : Joined us s) (hne : ∀ u ∈ us, u ≠ []) : 2 * us.length ≤ s.length + 1 := by
  induction hj with
  | single u =>
    have hpos := List.length_pos_iff.mpr (hne u (List.mem_singleton_self u))
    rw [List.length_singleton]
    omega
  | @cons u us gap s _ hgap _ ih =>
    have hpos := List.length_pos_iff.mpr (hne u List.mem_cons_self)
    have hgap := List.length_pos_iff.mpr hgap
    have hrest := ih fun u' hu' => hne u' (List.mem_cons_of_mem u hu')
    rw [List.length_cons, List.length_append, List.length_append]
    omega

theorem Joined.pos (hj : Joined us s) : 0 < us.length := by
  cases hj <;> simp

/-! ## The entries of command_args -/

/-- Characters that are no part of an argument. -/
def Junk (s : Str) : Prop := ∀ c ∈ s, c ∈ whitespaceChars ∨ c ∈ specialChars

theorem Blank.isJunk (hs : Blank s) : Junk s := fun c hc => .inl (hs c hc)

theorem Junk.append {s' : Str} (hs : Junk s) (hs' : Junk s') : Junk (s ++ s') := by
  intro c hc
  rcases List.mem_append.mp hc with hc | hc
  · exact hs c hc
  · exact hs' c hc

theorem argsOf_gap (hgap : Blank gap) (hne : gap ≠ []) (u v : Str) :
    argsOf (u ++ (gap ++ v)) = argsOf u ++ argsOf v := by
  rw [argsOf, toks_gap hgap hne, List.map_append, argsOf, argsOf]

theorem argsOf_blank (hs : Blank s) (v : Str) : argsOf (s ++ v) = argsOf v := by
  rw [argsOf, toks_delims_append hs, argsOf]

theorem argsOf_junk (hj : Junk junk) : ∃ k, argsOf junk = List.replicate k none := by
  refine ⟨(argsOf junk).length, List.eq_replicate_of_mem fun e he => ?_⟩
  obtain ⟨v, hv, rfl⟩ := List.mem_map.mp he
  obtain ⟨-, hin, hnot⟩ := mem_toks hv
  have hspecial : ∀ c ∈ v, c ∈ specialChars := fun c hc => (hj c (hin.subset hc)).resolve_left (hnot c hc)
  rw [lastTok, toks_delims hspecial]
  rfl

/-- A word with special characters at its end. -/
theorem argsOf_word (hne : u ≠ []) (hu : Plain u) (hjunk : ∀ c ∈ junk, c ∈ specialChars) :
    argsOf (u ++ junk) = [some u] := by
  have hblank : ∀ c ∈ u ++ junk, c ∉ whitespaceChars := by
    intro c hc
    rcases List.mem_append.mp hc with hc | hc
    · exact (hu c hc).1
    · exact fun hblank => disjoint_chars c hblank (hjunk c hc)
  have hne' : u ++ junk ≠ [] := fun hnil => hne (List.append_eq_nil_iff.mp hnil).1
  rw [argsOf, toks_word hne' hblank, List.map_singleton, lastTok, toks_append_delims hjunk,
    toks_word hne fun c hc => (hu c hc).2]
  rfl

/-- What an argument adds: nothing, when an erasure has left nothing of it. -/
theorem argsOf_plain (hu : Plain u) : argsOf u = ([u].filter (· ≠ [])).map some := by
  by_cases hne : u = []
  · rw [hne]
    rfl
  · have hnil : ∀ c ∈ ([] : Str), c ∈ specialChars := by simp
    have hone := argsOf_word hne hu hnil
    rw [List.append_nil] at hone
    rw [hone]
    simp [hne]

theorem argsOf_last (hu : Plain u) (hj : Junk junk) :
    ∃ k, argsOf (u ++ junk) = ([u].filter (· ≠ [])).map some ++ List.replicate k none := by
  by_cases hne : u = []
  · obtain ⟨k, hk⟩ := argsOf_junk hj
    exact ⟨k, by simpa [hne] using hk⟩
  · -- the special characters at the word go with it
    have hsplit := List.takeWhile_append_dropWhile (p := (· ∉ whitespaceChars)) (l := junk)
    have hword : ∀ c ∈ junk.takeWhile (· ∉ whitespaceChars), c ∈ specialChars := by
      intro c hc
      have hmem := List.mem_takeWhile_imp hc
      exact (hj c (List.takeWhile_subset _ hc)).resolve_left (by simpa using hmem)
    have hone := argsOf_word hne hu hword
    have hfilter : [some u] = ([u].filter (· ≠ [])).map some := by simp [hne]
    cases hrest : junk.dropWhile (· ∉ whitespaceChars) with
    | nil =>
      rw [hrest, List.append_nil] at hsplit
      rw [hsplit] at hone
      exact ⟨0, by rw [hone, hfilter, List.replicate_zero, List.append_nil]⟩
    | cons d rest =>
      have hd : d ∈ whitespaceChars := by
        have hhead := List.head?_dropWhile_not (· ∉ whitespaceChars) junk
        rw [hrest] at hhead
        simpa using hhead
      have hjunk : Junk rest := by
        intro c hc
        apply hj c
        rw [← hsplit, hrest]
        exact List.mem_append_right _ (List.mem_cons_of_mem d hc)
      obtain ⟨k, hk⟩ := argsOf_junk hjunk
      have hblank : Blank [d] := by simpa [Blank] using hd
      have hgap := argsOf_gap hblank (by simp)
        (u ++ junk.takeWhile (· ∉ whitespaceChars)) rest
      refine ⟨k, ?_⟩
      rw [← hfilter, ← hone, ← hk, ← hgap, List.singleton_append, List.append_assoc, ← hrest, hsplit]

theorem Joined.toks_length (hjoin : Joined us s) (hplain : ∀ u ∈ us, Plain u) :
    (toks whitespaceChars s).length ≤ us.length := by
  have hone : ∀ {u : Str}, Plain u → (toks whitespaceChars u).length ≤ 1 := by
    intro u hu
    by_cases hne : u = []
    · rw [hne, toks_nil]
      exact Nat.zero_le 1
    · rw [toks_word hne fun c hc => (hu c hc).1]
      exact le_rfl
  induction hjoin with
  | single u => exact hone (hplain u (List.mem_singleton_self u))
  | @cons u us gap s hgap hne _ ih =>
    have hrest := ih fun u' hu' => hplain u' (List.mem_cons_of_mem u hu')
    have hfirst := hone (hplain u List.mem_cons_self)
    rw [toks_gap hgap hne, List.length_append, List.length_cons]
    omega

/-- The arguments, and what stays NULL for the characters behind them. -/
theorem argsOf_joined (hjoin : Joined us s) (hplain : ∀ u ∈ us, Plain u) (hj : Junk junk) :
    ∃ k, argsOf (s ++ junk) = (us.filter (· ≠ [])).map some ++ List.replicate k none := by
  induction hjoin with
  | single u => exact argsOf_last (hplain u (List.mem_singleton_self u)) hj
  | @cons u us gap s hgap hne _ ih =>
    obtain ⟨k, hk⟩ := ih fun u' hu' => hplain u' (List.mem_cons_of_mem u hu')
    refine ⟨k, ?_⟩
    rw [List.append_assoc, List.append_assoc, argsOf_gap hgap hne, argsOf_plain (hplain u List.mem_cons_self), hk,
      ← List.append_assoc, ← List.map_append, ← List.filter_append, List.singleton_append]

theorem argsOf_words {ws : List Word} {before : Str} (hbefore : Blank before) (hjoin : Joined (ws.map Word.text) s)
    (hj : Junk junk) :
    ∃ k, argsOf (before ++ (s ++ junk)) = (ws.map Word.text).map some ++ List.replicate k none := by
  obtain ⟨k, hk⟩ := argsOf_joined hjoin (fun u hu => by
    obtain ⟨w, -, rfl⟩ := List.mem_map.mp hu
    exact w.isPlain) hj
  have hfilter : (ws.map Word.text).filter (· ≠ []) = ws.map Word.text := by
    rw [List.filter_eq_self]
    intro u hu
    obtain ⟨w, -, rfl⟩ := List.mem_map.mp hu
    simpa using w.ne_nil
  exact ⟨k, by rw [argsOf_blank hbefore, hk, hfilter]⟩

theorem leading_args (ws : List Str) (k : Nat) : leading (ws.map some ++ List.replicate k none) = ws := by
  induction ws with
  | nil =>
    cases k with
    | zero => rfl
    | succ k => rfl
  | cons w ws ih =>
    have hcons : leading ((w :: ws).map some ++ List.replicate k none) =
        w :: leading (ws.map some ++ List.replicate k none) := by
      simp [leading, List.reduceOption_cons_of_some]
    rw [hcons, ih]

/-! ## Pipelines -/

/-- A command, with blanks around it. -/
def Padded (ws : List Word) (s : Str) : Prop :=
  ∃ before t after, Blank before ∧ Joined (ws.map Word.text) t ∧ Blank after ∧ s = before ++ (t ++ after)

/-- Commands with pipes between them. -/
inductive Piped : List (List Word) → Str → Prop
  | last {ws : List Word} {s : Str} : Padded ws s → Piped [ws] s
  | cons {ws : List Word} {wss : List (List Word)} {s t : Str} :
      Padded ws s → Piped wss t → Piped (ws :: wss) (s ++ 124 :: t)

/-- The end of a line, with its ampersand when the pipeline is to run in the background. -/
inductive Ending : Bool → Str → Prop
  | foreground : Ending false []
  | background {after : Str} : Blank after → Ending true (38 :: after)

/-- `line` is written for these commands. -/
def Renders (wss : List (List Word)) (background : Bool) (line : Str) : Prop :=
  ∃ s ending, Piped wss s ∧ Ending background ending ∧ line = s ++ ending

variable {ws : List Word} {wss : List (List Word)} {background : Bool} {ending : Str} {l : Parsed}

/-- The texts of the words and nothing else, up to entries that stay NULL. -/
structure Means (ws : List Word) (l : Parsed) : Prop where
  inPath : l.inPath = none
  outPath : l.outPath = none
  args : ∃ k, l.args = (ws.map Word.text).map some ++ List.replicate k none

theorem Means.command (hm : Means ws l) :
    l.command = { args := ws.map Word.text, redirectInPath := none, redirectOutPath := none } := by
  obtain ⟨k, hk⟩ := hm.args
  rw [Parsed.command, hm.inPath, hm.outPath, hk, leading_args]

theorem Means.named (hm : Means ws l) (hne : ws ≠ []) : l.Named := by
  obtain ⟨k, hk⟩ := hm.args
  obtain ⟨w, ws, rfl⟩ := List.exists_cons_of_ne_nil hne
  exact ⟨w.text, by rw [hk]; rfl⟩

theorem fits_of_args {k : Nat} (hargs : l.args = us.map some ++ List.replicate k none) (hlen : us.length < maxArgvLength) :
    l.Fits := by
  intro i v hi
  have hlt : i < us.length := by
    by_contra hge
    rw [hargs, List.getElem?_append_right (by simpa using hge), List.getElem?_replicate] at hi
    split at hi
    · cases hi
    · cases hi
  omega

theorem Means.fits (hm : Means ws l) (hlen : ws.length < maxArgvLength) : l.Fits := by
  obtain ⟨k, hk⟩ := hm.args
  exact fits_of_args hk (by simpa using hlen)

theorem Joined.words_mem {t : Str} (hj : Joined (ws.map Word.text) t) {c : UInt8} (hc : c ∈ t) : c ∉ specialChars := by
  rcases hj.mem hc with hc | ⟨u, hu, hc⟩
  · exact disjoint_chars c hc
  · obtain ⟨w, -, rfl⟩ := List.mem_map.mp hu
    exact (w.isPlain c hc).2

theorem Padded.mem (hp : Padded ws s) {c : UInt8} (hc : c ∈ s) : c ∉ specialChars := by
  obtain ⟨before, t, after, hbefore, hj, hafter, rfl⟩ := hp
  rcases List.mem_append.mp hc with hc | hc
  · exact disjoint_chars c (hbefore c hc)
  · rcases List.mem_append.mp hc with hc | hc
    · exact hj.words_mem hc
    · exact disjoint_chars c (hafter c hc)

theorem Padded.ne_nil (hp : Padded ws s) : ws ≠ [] := by
  obtain ⟨before, t, after, -, hj, -, -⟩ := hp
  intro hnil
  have hpos := hj.pos
  simp [hnil] at hpos

theorem Padded.length (hp : Padded ws s) : 2 * ws.length ≤ s.length + 1 := by
  obtain ⟨before, t, after, -, hj, -, rfl⟩ := hp
  have hlen := hj.length fun u hu => by
    obtain ⟨w, -, rfl⟩ := List.mem_map.mp hu
    exact w.ne_nil
  rw [List.length_map] at hlen
  rw [List.length_append, List.length_append]
  omega

theorem Ending.mem (he : Ending background ending) {c : UInt8} (hc : c ∈ ending) : c ∈ whitespaceChars ∨ c = 38 := by
  cases he with
  | foreground => cases hc
  | background hafter =>
    rcases List.mem_cons.mp hc with rfl | hc
    · exact .inr rfl
    · exact .inl (hafter c hc)

theorem Ending.mem_ampersand (he : Ending background ending) : 38 ∈ ending ↔ background = true := by
  cases he <;> simp

theorem link_of_no_redirect (hin : 60 ∉ text) (hout : 62 ∉ text) :
    link text = some { inPath := none, outPath := none, args := argsOf text } := by
  have hred : ∀ {c : UInt8}, c ∉ text → eraseRedirect [c] text = some (none, text) := by
    intro c hc
    exact eraseRedirect_of_absent (by rwa [List.singleton_infix_iff])
  rw [link, redIn, redOut, hred hin, Option.bind_eq_bind, Option.bind_some]
  dsimp only
  rw [hred hout, Option.bind_some, Option.pure_def]

theorem Padded.link (hp : Padded ws s) (he : Ending background ending) :
    ∃ l, link (s ++ ending) = some l ∧ Means ws l := by
  have hnot : ∀ c ∈ specialChars, c ≠ 38 → c ∉ s ++ ending := by
    intro c hc h38 hmem
    rcases List.mem_append.mp hmem with hmem | hmem
    · exact hp.mem hmem hc
    · rcases he.mem hmem with hblank | hamp
      · exact disjoint_chars c hblank hc
      · exact h38 hamp
  refine ⟨_, link_of_no_redirect (hnot 60 (by decide) (by decide)) (hnot 62 (by decide) (by decide)), rfl, rfl, ?_⟩
  obtain ⟨before, t, after, hbefore, hj, hafter, rfl⟩ := hp
  have hjunk : Junk ending := by
    intro c hc
    rcases he.mem hc with hc | rfl
    · exact .inl hc
    · exact .inr (by decide)
  obtain ⟨k, hk⟩ := argsOf_words hbefore hj (hafter.isJunk.append hjunk)
  exact ⟨k, by rw [List.append_assoc, List.append_assoc, hk]⟩

/-- The pieces of the line, and what p_command_link makes of them. -/
theorem Piped.links (hp : Piped wss s) (he : Ending background ending) :
    ∃ ls, (toks pipeChar (s ++ ending)).map link = ls.map some ∧ List.Forall₂ Means wss ls ∧
      ∀ ws ∈ wss, ws ≠ [] ∧ 2 * ws.length ≤ s.length + 1 := by
  have hpiece : ∀ {ws : List Word} {s : Str} {background : Bool} {ending : Str}, Padded ws s →
      Ending background ending → toks pipeChar (s ++ ending) = [s ++ ending] := by
    intro ws s background ending hp he
    refine toks_word (fun hnil => ?_) fun c hc hpipe => ?_
    · have hlen := hp.length
      rw [(List.append_eq_nil_iff.mp hnil).1, List.length_nil] at hlen
      have hpos := List.length_pos_iff.mpr hp.ne_nil
      omega
    · rw [pipeChar, List.mem_singleton] at hpipe
      rw [hpipe] at hc
      rcases List.mem_append.mp hc with hc | hc
      · exact hp.mem hc (by decide)
      · exact absurd (he.mem hc) (by decide)
  induction hp with
  | @last ws s hp =>
    obtain ⟨l, hl, hm⟩ := hp.link he
    refine ⟨[l], ?_, .cons hm .nil, fun ws' hws' => ?_⟩
    · rw [hpiece hp he, List.map_singleton, hl, List.map_singleton]
    · rw [List.mem_singleton.mp hws']
      exact ⟨hp.ne_nil, hp.length⟩
  | @cons ws wss s t hp _ ih =>
    obtain ⟨ls, hls, hmeans, hwss⟩ := ih
    obtain ⟨l, hl, hm⟩ := hp.link .foreground
    have hone := hpiece hp .foreground
    rw [List.append_nil] at hl hone
    refine ⟨l :: ls, ?_, .cons hm hmeans, fun ws' hws' => ?_⟩
    · rw [List.append_assoc, List.cons_append, toks_append_cons (d := 124) (by decide), hone, List.map_append,
        List.map_singleton, hl, hls]
      rfl
    · rw [List.length_append, List.length_cons]
      rcases List.mem_cons.mp hws' with rfl | hws'
      · have hlen := hp.length
        exact ⟨hp.ne_nil, by omega⟩
      · obtain ⟨hne, hlen⟩ := hwss ws' hws'
        exact ⟨hne, by omega⟩

theorem Piped.no_ampersand (hp : Piped wss s) : 38 ∉ s := by
  induction hp with
  | last hp => exact fun hc => hp.mem hc (by decide)
  | cons hp _ ih =>
    intro hc
    rcases List.mem_append.mp hc with hc | hc
    · exact hp.mem hc (by decide)
    · rcases List.mem_cons.mp hc with hc | hc
      · cases hc
      · exact ih hc

/-- A line without redirects is parsed into the commands that it is written for. -/
theorem pipelineBuild_renders {wss : List (List Word)} {background : Bool} {line : Str}
    (hr : Renders wss background line) (hlen : line.length ≤ maxLineLength) {m : Mem} {commandLine : Ptr}
    (hs : m.heap.str commandLine = some line) :
    ∃ r, pipelineBuild commandLine m = some r ∧ r.read = some
      { commands := wss.map fun ws =>
          { args := ws.map Word.text, redirectInPath := none, redirectOutPath := none }
        isBackground := background } := by
  obtain ⟨s, ending, hp, he, rfl⟩ := hr
  obtain ⟨ls, hls, hmeans, hwss⟩ := hp.links he
  rw [List.length_append] at hlen
  have hmax : maxLineLength = 512 := rfl
  have hall : (∀ l ∈ ls, l.Fits ∧ l.Named) ∧ ls.map Parsed.command = wss.map fun ws =>
      { args := ws.map Word.text, redirectInPath := none, redirectOutPath := none } := by
    clear hls hp
    induction hmeans with
    | nil => exact ⟨by simp, rfl⟩
    | @cons ws l wss ls hm _ ih =>
      obtain ⟨hrest, hmap⟩ := ih fun ws' hws' => hwss ws' (List.mem_cons_of_mem ws hws')
      obtain ⟨hne, hws⟩ := hwss ws List.mem_cons_self
      refine ⟨fun l' hl' => ?_, by rw [List.map_cons, List.map_cons, hm.command, hmap]⟩
      rcases List.mem_cons.mp hl' with rfl | hl'
      · exact ⟨hm.fits (by rw [maxArgvLength]; omega), hm.named hne⟩
      · exact hrest l' hl'
  have hne : ls ≠ [] := by
    intro hnil
    rw [hnil] at hmeans
    cases hmeans
    cases hp
  obtain ⟨r, hbuild, hread⟩ := pipelineBuild_eq hs (by rw [List.length_append]; omega) hls (fun l hl => (hall.1 l hl).1)
    (fun l hl => (hall.1 l hl).2) hne
  refine ⟨r, hbuild, ?_⟩
  rw [hread, hall.2, ampersand, Option.some.injEq, Pipeline.mk.injEq]
  refine ⟨rfl, ?_⟩
  rw [Bool.eq_iff_iff, decide_eq_true_iff, List.singleton_infix_iff, List.mem_append, he.mem_ampersand]
  exact ⟨fun h => h.resolve_left hp.no_ampersand, .inr⟩

/-- "ls -l|wc &" and a newline. -/
theorem pipelineBuild_renders_wc :
    ∃ r, pipelineBuild ⟨0, 0⟩ ⟨⟨[[108, 115, 32, 45, 108, 124, 119, 99, 32, 38, 10, 0].map some]⟩, none⟩ = some r ∧
      r.read = some
        { commands := [⟨[[108, 115], [45, 108]], none, none⟩, ⟨[[119, 99]], none, none⟩], isBackground := true } := by
  have hone : Blank [32] := by decide
  have hls : Padded [⟨[108, 115], by decide, by decide, by decide⟩, ⟨[45, 108], by decide, by decide, by decide⟩] [108, 115, 32, 45, 108] :=
    ⟨[], _, [], by decide, .cons [108, 115] hone (by decide) (.single _), by decide, rfl⟩
  have hwc : Padded [⟨[119, 99], by decide, by decide, by decide⟩] [119, 99, 32] :=
    ⟨[], _, [32], by decide, .single _, hone, rfl⟩
  have hnewline : Blank [10] := by decide
  have hr : Renders _ true [108, 115, 32, 45, 108, 124, 119, 99, 32, 38, 10] :=
    ⟨_, _, .cons hls (.last hwc), .background hnewline, rfl⟩
  exact pipelineBuild_renders hr (by decide) (by decide)

end EC440.Shell
