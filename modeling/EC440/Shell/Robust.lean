/-
  The lines on which pipeline_build returns. A piece between pipes is refused when a redirect has
  no path, which deleteWords would get as NULL, when a number does not fit its int, or when an
  argument has no place in command_args.

  The path of an output redirect is looked for in what the erasure of the input path has left.
-/
import EC440.Shell.Build

namespace EC440.Shell

open EC440.Lib

variable {h h' : Heap} {m : Mem} {p q cline commandLine : Ptr} {text w red : Str} {n b o k : Nat}

/-! ## The calls of deleteWords -/

/-- What is behind the first redirect sign, up to the next, does not begin with special characters
    only. -/
def HasPath (red text : Str) : Prop :=
  ∃ t v, (toks red text)[1]? = some t ∧ (toks whitespaceChars t)[0]? = some v ∧ ∃ c ∈ v, c ∉ specialChars

theorem pathOf_ne_none : pathOf red text ≠ none ↔ HasPath red text := by
  have hsecond : (tok red (tok red text).2).1 = (toks red text)[1]? := by
    rw [(tok_toks red _).1, (tok_toks red text).2, List.head?_eq_getElem?, List.getElem?_tail]
  have hend : ∀ u : Str, (tok specialChars u).1 ≠ none ↔ ∃ c ∈ u, c ∉ specialChars := by
    intro u
    rw [Ne, tok_eq_none]
    push Not
    exact Iff.rfl
  -- a call that has found nothing leaves nothing for the next
  have hempty : ∀ delim u : Str, (tok delim u).1 = none → (tok delim u).2 = [] := by
    intro delim u hnone
    rw [tok_delims (tok_eq_none.mp hnone)]
  simp only [pathOf, hsecond, HasPath]
  cases ht : (toks red text)[1]? with
  | none =>
    rw [Option.getD_none, hempty _ _ (hsecond.trans ht)]
    exact ⟨fun h => absurd rfl h, fun h => by obtain ⟨t, v, h, -⟩ := h; cases h⟩
  | some t =>
    rw [Option.getD_some, (tok_toks whitespaceChars t).1, List.head?_eq_getElem?]
    cases hv : (toks whitespaceChars t)[0]? with
    | none =>
      rw [Option.getD_none, hempty _ _ (by rw [(tok_toks whitespaceChars t).1, List.head?_eq_getElem?, hv])]
      refine ⟨fun h => absurd rfl h, fun h => ?_⟩
      obtain ⟨t', v, ht', hv', -⟩ := h
      rw [← Option.some.inj ht', hv] at hv'
      cases hv'
    | some v =>
      rw [Option.getD_some, hend]
      refine ⟨fun h => ⟨t, v, rfl, hv, h⟩, fun h => ?_⟩
      obtain ⟨t', v', ht', hv', h⟩ := h
      rw [← Option.some.inj ht', hv, Option.some.injEq] at hv'
      rw [hv']
      exact h

/-- What a redirect leaves of a line. -/
def withoutPath (red text : Str) : Str := ((eraseRedirect red text).map Prod.snd).getD text

/-- The calls of deleteWords that are made on the way: the sign, and the line. -/
def erasures (text : Str) : List (Str × Str) :=
  [(redIn, text), (redOut, withoutPath redIn text)].filter fun e => e.1 <:+: e.2

/-- What is split into arguments. -/
def argText (text : Str) : Str := withoutPath redOut (withoutPath redIn text)

theorem eraseRedirect_eq_none : eraseRedirect red text = none ↔ red <:+: text ∧ pathOf red text = none := by
  rw [eraseRedirect]
  split
  · next hin => rw [Option.map_eq_none_iff, and_iff_right hin]
  · next hin => exact ⟨fun h => (by cases h), fun h => absurd h.1 hin⟩

theorem link_ne_none : link text ≠ none ↔ ∀ e ∈ erasures text, pathOf e.1 e.2 ≠ none := by
  have hcalls : (∀ e ∈ erasures text, pathOf e.1 e.2 ≠ none) ↔
      eraseRedirect redIn text ≠ none ∧ eraseRedirect redOut (withoutPath redIn text) ≠ none := by
    rw [Ne, eraseRedirect_eq_none, Ne, eraseRedirect_eq_none, erasures]
    simp only [List.mem_filter, List.mem_cons, List.not_mem_nil, or_false, decide_eq_true_eq]
    constructor
    · intro hall
      exact ⟨fun hin => hall (redIn, text) ⟨.inl rfl, hin.1⟩ hin.2,
        fun hout => hall (redOut, withoutPath redIn text) ⟨.inr rfl, hout.1⟩ hout.2⟩
    · intro hall e he hnone
      obtain ⟨rfl | rfl, hin⟩ := he
      · exact hall.1 ⟨hin, hnone⟩
      · exact hall.2 ⟨hin, hnone⟩
  rw [hcalls, link, Ne, Option.bind_eq_bind, Option.bind_eq_none_iff]
  cases h₁ : eraseRedirect redIn text with
  | none => exact ⟨fun h => absurd (fun r hr => by cases hr) h, fun h => absurd rfl h.1⟩
  | some r₁ =>
    have hleft : withoutPath redIn text = r₁.2 := by
      rw [withoutPath, h₁]
      rfl
    rw [hleft]
    cases h₂ : eraseRedirect redOut r₁.2 with
    | none =>
      refine ⟨fun h => absurd (fun r hr => ?_) h, fun h => absurd rfl h.2⟩
      rw [← Option.some.inj hr]
      dsimp only
      rw [h₂]
      rfl
    | some r₂ =>
      refine ⟨fun _ => ⟨by simp, by simp⟩, fun _ h => ?_⟩
      have hno := h r₁ rfl
      dsimp only at hno
      rw [h₂] at hno
      cases hno

theorem link_args {l : Parsed} (hl : link text = some l) : l.args = argsOf (argText text) := by
  obtain ⟨text₁, text₂, h₁, h₂, hargs⟩ := link_some hl
  rw [hargs, argText, withoutPath, withoutPath, h₁]
  dsimp only [Option.map_some, Option.getD_some]
  rw [h₂]
  rfl

/-! ## A piece -/

/-- The pieces on which p_command_link returns. -/
structure Parseable (text : Str) : Prop where
  paths : ∀ e ∈ erasures text, HasPath e.1 e.2
  length : redIn <:+: text ∨ redOut <:+: text → text.length < 2 ^ 31
  args : ¬ Exceeds maxArgvLength (argsOf (argText text))

theorem Parseable.link (hp : Parseable text) : ∃ l, link text = some l :=
  Option.ne_none_iff_exists'.mp (link_ne_none.mpr fun e he => pathOf_ne_none.mpr (hp.paths e he))

/-- A line that fits its buffer is refused for its paths only: it has at most half as many pieces
    as command_args has places. -/
theorem Parseable.of_paths (hlen : text.length ≤ maxLineLength) (hpaths : ∀ e ∈ erasures text, HasPath e.1 e.2) :
    Parseable text := by
  rw [maxLineLength] at hlen
  obtain ⟨l, hl⟩ := Option.ne_none_iff_exists'.mp (link_ne_none.mpr fun e he => pathOf_ne_none.mpr (hpaths e he))
  have hcount := link_two_length hl
  refine ⟨hpaths, fun _ => by omega, ?_⟩
  rw [← link_args hl]
  intro hover
  rcases hover with ⟨k, v, hk, hge⟩ | hge
  · obtain ⟨hlt, -⟩ := List.getElem?_eq_some_iff.mp hk
    rw [maxArgvLength, maxLineLength] at hge
    omega
  · omega

theorem pCommandLink_refused (hs : m.heap.str cline = some text) (hp : ¬ Parseable text) :
    pCommandLink cline pipelineCommandAlloc m = none := by
  by_contra hsome
  obtain ⟨r, hr⟩ := Option.ne_none_iff_exists'.mp hsome
  have hlen := pCommandLink_lt hs hr
  cases hl : link text with
  | none => exact hsome (pCommandLink_none hs (fun hin => hlen (.inl hin)) hl)
  | some l =>
    refine hp ⟨fun e he => pathOf_ne_none.mp (link_ne_none.mp (by rw [hl]; simp) e he), hlen, ?_⟩
    rw [← link_args hl]
    rcases pCommandLink_cases hs hlen hl with ⟨hnone, -⟩ | ⟨hroom, -⟩
    · exact absurd hnone hsome
    · exact hroom

/-! ## The loop -/

/-- Between two rounds: the list of the commands, and what every struct leads to. -/
structure Chained (b o : Nat) (done : List Str) (h : Heap) (pipe : Build) : Prop where
  parseable : ∀ w ∈ done, Parseable w
  listed : ∃ ids ls, done.map link = ls.map some ∧ Listed h 0 b o pipe.structs pipe.commands ids (chain ls)
  structs : ∀ c ∈ pipe.structs, ∃ l, (l = Parsed.blank ∨ ∃ w ∈ done, link w = some l) ∧ Represents h 0 b o c l

theorem Chained.within {done : List Str} {pipe : Build} (hc : Chained b o done h pipe)
    (hw : Within h h' ⟨b, o⟩ k) : Chained b o done h' pipe := by
  obtain ⟨ids, ls, hls, hlist⟩ := hc.listed
  refine ⟨hc.parseable, ⟨ids, ls, hls, hlist.within hw⟩, fun c hmem => ?_⟩
  obtain ⟨l, hl, hr⟩ := hc.structs c hmem
  exact ⟨l, hl, hr.within hw⟩

theorem chain_snoc (ls : List Parsed) (l : Parsed) : chain (ls ++ [l]) = joined (chain ls) l := by
  rw [chain, List.foldl_append]
  rfl

theorem Chained.step {done : List Str} {pipe : Build} (hc : Chained b o done h pipe) (hb : p.block = b)
    (ho : o ≤ p.off) (hs : h.str p = some w) (hp : Parseable w) :
    ∃ h' pipe', pipelines p (h, pipe) = some (h', pipe') ∧ Within h h' p w.length ∧
      Chained b (p.off + w.length + 1) (done ++ [w]) h' pipe' := by
  obtain ⟨l, hl⟩ := hp.link
  obtain ⟨ids, ls, hls, hlist⟩ := hc.listed
  rcases pipelines_join hlist hb ho hs hp.length hl with
    ⟨-, hover⟩ | ⟨h', pipe', ids', hrun, hw, hlist', hstructs⟩
  · exact absurd (link_args hl ▸ hover) hp.args
  have hw' : Within h h' ⟨b, o⟩ (p.off + w.length - o) := hw.mono hb ho (by dsimp only; omega)
  refine ⟨h', pipe', hrun, hw, ?_, ⟨ids', ls ++ [l], ?_, by rwa [chain_snoc]⟩, fun c hmem => ?_⟩
  · intro v hv
    rcases List.mem_append.mp hv with hv | hv
    · exact hc.parseable v hv
    · rw [List.mem_singleton.mp hv]
      exact hp
  · rw [List.map_append, List.map_append, hls, List.map_singleton, hl, List.map_singleton]
  · rcases hstructs c hmem with ⟨c', hc', next, rfl⟩ | ⟨l', hl', hr⟩
    · obtain ⟨l', hl', hr⟩ := hc.structs c' hc'
      have hr' : Represents h' 0 b (p.off + w.length + 1) c' l' := (hr.within hw').mono le_rfl (by omega)
      refine ⟨l', hl'.imp_right fun hex => ?_, hr'.length, hr'.args, hr'.inPath, hr'.outPath⟩
      obtain ⟨v, hv, hlv⟩ := hex
      exact ⟨v, List.mem_append_left _ hv, hlv⟩
    · refine ⟨l', ?_, hr⟩
      rcases List.mem_cons.mp hl' with rfl | hl'
      · exact .inl rfl
      · rw [List.mem_singleton.mp hl']
        exact .inr ⟨w, by simp, hl⟩

theorem Chained.init (b o : Nat) (h : Heap) (saved : Option Ptr) :
    Chained b o [] h { saved := saved, structs := [pipelineCommandAlloc], commands := 0 } := by
  refine ⟨fun w hw => (by cases hw), ⟨[0], [], rfl, .single rfl rfl (.alloc h 0 b o)⟩, fun c hc => ?_⟩
  rw [List.mem_singleton.mp hc]
  exact ⟨Parsed.blank, .inl rfl, .alloc h 0 b o⟩

/-- pipeline_build, up to its loop. -/
theorem pipelineBuild_cases (hs : m.heap.str commandLine = some text) :
    (pipelineBuild commandLine m = none ∧ ∃ w ∈ toks pipeChar text, ¬ Parseable w) ∨
      ∃ b o saved r, pipelineBuild commandLine m = some r ∧ r.isBackground = decide (ampersand <:+: text) ∧
        Chained b o (toks pipeChar text) r.heap ⟨saved, r.structs, r.commands⟩ := by
  obtain ⟨m₁, hs₁, hrun⟩ := pipelineBuild_run hs
  have hbody : ∀ o done v rest p h x, toks pipeChar text = done ++ v :: rest →
      Chained m.heap.top.block o done h x → p.block = m.heap.top.block → o ≤ p.off → h.str p = some v →
      (pipelines p (h, x) = none ∧ ∃ w ∈ toks pipeChar text, ¬ Parseable w) ∨
        ∃ h' x', pipelines p (h, x) = some (h', x') ∧ Within h h' p v.length ∧
          Chained m.heap.top.block (p.off + v.length + 1) (done ++ [v]) h' x' := by
    intro o done v rest p h x hall hx hb ho hv
    by_cases hp : Parseable v
    · exact .inr (hx.step hb ho hv hp)
    · refine .inl ⟨?_, v, by rw [hall]; simp, hp⟩
      rw [pipelines, pCommandLink_refused hv hp]
      rfl
  rcases tokens_cases (fun _ _ _ _ _ _ hx hw => hx.within hw) hbody rfl rfl hs₁ (.init _ _ _ m₁.saved) with
    ⟨hnone, hbad⟩ | ⟨h', pipe', o, hloop, hc, -, -⟩
  · refine .inl ⟨?_, hbad⟩
    rw [hrun, hnone]
    rfl
  · refine .inr ⟨_, o, pipe'.saved, ⟨pipe'.structs, pipe'.commands, decide (ampersand <:+: text), h'⟩, ?_, rfl, hc⟩
    rw [hrun, hloop, Option.map_some]

/-! ## What is built -/

theorem mem_chain {ls : List Parsed} {l : Parsed} (hl : l ∈ chain ls) : l = Parsed.blank ∨ l ∈ ls := by
  induction ls using List.reverseRecOn with
  | nil => exact .inl (List.mem_singleton.mp hl)
  | append_singleton ls l' ih =>
    rw [chain_snoc, joined] at hl
    split at hl
    · rcases List.mem_append.mp hl with hl | hl
      · exact (ih hl).imp_right (List.mem_append_left _)
      · exact .inr (List.mem_append_right _ hl)
    · exact .inr (List.mem_append_right _ hl)

/-- The commands of a line that fits its buffer, when every redirect has a path. -/
theorem pipelineBuild_chain (hs : m.heap.str commandLine = some text) (hlen : text.length ≤ maxLineLength)
    (hlink : ∀ w ∈ toks pipeChar text, link w ≠ none) :
    ∃ r, pipelineBuild commandLine m = some r ∧ r.read = some
      { commands := (chain ((toks pipeChar text).filterMap link)).map Parsed.command,
        isBackground := decide (ampersand <:+: text) } := by
  have hshort : ∀ w ∈ toks pipeChar text, w.length ≤ maxLineLength := by
    intro w hw
    exact (mem_toks hw).2.1.length_le.trans hlen
  rcases pipelineBuild_cases hs with ⟨-, w, hw, hbad⟩ | ⟨b, o, saved, r, hr, hbackground, hc⟩
  · exact absurd (.of_paths (hshort w hw) fun e he => pathOf_ne_none.mp (link_ne_none.mp (hlink w hw) e he)) hbad
  obtain ⟨ids, ls, hls, hlist⟩ := hc.listed
  have hls' : (toks pipeChar text).filterMap link = ls := by
    have hmap := congrArg (List.filterMap id) hls
    simpa [List.filterMap_map] using hmap
  refine ⟨r, hr, ?_⟩
  have hread := hlist.read fun l hl k v hk => ?_
  · rw [Built.read, hls', ← hbackground, hread, Option.map_some]
  · have hcount : 2 * l.args.length ≤ maxLineLength + 1 := by
      rcases mem_chain hl with rfl | hl
      · exact Nat.zero_le _
      · obtain ⟨w, hw, hlw⟩ := List.mem_filterMap.mp (hls' ▸ hl)
        exact (link_two_length hlw).trans (Nat.succ_le_succ (hshort w hw))
    obtain ⟨hlt, -⟩ := List.getElem?_eq_some_iff.mp hk
    rw [maxLineLength] at hcount
    rw [maxArgvLength, maxLineLength]
    omega

/-! ## Returning -/

/-- The lines on which pipeline_build returns, and has called deleteWords with a word each time. -/
theorem pipelineBuild_returns (hs : m.heap.str commandLine = some text) :
    ((∃ r, pipelineBuild commandLine m = some r) ∧
      ∀ w ∈ toks pipeChar text, ∀ e ∈ erasures w, ∃ oldWord, pathOf e.1 e.2 = some oldWord ∧ oldWord ≠ []) ↔
    ∀ w ∈ toks pipeChar text, Parseable w := by
  constructor
  · intro hret
    obtain ⟨⟨r, hr⟩, -⟩ := hret
    rcases pipelineBuild_cases hs with ⟨hnone, -⟩ | ⟨b, o, saved, r', -, -, hc⟩
    · rw [hnone] at hr
      cases hr
    · exact hc.parseable
  · intro hall
    refine ⟨?_, fun w hw e he => ?_⟩
    · rcases pipelineBuild_cases hs with ⟨-, w, hw, hbad⟩ | ⟨b, o, saved, r, hr, -⟩
      · exact absurd (hall w hw) hbad
      · exact ⟨r, hr⟩
    · obtain ⟨oldWord, hpath⟩ := Option.ne_none_iff_exists'.mp (pathOf_ne_none.mpr ((hall w hw).paths e he))
      exact ⟨oldWord, hpath, (pathOf_part hpath).1⟩

/-- "ls -l | wc > n" -/
theorem pipelineBuild_returns_wc : ∃ r, pipelineBuild ⟨0, 0⟩
    ⟨⟨[[108, 115, 32, 45, 108, 32, 124, 32, 119, 99, 32, 62, 32, 110, 0].map some]⟩, none⟩ = some r := by
  have hpieces : ∀ w ∈ toks pipeChar [108, 115, 32, 45, 108, 32, 124, 32, 119, 99, 32, 62, 32, 110],
      w.length ≤ maxLineLength ∧ ∀ e ∈ erasures w, pathOf e.1 e.2 ≠ none := by decide
  have hs : (Heap.mk [[108, 115, 32, 45, 108, 32, 124, 32, 119, 99, 32, 62, 32, 110, 0].map some]).str ⟨0, 0⟩ =
      some [108, 115, 32, 45, 108, 32, 124, 32, 119, 99, 32, 62, 32, 110] := by decide
  refine ((pipelineBuild_returns (m := ⟨_, none⟩) hs).mpr fun w hw => ?_).1
  exact .of_paths (hpieces w hw).1 fun e he => pathOf_ne_none.mp ((hpieces w hw).2 e he)

/-- "a <f >f": the erasure of the first path takes the second one with it. -/
theorem pipelineBuild_null_word :
    pipelineBuild ⟨0, 0⟩ ⟨⟨[[97, 32, 60, 102, 32, 62, 102, 0].map some]⟩, none⟩ = none ∧
      ∃ w ∈ toks pipeChar [97, 32, 60, 102, 32, 62, 102], ∃ e ∈ erasures w, pathOf e.1 e.2 = none := by
  have hnull : ∃ w ∈ toks pipeChar [97, 32, 60, 102, 32, 62, 102], ∃ e ∈ erasures w, pathOf e.1 e.2 = none := by
    decide
  have hs : (Heap.mk [[97, 32, 60, 102, 32, 62, 102, 0].map some]).str ⟨0, 0⟩ = some [97, 32, 60, 102, 32, 62, 102] := by
    decide
  refine ⟨?_, hnull⟩
  rcases pipelineBuild_cases (m := ⟨_, none⟩) hs with ⟨hnone, -⟩ | ⟨b, o, saved, r, -, -, hc⟩
  · exact hnone
  · obtain ⟨w, hw, e, he, hno⟩ := hnull
    exact absurd hno (pathOf_ne_none.mpr ((hc.parseable w hw).paths e he))

/-! ## The places of the arguments -/

/-- command_args of every struct that is allocated: an entry that is written is not NULL, and is
    written before the last place. -/
theorem pipelineBuild_last_null (hs : m.heap.str commandLine = some text) (hlen : text.length ≤ maxLineLength)
    (hpaths : ∀ w ∈ toks pipeChar text, ∀ e ∈ erasures w, HasPath e.1 e.2) :
    ∃ r, pipelineBuild commandLine m = some r ∧ ∀ c ∈ r.structs,
      c.commandArgs[maxArgvLength - 1]? = some none ∧
        ∀ (k : Nat) (q : Ptr), c.commandArgs[k]? = some (some q) → k < maxArgvLength - 1 := by
  have hshort : ∀ w ∈ toks pipeChar text, w.length ≤ maxLineLength := by
    intro w hw
    exact (mem_toks hw).2.1.length_le.trans hlen
  rcases pipelineBuild_cases hs with ⟨-, w, hw, hbad⟩ | ⟨b, o, saved, r, hr, -, hc⟩
  · exact absurd (.of_paths (hshort w hw) (hpaths w hw)) hbad
  refine ⟨r, hr, fun c hmem => ?_⟩
  obtain ⟨l, hl, hrep⟩ := hc.structs c hmem
  have hcount : 2 * l.args.length ≤ maxLineLength + 1 := by
    rcases hl with rfl | ⟨w, hw, hlw⟩
    · exact Nat.zero_le _
    · exact (link_two_length hlw).trans (Nat.succ_le_succ (hshort w hw))
  rw [maxLineLength] at hcount
  -- behind the entries of the line there is NULL
  have hbound : ∀ (k : Nat) (q : Ptr), c.commandArgs[k]? = some (some q) → k < maxArgvLength - 1 := by
    intro k q hq
    have hp := hrep.args k
    rw [hq, Option.join_some] at hp
    by_contra hge
    rw [maxArgvLength, maxLineLength] at hge
    rw [List.getElem?_eq_none (by omega)] at hp
    exact hp
  refine ⟨?_, hbound⟩
  have hlt : maxArgvLength - 1 < c.commandArgs.length := by
    rw [hrep.length]
    decide
  cases he : c.commandArgs[maxArgvLength - 1] with
  | none => rw [List.getElem?_eq_getElem hlt, he]
  | some q => exact absurd (hbound _ q (by rw [List.getElem?_eq_getElem hlt, he])) (lt_irrefl _)

/-- "a < b" -/
theorem pipelineBuild_last_null_a : ∃ r, pipelineBuild ⟨0, 0⟩
    ⟨⟨[[97, 32, 60, 32, 98, 0].map some]⟩, none⟩ = some r ∧ ∀ c ∈ r.structs,
      c.commandArgs[maxArgvLength - 1]? = some none ∧
        ∀ (k : Nat) (q : Ptr), c.commandArgs[k]? = some (some q) → k < maxArgvLength - 1 := by
  have hpieces : ∀ w ∈ toks pipeChar [97, 32, 60, 32, 98], ∀ e ∈ erasures w, pathOf e.1 e.2 ≠ none := by decide
  have hs : (Heap.mk [[97, 32, 60, 32, 98, 0].map some]).str ⟨0, 0⟩ = some [97, 32, 60, 32, 98] := by decide
  exact pipelineBuild_last_null (m := ⟨_, none⟩) hs (by decide) fun w hw e he => pathOf_ne_none.mp (hpieces w hw e he)

end EC440.Shell
