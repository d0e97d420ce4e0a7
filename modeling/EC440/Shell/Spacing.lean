/-
  Does the whitespace of a line matter? `pipelineBuild_spacing` says for which token sequences it
  does not: those of `Settled`, where every word behind a sign is a path and every command that
  could be taken for none is before the first command with words.

  One direction reads the pipeline off the tokens (`Settled.commands_eq`). For the other a blank is
  added to the shortest line, in a command (`Regular.blank_matters`) or where a command has no
  tokens (`exists_other_line`).
-/
import EC440.Shell.Tight

namespace EC440.Shell

open EC440.Lib

variable {c d : UInt8} {s t u v w text x p : Str} {ts A B : List Token}

/-! ## Pieces -/

/-- The tokens of each command. -/
def commandsOf (ts : List Token) : List (List Token) := ts.splitOn (.sep 124)

theorem sep_mem_lex (hc : c ∈ specialChars) : .sep c ∈ lex s ↔ c ∈ s := by
  rw [lex, sep_mem_filter hc, ← (scan_spaced s).sep_mem (plainChar_special hc), textOf_scan]

theorem commandsOf_lex (s : Str) : commandsOf (lex s) = (s.splitOn 124).map lex := by
  have hpipe : (124 : UInt8) ∈ specialChars := by decide
  induction s using splitOn_induction (124 : UInt8) with
  | hlast u hu =>
    have hno : .sep 124 ∉ lex u := fun h => hu ((sep_mem_lex hpipe).mp h)
    rw [commandsOf, List.splitOn_eq_singleton hno, List.splitOn_eq_singleton hu, List.map_singleton]
  | hcons u v hu ih =>
    have hno : .sep 124 ∉ lex u := fun h => hu ((sep_mem_lex hpipe).mp h)
    rw [lex_append_special hpipe, commandsOf, List.splitOn_append_cons_self_of_not_mem hno,
      List.splitOn_append_cons_self_of_not_mem hu, List.map_cons, ← ih]
    rfl

theorem pipe_mem_tight (h : ∀ t ∈ ts, t.Proper) : 124 ∈ tight ts ↔ .sep 124 ∈ ts := by
  rw [← sep_mem_lex (by decide), lex_tight h]

theorem splitOn_tight (h : ∀ t ∈ ts, t.Proper) : (tight ts).splitOn 124 = (commandsOf ts).map tight := by
  induction ts using splitOn_induction (Token.sep 124) with
  | hlast A hA =>
    have hno : 124 ∉ tight A := fun hmem => hA ((pipe_mem_tight h).mp hmem)
    rw [commandsOf, List.splitOn_eq_singleton hno, List.splitOn_eq_singleton hA, List.map_singleton]
  | hcons A B hA ih =>
    have hno : 124 ∉ tight A := fun hmem => hA ((pipe_mem_tight fun t ht => h t (List.mem_append_left _ ht)).mp hmem)
    rw [tight_append_sep, commandsOf, List.splitOn_append_cons_self_of_not_mem hno,
      List.splitOn_append_cons_self_of_not_mem hA, List.map_cons,
      ih fun t ht => h t (List.mem_append_right _ (List.mem_cons_of_mem _ ht))]
    rfl

/-- What is parsed of the pieces of a line. -/
def linked (ps : List Str) : List Parsed := (ps.filter (· ≠ [])).filterMap link

theorem linked_append (ps qs : List Str) : linked (ps ++ qs) = linked ps ++ linked qs := by
  rw [linked, List.filter_append, List.filterMap_append, linked, linked]

theorem linked_cons {l : Parsed} (hne : p ≠ []) (hl : link p = some l) (ps : List Str) :
    linked (p :: ps) = l :: linked ps := by
  rw [linked, List.filter_cons_of_pos (by simpa using hne), List.filterMap_cons_some hl, linked]

theorem toks_pipe (s : Str) : toks pipeChar s = (s.splitOn 124).filter (· ≠ []) := by
  have heq : ∀ c : UInt8, decide (c ∈ pipeChar) = (c == 124) := by
    intro c
    simp [pipeChar, beq_eq_decide]
  rw [toks, List.splitOn_eq_splitOnP, show (fun c => decide (c ∈ pipeChar)) = (· == 124) from funext heq]

/-! ## The list of commands -/

theorem exists_first {α : Type*} (P : α → Prop) (l : List α) : (∀ a ∈ l, ¬ P a) ∨
    ∃ A a B, l = A ++ a :: B ∧ (∀ a ∈ A, ¬ P a) ∧ P a := by
  induction l with
  | nil => exact .inl (by simp)
  | cons a l ih =>
    by_cases ha : P a
    · exact .inr ⟨[], a, l, rfl, by simp, ha⟩
    · rcases ih with hall | ⟨A, b, B, rfl, hA, hb⟩
      · exact .inl (by simpa [ha] using hall)
      · exact .inr ⟨a :: A, b, B, rfl, by simpa [ha] using hA, hb⟩

section
variable {ls A B : List Parsed} {l l' : Parsed}

theorem foldl_joined_named (hl : l.Named) (A B : List Parsed) : B.foldl joined (l :: A) = l :: (A ++ B) := by
  induction B generalizing A with
  | nil => rw [List.append_nil, List.foldl_nil]
  | cons b B ih =>
    have hjoin : joined (l :: A) b = l :: (A ++ [b]) := if_pos ⟨l, rfl, hl⟩
    rw [List.foldl_cons, hjoin, ih, List.append_assoc, List.singleton_append]

theorem joined_nameless (hl : ¬ l.Named) (l' : Parsed) : joined [l] l' = [l'] := by
  refine if_neg fun h => ?_
  obtain ⟨first, hfirst, hnamed⟩ := h
  rw [List.head?_cons, Option.mem_some_iff] at hfirst
  exact hl (hfirst ▸ hnamed)

theorem foldl_joined_nameless (hl : ¬ l.Named) (hls : ∀ l ∈ ls, ¬ l.Named) :
    ls.foldl joined [l] = [ls.getLast?.getD l] := by
  induction ls generalizing l with
  | nil => rfl
  | cons a ls ih =>
    rw [List.foldl_cons, joined_nameless hl, ih (hls a List.mem_cons_self) fun b hb => hls b (List.mem_cons_of_mem a hb),
      List.getLast?_cons, Option.getD_some]

theorem blank_nameless : ¬ Parsed.blank.Named := by
  intro h
  obtain ⟨v, hv⟩ := h
  cases hv

/-- Without any name only the last command is left. -/
theorem chain_nameless (hls : ∀ l ∈ ls, ¬ l.Named) : chain ls = [ls.getLast?.getD Parsed.blank] :=
  foldl_joined_nameless blank_nameless hls

/-- The commands before the first name are dropped. -/
theorem chain_named (hA : ∀ l ∈ A, ¬ l.Named) (hl : l.Named) (B : List Parsed) : chain (A ++ l :: B) = l :: B := by
  have hlast : ¬ (A.getLast?.getD Parsed.blank).Named := by
    cases hl : A.getLast? with
    | none => exact blank_nameless
    | some a => exact hA a (List.mem_of_getLast? hl)
  rw [chain, List.foldl_append, foldl_joined_nameless blank_nameless hA, List.foldl_cons, joined_nameless hlast,
    foldl_joined_named hl, List.nil_append]

/-- Another command in the place of one that has a name. -/
theorem chain_ne (hl : l.Named) (hne : l.command ≠ l'.command) (A B : List Parsed) :
    (chain (A ++ l :: B)).map Parsed.command ≠ (chain (A ++ l' :: B)).map Parsed.command := by
  rcases exists_first Parsed.Named A with hA | ⟨A₀, a, A₁, rfl, hA₀, ha⟩
  · rw [chain_named hA hl]
    by_cases hl' : l'.Named
    · rw [chain_named hA hl', List.map_cons, List.map_cons]
      exact fun heq => hne (List.cons.inj heq).1
    · have hA' : ∀ a ∈ A ++ [l'], ¬ a.Named := by
        intro a ha
        rcases List.mem_append.mp ha with ha | ha
        · exact hA a ha
        · rw [List.mem_singleton.mp ha]
          exact hl'
      intro heq
      have hlen := congrArg List.length heq
      rw [show A ++ l' :: B = (A ++ [l']) ++ B by simp] at heq hlen
      rcases exists_first Parsed.Named B with hB | ⟨B₀, b, B₁, rfl, hB₀, hb⟩
      · -- the last command is the only one
        rw [chain_nameless fun a ha => (List.mem_append.mp ha).elim (hA' a) (hB a), List.length_map, List.length_map,
          List.length_cons, List.length_singleton] at hlen
        obtain rfl : B = [] := List.length_eq_zero_iff.mp (by omega)
        rw [List.append_nil, chain_nameless hA', List.getLast?_append, List.getLast?_singleton] at heq
        exact hne (List.cons.inj heq).1
      · rw [← List.append_assoc, chain_named (fun a ha => (List.mem_append.mp ha).elim (hA' a) (hB₀ a)) hb, List.length_map,
          List.length_map, List.length_cons, List.length_append, List.length_cons] at hlen
        omega
  · rw [List.append_assoc, List.append_assoc, List.cons_append, List.cons_append, chain_named hA₀ ha, chain_named hA₀ ha,
      List.map_cons, List.map_cons, List.map_append, List.map_append, List.map_cons, List.map_cons]
    exact fun heq => hne (List.cons.inj (List.append_cancel_left (List.cons.inj heq).2)).1

/-- One command more behind a name. -/
theorem chain_longer (hA : ∃ a ∈ A, a.Named) (l : Parsed) (B : List Parsed) :
    (chain (A ++ B)).map Parsed.command ≠ (chain (A ++ l :: B)).map Parsed.command := by
  rcases exists_first Parsed.Named A with hno | ⟨A₀, a, A₁, rfl, hA₀, ha⟩
  · obtain ⟨a, ha, hnamed⟩ := hA
    exact absurd hnamed (hno a ha)
  · rw [List.append_assoc, List.append_assoc, List.cons_append, List.cons_append, chain_named hA₀ ha, chain_named hA₀ ha]
    intro heq
    have hlen := congrArg List.length heq
    simp only [List.length_map, List.length_cons, List.length_append] at hlen
    omega

end

/-! ## Commands whose blanks do not matter -/

def leadingWords : List Token → List Str
  | .word u :: ts => u :: leadingWords ts
  | _ => []

/-- What a command says, when no argument is behind a sign. -/
def meaning (ts : List Token) : Command :=
  { args := leadingWords ts, redirectInPath := pathAfter 60 ts, redirectOutPath := pathAfter 62 ts }

/-- Every word behind a sign is a path of the command. -/
def Trailing (ts : List Token) : Prop :=
  ∀ A c B u, ts = A ++ .sep c :: B → .word u ∈ B → pathAfter 60 ts = some u ∨ pathAfter 62 ts = some u

theorem leadingWords_split (ts : List Token) : ∃ R, ts = (leadingWords ts).map .word ++ R ∧
    ∀ t ∈ R.head?, t.isWord = false := by
  induction ts with
  | nil => exact ⟨[], rfl, by simp⟩
  | cons t ts ih =>
    cases t with
    | sep c => exact ⟨.sep c :: ts, rfl, by simp [Token.isWord]⟩
    | word u =>
      obtain ⟨R, hR, hhead⟩ := ih
      exact ⟨R, by rw [leadingWords, List.map_cons, List.cons_append, ← hR], hhead⟩

/-- Words with blanks around them, and behind them what is no part of an argument. -/
theorem argsOf_front {S : List Token} {us : List Str} {junk : Str} (hs : Spaced S) (hne : ∀ u, .word u ∈ S → u ≠ [])
    (hus : S.filter Token.isLexeme = us.map .word) (hj : Junk junk) :
    ∃ k, argsOf (textOf S ++ junk) = us.map some ++ List.replicate k none := by
  induction S generalizing us with
  | nil =>
    rw [List.filter_nil, eq_comm, List.map_eq_nil_iff] at hus
    rw [hus]
    exact argsOf_junk hj
  | cons t S ih =>
    have hne' : ∀ u, .word u ∈ S → u ≠ [] := fun u hu => hne u (List.mem_cons_of_mem t hu)
    cases t with
    | sep c =>
      by_cases hc : c ∈ whitespaceChars
      · rw [filter_blank hc] at hus
        rw [textOf_cons, Token.text, List.singleton_append, List.cons_append, argsOf_cons_blank hc]
        exact ih hs.tail hne' hus
      · rw [filter_sep hc] at hus
        cases us with
        | nil => cases hus
        | cons u us => cases hus
    | word u =>
      rw [List.filter_cons_of_pos rfl] at hus
      cases us with
      | nil => cases hus
      | cons u' us =>
        rw [List.map_cons, List.cons.injEq, Token.word.injEq] at hus
        obtain ⟨rfl, hus⟩ := hus
        have hu : Plain u := hs.valid (.word u) List.mem_cons_self
        have hone : ([u].filter (· ≠ [])).map some = [some u] := by simp [hne u List.mem_cons_self]
        rw [textOf_cons, Token.text]
        cases S with
        | nil =>
          rw [List.filter_nil, eq_comm, List.map_eq_nil_iff] at hus
          obtain ⟨k, hk⟩ := argsOf_last hu hj
          exact ⟨k, by rw [show textOf [] = [] from rfl, List.append_nil, hk, hone, hus]; rfl⟩
        | cons t S =>
          have ht := hs.head t rfl
          cases t with
          | word v => cases ht
          | sep c =>
            obtain ⟨k, hk⟩ := ih hs.tail hne' hus
            have hc : c ∈ whitespaceChars := by
              by_contra hc
              rw [filter_sep hc] at hus
              cases us with
              | nil => cases hus
              | cons u us => cases hus
            rw [textOf_cons, Token.text, List.singleton_append, List.cons_append, argsOf_cons_blank hc] at hk
            refine ⟨k, ?_⟩
            rw [textOf_cons, Token.text, List.append_assoc, List.singleton_append, List.cons_append,
              argsOf_append_blank hc, argsOf_one (hne u List.mem_cons_self) hu, hk]
            rfl

/-- Whatever the blanks are, p_command_link makes the same command. -/
theorem Regular.settled (hreg : Regular (lex text)) (hz : 0 ∉ text) (htrail : Trailing (lex text)) :
    ∃ l, link text = some l ∧ l.command = meaning (lex text) := by
  refine ⟨_, link_of_lex hreg hz, ?_⟩
  rw [Parsed.command, meaning, Command.mk.injEq]
  refine ⟨?_, rfl, rfl⟩
  obtain ⟨R, hlex, hhead⟩ := leadingWords_split (lex text)
  generalize leadingWords (lex text) = ws at hlex
  obtain ⟨S, T, hscan, hS, hT⟩ := List.filter_eq_append_iff.mp hlex
  have hs : Spaced (S ++ T) := hscan ▸ scan_spaced text
  have hne : ∀ u, .word u ∈ S → u ≠ [] := fun u hu => scan_ne_nil (s := text) (by rw [hscan]; simp [hu])
  have hkeep : S.map (strip (lex text)) = S := by
    rw [hlex] at hreg ⊢
    refine (List.map_congr_left fun t ht => ?_).trans (List.map_id S)
    cases t with
    | sep c => rfl
    | word u => exact hreg.keep_before (by simp) (by simp) (hS ▸ word_mem_filter.mpr ht)
  have hjunk : Junk (textOf (T.map (strip (lex text)))) := by
    intro c hc
    obtain ⟨t, ht, hc⟩ := List.mem_flatMap.mp hc
    obtain ⟨t, hmem, rfl⟩ := List.mem_map.mp ht
    cases t with
    | sep d =>
      have hd : plainChar d = false := hs.valid (.sep d) (List.mem_append_right S hmem)
      rw [List.mem_singleton.mp hc]
      simpa [plainChar, or_iff_not_imp_left] using hd
    | word u =>
      -- it is behind a sign
      have hu : .word u ∈ R := hT ▸ word_mem_filter.mpr hmem
      have hpath : pathAfter 60 (lex text) = some u ∨ pathAfter 62 (lex text) = some u := by
        cases R with
        | nil => cases hu
        | cons t R =>
          have ht := hhead t rfl
          cases t with
          | word v => cases ht
          | sep d => exact htrail _ d R u hlex (by simpa using hu)
      rw [hreg.strip_word (by rw [hlex]; exact List.mem_append_right _ hu), if_pos hpath] at hc
      cases hc
  obtain ⟨k, hk⟩ := argsOf_front hs.append.1 hne hS hjunk
  rw [hscan, List.map_append, textOf_append, hkeep, hk, leading_args]

/-- A command without a leading word has no word at all. -/
theorem Trailing.wordless (htrail : Trailing ts) (hreg : Regular ts) (h : ∀ t ∈ ts, t.Proper)
    (hhead : leadingWords ts = []) : ∀ u, .word u ∉ ts := by
  intro u hu
  obtain ⟨A, v, B, rfl, hA⟩ := exists_first_word hu
  cases A with
  | nil => cases hhead
  | cons t A =>
    cases t with
    | word x => exact hA x List.mem_cons_self
    | sep c =>
      have hkeep := hreg.first_keep hA
      rw [hreg.strip_word (by simp), if_pos (htrail [] c (A ++ .word v :: B) v rfl (by simp)), Token.word.injEq] at hkeep
      exact (h (.word v) (by simp)).ne_nil hkeep.symm

theorem pathAfter_mem (hw : pathAfter c ts = some w) : .word w ∈ ts := by
  induction ts with
  | nil => cases hw
  | cons t ts ih =>
    cases t with
    | word u => exact List.mem_cons_of_mem _ (ih hw)
    | sep d =>
      rw [pathAfter] at hw
      split at hw
      · cases ts with
        | nil => cases hw
        | cons t ts =>
          cases t with
          | sep e => cases hw
          | word u =>
            cases hw
            simp
      · exact List.mem_cons_of_mem _ (ih hw)

theorem Trailing.meaning_blank (htrail : Trailing ts) (hreg : Regular ts) (h : ∀ t ∈ ts, t.Proper)
    (hhead : leadingWords ts = []) : meaning ts = Parsed.blank.command := by
  have hnone : ∀ c, pathAfter c ts = none := by
    intro c
    cases hpath : pathAfter c ts with
    | none => rfl
    | some w => exact absurd (pathAfter_mem hpath) (htrail.wordless hreg h hhead w)
  rw [meaning, hhead, hnone, hnone]
  rfl

theorem Parsed.named_iff {l : Parsed} : l.Named ↔ l.command.args ≠ [] := by
  rw [Parsed.Named, Parsed.command]
  cases l.args with
  | nil => simp [leading]
  | cons e es =>
    cases e with
    | none => simp [leading_none]
    | some y => simp [leading_some]

/-! ## Lines -/

/-- Every word behind a sign is a path, and no command without tokens is behind one with words. -/
structure Settled (ts : List Token) : Prop where
  trailing : ∀ K ∈ commandsOf ts, Trailing K
  empty : ∀ X Y, commandsOf ts = X ++ [] :: Y → ∀ K ∈ X, ∀ u, .word u ∉ K

theorem mem_linked {ps : List Str} {l : Parsed} (hl : l ∈ linked ps) : ∃ p ∈ ps, link p = some l := by
  obtain ⟨p, hp, hlink⟩ := List.mem_filterMap.mp hl
  exact ⟨p, (List.mem_filter.mp hp).1, hlink⟩

theorem command_mem_splitOn (hp : p ∈ s.splitOn 124) : lex p ∈ commandsOf (lex s) := by
  rw [commandsOf_lex]
  exact List.mem_map_of_mem hp

section
variable (hreg : ∀ K ∈ commandsOf (lex s), Regular K) (hz : 0 ∉ s)
include hreg hz

theorem piece_link (hp : p ∈ s.splitOn 124) : ∃ l, link p = some l :=
  ⟨_, link_of_lex (hreg _ (command_mem_splitOn hp)) fun h => hz ((infix_of_mem_splitOn hp).subset h)⟩

theorem Settled.piece (hset : Settled (lex s)) (hp : p ∈ s.splitOn 124) :
    ∃ l, link p = some l ∧ l.command = meaning (lex p) :=
  (hreg _ (command_mem_splitOn hp)).settled (fun h => hz ((infix_of_mem_splitOn hp).subset h))
    (hset.trailing _ (command_mem_splitOn hp))

theorem Settled.nameless (hset : Settled (lex s)) (hp : p ∈ s.splitOn 124) (hhead : leadingWords (lex p) = [])
    {l : Parsed} (hl : link p = some l) : ¬ l.Named ∧ l.command = Parsed.blank.command := by
  obtain ⟨l', hl', hcommand⟩ := hset.piece hreg hz hp
  rw [hl, Option.some.injEq] at hl'
  rw [← hl'] at hcommand
  have hmem := command_mem_splitOn hp
  rw [Parsed.named_iff, hcommand, (hset.trailing _ hmem).meaning_blank (hreg _ hmem) (lex_proper p) hhead]
  exact ⟨by simp [Parsed.command, Parsed.blank, leading], rfl⟩

/-- No command has a name. -/
theorem Settled.commands_nameless (hset : Settled (lex s)) (hall : ∀ K ∈ commandsOf (lex s), leadingWords K = []) :
    (chain (linked (s.splitOn 124))).map Parsed.command = [Parsed.blank.command] := by
  have hnone : ∀ l ∈ linked (s.splitOn 124), ¬ l.Named ∧ l.command = Parsed.blank.command := by
    intro l hl
    obtain ⟨p, hp, hlink⟩ := mem_linked hl
    exact hset.nameless hreg hz hp (hall _ (command_mem_splitOn hp)) hlink
  rw [chain_nameless fun l hl => (hnone l hl).1, List.map_singleton]
  cases hlast : (linked (s.splitOn 124)).getLast? with
  | none => rfl
  | some l => rw [Option.getD_some, (hnone l (List.mem_of_getLast? hlast)).2]

/-- From the first name on, every command is there. -/
theorem Settled.commands_named (hset : Settled (lex s)) {X Y : List (List Token)} {K : List Token}
    (hsplit : commandsOf (lex s) = X ++ K :: Y) (hX : ∀ K ∈ X, leadingWords K = []) (hK : leadingWords K ≠ []) :
    (chain (linked (s.splitOn 124))).map Parsed.command = (K :: Y).map meaning := by
  have hpieces : ∀ p ∈ s.splitOn 124, ∃ l, link p = some l ∧ l.command = meaning (lex p) :=
    fun p hp => hset.piece hreg hz hp
  have hnameless := fun p hp => hset.nameless hreg hz (p := p) hp
  have hempty := hset.empty
  rw [hsplit] at hempty
  rw [commandsOf_lex] at hsplit
  obtain ⟨P, Q, hPQ, rfl, hQ⟩ := List.map_eq_append_iff.mp hsplit
  obtain ⟨p, Q, rfl, rfl, rfl⟩ := List.map_eq_cons_iff.mp hQ
  rw [hPQ] at hpieces hnameless ⊢
  obtain ⟨l, hl, hcommand⟩ := hpieces p (by simp)
  have hne : p ≠ [] := by
    rintro rfl
    exact hK rfl
  have hnamed : l.Named := by
    rw [Parsed.named_iff, hcommand]
    exact hK
  have hfront : ∀ l ∈ linked P, ¬ l.Named := by
    intro l hl
    obtain ⟨q, hq, hlink⟩ := mem_linked hl
    exact (hnameless q (by simp [hq]) (hX _ (List.mem_map_of_mem hq)) hlink).1
  -- a piece without a character would be a command without tokens
  have hrest : ∀ Q', Q' ⊆ Q → (linked Q').map Parsed.command = (Q'.map lex).map meaning := by
    intro Q' hsub
    induction Q' with
    | nil => rfl
    | cons q Q' ih =>
      have hq : q ∈ Q := hsub List.mem_cons_self
      have hqne : q ≠ [] := by
        rintro rfl
        obtain ⟨Q₁, Q₂, rfl⟩ := List.append_of_mem hq
        obtain ⟨u, us, hu⟩ := List.exists_cons_of_ne_nil hK
        refine hempty (P.map lex ++ lex p :: Q₁.map lex) (Q₂.map lex) (by simp [lex, scan]) (lex p) (by simp) u ?_
        obtain ⟨R, hR, -⟩ := leadingWords_split (lex p)
        rw [hR, hu]
        simp
      obtain ⟨l', hl', hcommand'⟩ := hpieces q (by simp [hq])
      rw [linked_cons hqne hl', List.map_cons, List.map_cons, List.map_cons, hcommand',
        ih fun x hx => hsub (List.mem_cons_of_mem q hx)]
  rw [linked_append, linked_cons hne hl, chain_named hfront hnamed, List.map_cons, List.map_cons, hcommand,
    hrest Q (List.Subset.refl Q)]

end

theorem Settled.commands_eq (hset : Settled ts) (hreg : ∀ K ∈ commandsOf ts, Regular K) (hs : lex s = ts) (ht : lex t = ts)
    (hz : 0 ∉ s) (hz' : 0 ∉ t) :
    (chain (linked (s.splitOn 124))).map Parsed.command = (chain (linked (t.splitOn 124))).map Parsed.command := by
  rcases exists_first (fun K => leadingWords K ≠ []) (commandsOf ts) with hall | ⟨X, K, Y, hsplit, hX, hK⟩
  · have hnone : ∀ K ∈ commandsOf ts, leadingWords K = [] := fun K hK => not_not.mp (hall K hK)
    rw [Settled.commands_nameless (hs ▸ hreg) hz (hs ▸ hset) (hs ▸ hnone),
      Settled.commands_nameless (ht ▸ hreg) hz' (ht ▸ hset) (ht ▸ hnone)]
  · have hX' : ∀ K ∈ X, leadingWords K = [] := fun K hK => not_not.mp (hX K hK)
    rw [Settled.commands_named (hs ▸ hreg) hz (hs ▸ hset) (hs ▸ hsplit) hX' hK,
      Settled.commands_named (ht ▸ hreg) hz' (ht ▸ hset) (ht ▸ hsplit) hX' hK]

/-! ## Lines of which a blank makes another -/

theorem intercalate_length (ps qs : List Str) (x y : Str) :
    ([124].intercalate (ps ++ x :: qs)).length + y.length = ([124].intercalate (ps ++ y :: qs)).length + x.length := by
  induction ps with
  | nil =>
    cases qs with
    | nil => simp [Nat.add_comm]
    | cons q qs =>
      rw [List.nil_append, List.nil_append, List.intercalate_cons_cons, List.intercalate_cons_cons]
      simp only [List.length_append]
      omega
  | cons p ps ih =>
    rw [List.cons_append, List.cons_append, List.intercalate_cons_of_ne_nil (by simp),
      List.intercalate_cons_of_ne_nil (by simp)]
    simp only [List.length_append]
    omega

/-- Another piece with the same tokens in the place of one of the shortest line. -/
theorem exists_line (h : ∀ t ∈ ts, t.Proper) {X Y : List (List Token)} {K : List Token}
    (hsplit : commandsOf ts = X ++ K :: Y) (hx : lex x = K) :
    ∃ t, lex t = ts ∧ t.length + (tight K).length = (tight ts).length + x.length ∧
      t.splitOn 124 = X.map tight ++ x :: Y.map tight := by
  have hlex : (X.map tight ++ x :: Y.map tight).map lex = commandsOf ts := by
    have hid : ∀ Z : List (List Token), Z ⊆ commandsOf ts → (Z.map tight).map lex = Z := by
      intro Z hZ
      rw [List.map_map]
      refine (List.map_congr_left fun K' hK' => ?_).trans (List.map_id Z)
      exact lex_tight fun t ht => h t ((infix_of_mem_splitOn (hZ hK')).subset ht)
    rw [List.map_append, List.map_cons, hid X (by simp [hsplit]), hid Y (by simp [hsplit]), hx, hsplit]
  have hpipe : ∀ p ∈ X.map tight ++ x :: Y.map tight, 124 ∉ p := by
    intro p hp hmem
    have hcommand : lex p ∈ commandsOf ts := hlex ▸ List.mem_map_of_mem hp
    exact not_mem_of_mem_splitOn hcommand ((sep_mem_lex (by decide)).mpr hmem)
  have hpieces := List.splitOn_intercalate 124 hpipe (by simp)
  refine ⟨[124].intercalate (X.map tight ++ x :: Y.map tight), ?_, ?_, hpieces⟩
  · have hjoin : ∀ us : List Token, [Token.sep 124].intercalate (commandsOf us) = us :=
      fun us => List.intercalate_splitOn _
    have hcommands := commandsOf_lex ([124].intercalate (X.map tight ++ x :: Y.map tight))
    rw [hpieces, hlex] at hcommands
    rw [← hjoin ts, ← hcommands, hjoin]
  · rw [intercalate_length _ _ x (tight K), ← List.map_cons, ← List.map_append, ← hsplit, ← splitOn_tight h,
      List.intercalate_splitOn]

theorem zero_mem_lex : 0 ∈ s ↔ ∃ u, .word u ∈ lex s ∧ 0 ∈ u := by
  constructor
  · intro hmem
    rw [← textOf_scan s] at hmem
    obtain ⟨t, ht, hmem⟩ := List.mem_flatMap.mp hmem
    cases t with
    | sep c =>
      have hc : plainChar c = false := (scan_spaced s).valid (.sep c) ht
      rw [← List.mem_singleton.mp hmem] at hc
      cases hc
    | word u => exact ⟨u, word_mem_filter.mpr ht, hmem⟩
  · intro hex
    obtain ⟨u, hu, hmem⟩ := hex
    rw [← textOf_scan s]
    exact List.mem_flatMap.mpr ⟨.word u, word_mem_filter.mp hu, hmem⟩

/-- What p_command_link makes of the shortest text of a command, and that it has a name. -/
theorem link_tight (hreg : Regular ts) (h : ∀ t ∈ ts, t.Proper) (hz : ∀ u, .word u ∈ ts → 0 ∉ u) :
    link (tight ts) = some
      { inPath := pathAfter 60 ts, outPath := pathAfter 62 ts, args := argsOf (tight (ts.map (strip ts))) } := by
  have hlex := lex_tight h
  have hz' : 0 ∉ tight ts := by
    intro hmem
    obtain ⟨u, hu, hmem⟩ := zero_mem_lex.mp hmem
    exact hz u (hlex ▸ hu) hmem
  have hreg' : Regular (lex (tight ts)) := by rwa [hlex]
  have hlink := link_of_lex hreg' hz'
  rwa [hlex, strip_tight h] at hlink

section
variable (h : ∀ t ∈ ts, t.Proper) (hreg : ∀ K ∈ commandsOf ts, Regular K) (hz : ∀ u, .word u ∈ ts → 0 ∉ u)
include h hreg hz

theorem named_tight {K : List Token} (hK : K ∈ commandsOf ts) (hu : .word u ∈ K) :
    ∃ l, link (tight K) = some l ∧ l.Named ∧ tight K ≠ [] ∧ l.command.args = leading (argsOf (tight (K.map (strip K)))) := by
  have hsub := (infix_of_mem_splitOn hK).subset
  have hlink := link_tight (hreg K hK) (fun t ht => h t (hsub ht)) fun u hu => hz u (hsub hu)
  obtain ⟨y, es, hnamed⟩ := (hreg K hK).tight_named (fun t ht => h t (hsub ht)) hu
  refine ⟨_, hlink, ⟨y, by rw [hnamed]; rfl⟩, ?_, rfl⟩
  intro hnil
  have hlex := lex_tight fun t ht => h t (hsub ht)
  rw [hnil] at hlex
  rw [← hlex] at hu
  cases hu

theorem exists_other_line (hnot : ¬ Settled ts) :
    ∃ t, lex t = ts ∧ t.length = (tight ts).length + 1 ∧
      (chain (linked ((tight ts).splitOn 124))).map Parsed.command ≠ (chain (linked (t.splitOn 124))).map Parsed.command := by
  by_cases htrail : ∀ K ∈ commandsOf ts, Trailing K
  · -- a blank makes a command of nothing
    have hempty : ∃ X Y, commandsOf ts = X ++ [] :: Y ∧ ∃ K ∈ X, ∃ u, .word u ∈ K := by
      by_contra hno
      push Not at hno
      exact hnot ⟨htrail, hno⟩
    obtain ⟨X, Y, hsplit, K, hK, u, hu⟩ := hempty
    obtain ⟨t, hlex, hlen, hpieces⟩ := exists_line (x := [32]) h hsplit (by decide)
    refine ⟨t, hlex, by simpa [tight, space, textOf] using hlen, ?_⟩
    have hblank : link [32] = some ⟨none, none, []⟩ := by decide
    have hnone : linked [] = [] := rfl
    obtain ⟨l, hl, hnamed, hne, -⟩ := named_tight h hreg hz (K := K) (by rw [hsplit]; simp [hK]) hu
    obtain ⟨X₁, X₂, rfl⟩ := List.append_of_mem hK
    have hmem : l ∈ linked ((X₁ ++ K :: X₂).map tight) := by
      rw [List.map_append, List.map_cons, linked_append, linked_cons hne hl]
      simp
    have hskip : linked (tight [] :: Y.map tight) = linked (Y.map tight) := by
      rw [linked, List.filter_cons_of_neg (by simp [tight, space, textOf]), linked]
    rw [hpieces, splitOn_tight h, hsplit, List.map_append, List.map_cons, linked_append, linked_append, hskip,
      linked_cons (by simp) hblank]
    exact chain_longer ⟨l, hmem, hnamed⟩ _ _
  · push Not at htrail
    obtain ⟨K, hK, htrail⟩ := htrail
    rw [Trailing] at htrail
    push Not at htrail
    obtain ⟨A, c, B, u, hAB, hu, hin, hout⟩ := htrail
    obtain ⟨ws, d, R, hts, hu⟩ := exists_first_sep hAB hu
    have hsub := (infix_of_mem_splitOn hK).subset
    obtain ⟨x, hx, hxlen, hdiff⟩ := (hreg K hK).blank_matters (fun t ht => h t (hsub ht)) hts hu hin hout
    obtain ⟨X, Y, hsplit⟩ := List.append_of_mem hK
    obtain ⟨t, hlex, hlen, hpieces⟩ := exists_line h hsplit hx
    refine ⟨t, hlex, by omega, ?_⟩
    obtain ⟨l, hl, hnamed, hne, hargs⟩ := named_tight h hreg hz (u := u) hK (by rw [hts]; simp [hu])
    have hxz : 0 ∉ x := by
      intro hmem
      obtain ⟨v, hv, hmem⟩ := zero_mem_lex.mp hmem
      exact hz v (hsub (hx ▸ hv)) hmem
    have hxne : x ≠ [] := by
      rintro rfl
      simp at hxlen
    have hregx : Regular (lex x) := hx ▸ hreg K hK
    have hlink := link_of_lex hregx hxz
    rw [hpieces, splitOn_tight h, hsplit, List.map_append, List.map_cons, linked_append, linked_append,
      linked_cons hne hl, linked_cons hxne hlink]
    refine chain_ne hnamed (fun heq => hdiff ?_) _ _
    have hsame := congrArg Command.args heq
    rw [hargs] at hsame
    rw [hsame, hx]
    rfl

end

/-! ## Which blank it is -/

/-- One kind of blanks only. -/
def normal (c : UInt8) : UInt8 := if c ∈ whitespaceChars then 32 else c

theorem normal_of_not_blank (hc : c ∉ whitespaceChars) : normal c = c := if_neg hc

theorem normal_blank (hc : c ∈ whitespaceChars) : normal c = 32 := if_pos hc

theorem map_normal (hu : ∀ c ∈ u, c ∉ whitespaceChars) : u.map normal = u :=
  (List.map_congr_left fun c hc => normal_of_not_blank (hu c hc)).trans (List.map_id u)

theorem toks_normal (x : Str) : toks whitespaceChars (x.map normal) = toks whitespaceChars x := by
  have hblank : ∀ ds : Str, (∀ c ∈ ds, c ∈ whitespaceChars) → ∀ c ∈ ds.map normal, c ∈ whitespaceChars := by
    intro ds hds c hc
    obtain ⟨d, hd, rfl⟩ := List.mem_map.mp hc
    rw [normal_blank (hds d hd)]
    decide
  induction x using toks_induction whitespaceChars with
  | hdelims ds hds => rw [toks_delims hds, toks_delims (hblank ds hds)]
  | hlast ds w hds hne hw =>
    rw [List.map_append, map_normal hw, toks_last hds hne hw, toks_last (hblank ds hds) hne hw]
  | htoken ds w d v hds hne hw hd ih =>
    rw [List.map_append, List.map_append, List.map_cons, map_normal hw, toks_token hds hne hw hd,
      toks_token (hblank ds hds) hne hw (by rw [normal_blank hd]; decide), ih]

def Token.normal : Token → Token
  | sep c => sep (Shell.normal c)
  | word u => word u

theorem plainChar_normal (c : UInt8) : plainChar (normal c) = plainChar c := by
  by_cases hc : c ∈ whitespaceChars
  · rw [normal_blank hc, plainChar_blank hc]
    rfl
  · rw [normal_of_not_blank hc]

theorem scan_normal (s : Str) : scan (s.map normal) = (scan s).map Token.normal := by
  have hcons : ∀ (c : UInt8) (ts : List Token), consPlain c (ts.map Token.normal) = (consPlain c ts).map Token.normal := by
    intro c ts
    cases ts with
    | nil => rfl
    | cons t ts => cases t <;> rfl
  induction s with
  | nil => rfl
  | cons c s ih =>
    rw [List.map_cons, scan.eq_2, scan.eq_2, ih, plainChar_normal]
    split
    · next hc => rw [hcons, normal_of_not_blank (plainChar_iff.mp hc).1]
    · rfl

theorem lex_normal (s : Str) : lex (s.map normal) = lex s := by
  rw [lex, scan_normal, lex]
  induction scan s with
  | nil => rfl
  | cons t ts ih =>
    cases t with
    | word u => rw [List.map_cons, Token.normal, List.filter_cons_of_pos rfl, List.filter_cons_of_pos rfl, ih]
    | sep c =>
      rw [List.map_cons, Token.normal]
      by_cases hc : c ∈ whitespaceChars
      · rw [normal_blank hc, List.filter_cons_of_neg (by decide),
          filter_blank hc, ih]
      · rw [normal_of_not_blank hc, filter_sep hc,
          filter_sep hc, ih]

theorem link_normal (hreg : Regular (lex text)) (hz : 0 ∉ text) : link (text.map normal) = link text := by
  have hz' : 0 ∉ text.map normal := by
    rw [zero_mem_lex, lex_normal, ← zero_mem_lex]
    exact hz
  have htoken : ∀ t ∈ scan text, (strip (lex text) t.normal).text = (strip (lex text) t).text.map normal := by
    intro t ht
    cases t with
    | sep c => rfl
    | word u =>
      have hu : Plain u := (scan_spaced text).valid (.word u) ht
      rw [Token.normal, hreg.strip_word (word_mem_filter.mpr ht), Token.text]
      split
      · rfl
      · exact (map_normal fun c hc => (hu c hc).1).symm
  have htext : textOf (((scan text).map Token.normal).map (strip (lex text))) =
      (textOf ((scan text).map (strip (lex text)))).map normal := by
    rw [textOf, textOf, List.map_map, List.flatMap_map, List.flatMap_map, List.map_flatMap]
    exact List.flatMap_congr htoken
  have hargs : ∀ x : Str, argsOf (x.map normal) = argsOf x := by
    intro x
    rw [argsOf, toks_normal, argsOf]
  rw [link_of_lex hreg hz, link_of_lex (by rwa [lex_normal]) hz', lex_normal, scan_normal, htext, hargs]

theorem splitOn_normal (s : Str) : (s.map normal).splitOn 124 = (s.splitOn 124).map (List.map normal) := by
  have hpipe : ∀ u : Str, 124 ∉ u → 124 ∉ u.map normal := by
    intro u hu hmem
    obtain ⟨c, hc, hnormal⟩ := List.mem_map.mp hmem
    by_cases hblank : c ∈ whitespaceChars
    · rw [normal_blank hblank] at hnormal
      cases hnormal
    · rw [normal_of_not_blank hblank] at hnormal
      exact hu (hnormal ▸ hc)
  induction s using splitOn_induction (124 : UInt8) with
  | hlast u hu => rw [List.splitOn_eq_singleton hu, List.splitOn_eq_singleton (hpipe u hu), List.map_singleton]
  | hcons u v hu ih =>
    rw [List.map_append, List.map_cons, show normal 124 = 124 from rfl, List.splitOn_append_cons_self_of_not_mem (hpipe u hu),
      List.splitOn_append_cons_self_of_not_mem hu, List.map_cons, ih]

/-- There is no other line as short, up to the kind of its blanks. -/
theorem shortest (hs : Spaced ts) : (tight (ts.filter Token.isLexeme)).length ≤ (textOf ts).length ∧
    ((textOf ts).length ≤ (tight (ts.filter Token.isLexeme)).length →
      (textOf ts).map normal = tight (ts.filter Token.isLexeme)) := by
  induction hn : ts.length using Nat.strong_induction_on generalizing ts with
  | _ n ih =>
    cases ts with
    | nil => exact ⟨le_rfl, fun _ => rfl⟩
    | cons t ts =>
      rw [List.length_cons] at hn
      obtain ⟨hle, heq⟩ := ih ts.length (by omega) hs.tail rfl
      cases t with
      | sep c =>
        rw [textOf_cons, Token.text, List.singleton_append, List.length_cons]
        by_cases hc : c ∈ whitespaceChars
        · rw [filter_blank hc]
          exact ⟨by omega, fun h => by omega⟩
        · rw [filter_sep hc, tight_sep, List.length_cons, List.map_cons,
            normal_of_not_blank hc]
          exact ⟨by omega, fun h => by rw [heq (by omega)]⟩
      | word u =>
        have hu : Plain u := hs.valid (.word u) List.mem_cons_self
        have hnormal := map_normal fun c hc => (hu c hc).1
        rw [List.filter_cons_of_pos rfl, textOf_cons, Token.text, tight_word, List.map_append, hnormal, List.length_append,
          List.length_append]
        split
        · next hword =>
          -- a blank is between the two words
          cases ts with
          | nil => cases hword
          | cons t ts =>
            have ht := hs.head t rfl
            cases t with
            | word v => cases ht
            | sep c =>
              by_cases hc : c ∈ whitespaceChars
              · rw [List.length_cons] at hn
                obtain ⟨hle, heq⟩ := ih ts.length (by omega) hs.tail.tail rfl
                rw [filter_blank hc, textOf_cons, Token.text,
                  List.singleton_append, List.length_cons, List.length_cons, List.map_cons, normal_blank hc]
                exact ⟨by omega, fun h => by rw [heq (by omega)]⟩
              · rw [filter_sep hc] at hword
                cases hword
        · exact ⟨by omega, fun h => by rw [heq (by omega)]⟩

theorem linked_normal {ps : List Str} (h : ∀ p ∈ ps, link (p.map normal) = link p) :
    linked (ps.map (List.map normal)) = linked ps := by
  rw [linked, linked, List.filter_map, List.filterMap_map]
  have hfilter : ps.filter ((fun p : Str => decide (p ≠ [])) ∘ List.map normal) = ps.filter (· ≠ []) :=
    List.filter_congr fun p _ => by simp
  rw [hfilter]
  exact List.filterMap_congr fun p hp => h p (List.mem_filter.mp hp).1

theorem commands_shortest (hreg : ∀ K ∈ commandsOf (lex s), Regular K) (hz : 0 ∉ s)
    (hlen : s.length ≤ (tight (lex s)).length) : linked (s.splitOn 124) = linked ((tight (lex s)).splitOn 124) := by
  have hshort := (shortest (scan_spaced s)).2
  rw [textOf_scan] at hshort
  rw [show tight (lex s) = s.map normal from (hshort hlen).symm, splitOn_normal, linked_normal]
  intro p hp
  exact link_normal (hreg _ (command_mem_splitOn hp)) fun h => hz ((infix_of_mem_splitOn hp).subset h)

/-! ## pipeline_build -/

/-- Wherever the two lines are, pipeline_build makes the same pipeline of them. -/
def SameParse (s t : Str) : Prop :=
  ∀ (m m' : Mem) (p q : Ptr), m.heap.str p = some s → m'.heap.str q = some t →
    ∃ r r' P, pipelineBuild p m = some r ∧ r.read = some P ∧ pipelineBuild q m' = some r' ∧ r'.read = some P

theorem pipelineBuild_regular {m : Mem} {p : Ptr} (hs : m.heap.str p = some s) (hlen : s.length ≤ maxLineLength)
    (hreg : ∀ K ∈ commandsOf (lex s), Regular K) :
    ∃ r, pipelineBuild p m = some r ∧ r.read = some
      { commands := (chain (linked (s.splitOn 124))).map Parsed.command, isBackground := decide (.sep 38 ∈ lex s) } := by
  have hlink : ∀ w ∈ toks pipeChar s, link w ≠ none := by
    intro w hw
    rw [toks_pipe] at hw
    obtain ⟨l, hl⟩ := piece_link hreg (str_not_zero hs) (List.mem_filter.mp hw).1
    rw [hl]
    simp
  obtain ⟨r, hr, hread⟩ := pipelineBuild_chain hs hlen hlink
  refine ⟨r, hr, ?_⟩
  have hbackground : decide (ampersand <:+: s) = decide (.sep 38 ∈ lex s) := by
    rw [ampersand, decide_eq_decide, List.singleton_infix_iff, sep_mem_lex (by decide)]
  rw [hread, toks_pipe, hbackground]
  rfl

theorem sameParse_iff (hs : 0 ∉ s) (ht : 0 ∉ t) (hlex : lex s = lex t) (hlen : s.length ≤ maxLineLength)
    (hlen' : t.length ≤ maxLineLength) (hreg : ∀ K ∈ commandsOf (lex s), Regular K) : SameParse s t ↔
    (chain (linked (s.splitOn 124))).map Parsed.command = (chain (linked (t.splitOn 124))).map Parsed.command := by
  constructor
  · intro hsame
    have hpush := push_str ⟨[]⟩ hs []
    have hpush' := push_str ⟨[]⟩ ht []
    obtain ⟨r, r', P, hr, hread, hr', hread'⟩ := hsame ⟨_, none⟩ ⟨_, none⟩ _ _ hpush hpush'
    obtain ⟨r₁, hr₁, hread₁⟩ := pipelineBuild_regular (m := ⟨_, none⟩) hpush hlen hreg
    obtain ⟨r₂, hr₂, hread₂⟩ := pipelineBuild_regular (m := ⟨_, none⟩) hpush' hlen' (hlex ▸ hreg)
    rw [hr, Option.some.injEq] at hr₁
    rw [hr', Option.some.injEq] at hr₂
    rw [← hr₁, hread, Option.some.injEq] at hread₁
    rw [← hr₂, hread', Option.some.injEq] at hread₂
    exact congrArg Pipeline.commands (hread₁.symm.trans hread₂)
  · intro hcommands m m' p q hp hq
    obtain ⟨r, hr, hread⟩ := pipelineBuild_regular hp hlen hreg
    obtain ⟨r', hr', hread'⟩ := pipelineBuild_regular hq hlen' (hlex ▸ hreg)
    refine ⟨r, r', _, hr, hread, hr', ?_⟩
    rw [hread', hcommands, hlex]

/-- The token sequences with redirects whose paths occur in no other word: every two lines with
    these tokens are parsed alike exactly when no argument is behind a sign and no command without
    tokens is behind one with words, or when there is no room for a blank. -/
theorem pipelineBuild_spacing {line : Str} (hz : 0 ∉ line) (hreg : ∀ K ∈ commandsOf (lex line), Regular K) :
    (∀ s t, lex s = lex line → lex t = lex line → s.length ≤ maxLineLength → t.length ≤ maxLineLength → SameParse s t) ↔
      Settled (lex line) ∨ maxLineLength ≤ (tight (lex line)).length := by
  have hzero : ∀ {s : Str}, lex s = lex line → 0 ∉ s := by
    intro s hs
    rw [zero_mem_lex, hs, ← zero_mem_lex]
    exact hz
  constructor
  · intro hall
    by_contra hno
    obtain ⟨hnot, hlt⟩ := not_or.mp hno
    have htight := lex_tight (lex_proper line)
    obtain ⟨t, hlex, hlen, hdiff⟩ := exists_other_line (lex_proper line) hreg
      (fun u hu h0 => hz (zero_mem_lex.mpr ⟨u, hu, h0⟩)) hnot
    refine hdiff ((sameParse_iff (hzero htight) (hzero hlex) (htight.trans hlex.symm) ?_ ?_ ?_).mp
      (hall _ t htight hlex ?_ ?_))
    all_goals first | omega | rwa [htight]
  · intro hcond s t hs ht hlen hlen'
    refine (sameParse_iff (hzero hs) (hzero ht) (hs.trans ht.symm) hlen hlen' (hs ▸ hreg)).mpr ?_
    rcases hcond with hset | hshort
    · exact hset.commands_eq hreg hs ht (hzero hs) (hzero ht)
    · rw [commands_shortest (hs ▸ hreg) (hzero hs) (by rw [hs]; omega),
        commands_shortest (ht ▸ hreg) (hzero ht) (by rw [ht]; omega), hs, ht]

/-- A command with one redirect and no other sign. -/
theorem Regular.single (hA : ∀ e, .sep e ∉ A) (hB : ∀ e, .sep e ∉ B) (hword : ∃ u, .word u ∈ A)
    (hother : ∀ u, .word u ∈ A ∨ .word u ∈ B → ¬ w <:+: u) : Regular (A ++ .sep c :: .word w :: B) := by
  intro A' c' B' h _
  rcases List.append_eq_append_iff.mp h with ⟨as, rfl, heq⟩ | ⟨as, rfl, heq⟩
  · match as, heq with
    | [], heq =>
      rw [List.append_nil, ← (List.cons.inj heq).2]
      exact ⟨hword, w, B, rfl, hother⟩
    | [_], heq => cases (List.cons.inj (List.cons.inj heq).2).1
    | _ :: _ :: as, heq =>
      refine absurd ?_ (hB c')
      rw [(List.cons.inj (List.cons.inj heq).2).2]
      simp
  · match as, heq with
    | [], heq =>
      rw [List.append_nil] at hword hother
      rw [(List.cons.inj heq).2]
      exact ⟨hword, w, B, rfl, hother⟩
    | _ :: as, heq =>
      refine absurd ?_ (hA c')
      rw [(List.cons.inj heq).1]
      simp

/-- "cat <f" and "cat\t< f\n" -/
theorem pipelineBuild_spacing_cat :
    SameParse [99, 97, 116, 32, 60, 102] [99, 97, 116, 9, 60, 32, 102, 10] := by
  have hcommands : commandsOf (lex [99, 97, 116, 32, 60, 102]) = [[.word [99, 97, 116], .sep 60, .word [102]]] := by decide
  have hreg : ∀ K ∈ commandsOf (lex [99, 97, 116, 32, 60, 102]), Regular K := by
    intro K hK
    rw [hcommands, List.mem_singleton] at hK
    rw [hK]
    refine Regular.single (A := [.word [99, 97, 116]]) (B := []) (by simp) (by simp) ⟨[99, 97, 116], by simp⟩ ?_
    intro u hu
    have hu' : u = [99, 97, 116] := by simpa using hu
    rw [hu']
    decide
  have hset : Settled (lex [99, 97, 116, 32, 60, 102]) := by
    refine ⟨fun K hK => ?_, fun X Y hXY => ?_⟩
    · rw [hcommands, List.mem_singleton] at hK
      rw [hK]
      intro A c B u hAB hu
      match A, hAB with
      | [_], hAB =>
        rw [← (List.cons.inj (List.cons.inj hAB).2).2, List.mem_singleton, Token.word.injEq] at hu
        exact .inl (by rw [hu]; decide)
      | [_, _], hAB => cases (List.cons.inj (List.cons.inj (List.cons.inj hAB).2).2).1
      | _ :: _ :: _ :: _, hAB => simp at hAB
    · rw [hcommands] at hXY
      match X, hXY with
      | [_], hXY => cases (List.cons.inj hXY).2
  exact (pipelineBuild_spacing (by decide) hreg).mpr (.inl hset) _ _ rfl (by decide) (by decide) (by decide)

/-- "a<f b" and "a <f b": the argument behind the path is found, or it is not. -/
theorem pipelineBuild_spacing_lost : lex [97, 60, 102, 32, 98] = lex [97, 32, 60, 102, 32, 98] ∧
    (∀ K ∈ commandsOf (lex [97, 60, 102, 32, 98]), Regular K) ∧ [97, 60, 102, 32, 98].length ≤ maxLineLength ∧
    [97, 32, 60, 102, 32, 98].length ≤ maxLineLength ∧ ¬ SameParse [97, 60, 102, 32, 98] [97, 32, 60, 102, 32, 98] := by
  have hlex : lex [97, 60, 102, 32, 98] = lex [97, 32, 60, 102, 32, 98] := by decide
  have hcommands : commandsOf (lex [97, 60, 102, 32, 98]) = [[.word [97], .sep 60, .word [102], .word [98]]] := by decide
  have hreg : ∀ K ∈ commandsOf (lex [97, 60, 102, 32, 98]), Regular K := by
    intro K hK
    rw [hcommands, List.mem_singleton] at hK
    rw [hK]
    refine Regular.single (A := [.word [97]]) (B := [.word [98]]) (by simp) (by simp) ⟨[97], by simp⟩ ?_
    intro u hu
    have hu' : u = [97] ∨ u = [98] := by simpa using hu
    rcases hu' with rfl | rfl <;> decide
  refine ⟨hlex, hreg, by decide, by decide, fun hsame => ?_⟩
  have heq := (sameParse_iff (by decide) (by decide) hlex (by decide) (by decide) hreg).mp hsame
  exact absurd heq (by decide)

end EC440.Shell
