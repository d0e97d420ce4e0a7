/-
  p_command_link on a command with redirects. A path is taken from a copy of the line and then
  erased from the line by its text, wherever that occurs: `pCommandLink_redirects` says that the
  result is the command as it is written exactly when a path occurs in nothing that is still to be
  read.

  What the erasures leave of a line is measured by its characters that are no blanks and no special
  characters. All of the arguments are found only if all of these characters are left.
-/
import EC440.Shell.Lines

namespace EC440.Shell

open EC440.Lib

/-- A redirect, with blanks around the sign and the word. -/
inductive RedirectText (sign : UInt8) : Option Word → Str → Prop
  | absent : RedirectText sign none []
  | present (w : Word) {before between after : Str} : Blank before → Blank between → Blank after →
      RedirectText sign (some w) (before ++ (sign :: (between ++ (w.text ++ after))))

/-- `text` is written for a command: the arguments, and behind them the redirects in either order. -/
def Spells (args : List Word) (redIn redOut : Option Word) (text : Str) : Prop :=
  ∃ before s after textIn textOut, Blank before ∧ Joined (args.map Word.text) s ∧ Blank after ∧
    RedirectText 60 redIn textIn ∧ RedirectText 62 redOut textOut ∧
    (text = before ++ (s ++ (textIn ++ (textOut ++ after))) ∨ text = before ++ (s ++ (textOut ++ (textIn ++ after))))

/-- No path occurs in a word that is read after it was erased. -/
structure Separate (args : List Word) (redIn redOut : Option Word) : Prop where
  inArgs : ∀ w ∈ redIn, ∀ a ∈ args, ¬ w.text <:+: a.text
  inOut : ∀ w ∈ redIn, ∀ v ∈ redOut, ¬ w.text <:+: v.text
  outArgs : ∀ v ∈ redOut, ∀ a ∈ args, ¬ v.text <:+: a.text

variable {args : List Word} {inn out o : Option Word} {w : Word} {us vs : List Str} {s t u gap text : Str} {sign : UInt8}
  {l : Parsed}

/-! ## What an erasure leaves -/

/-- A line without the text of a word. -/
def eraseWord (o : Option Word) (s : Str) : Str :=
  match o with
  | none => s
  | some w => replaceAll w.text [] s

def plainChar (c : UInt8) : Bool := decide (c ∉ whitespaceChars ∧ c ∉ specialChars)

def weight (us : List Str) : Nat := us.flatten.countP plainChar

theorem weight_append (us vs : List Str) : weight (us ++ vs) = weight us + weight vs := by
  rw [weight, List.flatten_append, List.countP_append, weight, weight]

theorem weight_cons (u : Str) (us : List Str) : weight (u :: us) = u.countP plainChar + weight us := by
  rw [weight, List.flatten_cons, List.countP_append, weight]

theorem Junk.countP (hs : Junk s) : s.countP plainChar = 0 := by
  refine List.countP_eq_zero.mpr fun c hc => ?_
  rcases hs c hc with hc | hc
  · simp [plainChar, hc]
  · simp [plainChar, hc]

theorem Word.countP_pos (w : Word) : 0 < w.text.countP plainChar := by
  obtain ⟨c, hc⟩ := List.exists_mem_of_ne_nil _ w.ne_nil
  exact List.countP_pos_iff.mpr ⟨c, hc, by simpa [plainChar] using w.isPlain c hc⟩

theorem eraseWord_self (w : Word) : eraseWord (some w) w.text = [] := replaceAll_self w.ne_nil []

theorem eraseWord_of_absent (h : ∀ w ∈ o, ¬ w.text <:+: u) : eraseWord o u = u := by
  cases o with
  | none => rfl
  | some w => exact replaceAll_of_absent (h w rfl) []

theorem map_eraseWord (h : ∀ w ∈ o, ∀ u ∈ us, ¬ w.text <:+: u) : us.map (eraseWord o) = us := by
  refine (List.map_congr_left fun u hu => ?_).trans (List.map_id us)
  exact eraseWord_of_absent fun w hw => h w hw u hu

theorem eraseWord_countP_le (o : Option Word) (u : Str) : (eraseWord o u).countP plainChar ≤ u.countP plainChar := by
  cases o with
  | none => exact le_rfl
  | some w =>
    have hcount := replaceAll_countP w.ne_nil [] u plainChar
    rw [List.countP_nil, Nat.mul_zero] at hcount
    rw [eraseWord]
    omega

/-- A word that is there goes, with all its characters. -/
theorem eraseWord_countP (h : ∀ w ∈ o, w.text <:+: u) :
    (eraseWord o u).countP plainChar + weight (o.toList.map Word.text) ≤ u.countP plainChar := by
  cases o with
  | none => exact le_rfl
  | some w =>
    have hcount := replaceAll_countP w.ne_nil [] u plainChar
    have hpos := Nat.le_mul_of_pos_left (w.text.countP plainChar) (countAll_pos w.ne_nil (h w rfl))
    rw [List.countP_nil, Nat.mul_zero] at hcount
    rw [eraseWord, Option.toList_some, List.map_singleton, weight, List.flatten_singleton]
    omega

theorem weight_erase_le (o : Option Word) (us : List Str) : weight (us.map (eraseWord o)) ≤ weight us := by
  induction us with
  | nil => exact le_rfl
  | cons u us ih =>
    have hle := eraseWord_countP_le o u
    rw [List.map_cons, weight_cons, weight_cons]
    omega

/-- Where nothing is lost, the word does not occur. -/
theorem absent_of_weight (hle : weight us ≤ weight (us.map (eraseWord o))) : ∀ w ∈ o, ∀ u ∈ us, ¬ w.text <:+: u := by
  intro w hw
  induction us with
  | nil => simp
  | cons u us ih =>
    have hu := eraseWord_countP_le o u
    have hus := weight_erase_le o us
    rw [List.map_cons, weight_cons, weight_cons] at hle
    intro u' hu' hin
    rcases List.mem_cons.mp hu' with rfl | hu'
    · have hlt := eraseWord_countP (o := some w) (u := u') (by simpa using hin)
      have hpos := w.countP_pos
      rw [Option.toList_some, List.map_singleton, weight, List.flatten_singleton] at hlt
      rw [Option.mem_def.mp hw] at hu hus hle
      omega
    · exact ih (by omega) u' hu' hin

/-! ## Words between other characters -/

/-- Texts, each with characters in front that are no part of an argument, and such at the end. -/
inductive Chunks : List Str → Str → Prop
  | nil {gap : Str} : Junk gap → Chunks [] gap
  | cons (u : Str) {us : List Str} {gap s : Str} :
      Junk gap → gap ≠ [] → Chunks us s → Chunks (u :: us) (gap ++ (u ++ s))

theorem Chunks.junk_append (hc : Chunks us s) (hgap : Junk gap) : Chunks us (gap ++ s) := by
  cases hc with
  | nil hjunk => exact .nil (hgap.append hjunk)
  | cons u hjunk hne hc =>
    rw [← List.append_assoc]
    exact .cons u (hgap.append hjunk) (by simp [hne]) hc

theorem Chunks.head (hc : Chunks us s) : ∀ c ∈ s.head?, c ∈ whitespaceChars ∨ c ∈ specialChars := by
  intro c hhead
  cases hc with
  | nil hjunk => exact hjunk c (List.mem_of_mem_head? hhead)
  | cons u hjunk hne _ =>
    rw [List.head?_append_of_ne_nil _ hne] at hhead
    exact hjunk c (List.mem_of_mem_head? hhead)

theorem Chunks.countP (hc : Chunks us s) : s.countP plainChar = weight us := by
  induction hc with
  | nil hjunk => exact hjunk.countP
  | cons u hjunk _ _ ih =>
    rw [List.countP_append, List.countP_append, hjunk.countP, ih, weight_cons, Nat.zero_add]

theorem Junk.not_mem (hgap : Junk gap) (w : Word) : ∀ c ∈ gap, c ∉ w.text := by
  intro c hc hw
  rcases hgap c hc with hblank | hspecial
  · exact (w.isPlain c hw).1 hblank
  · exact (w.isPlain c hw).2 hspecial

theorem replaceAll_junk (hgap : Junk gap) (w : Word) (u v : Str) (hne : gap ≠ []) :
    replaceAll w.text [] (u ++ (gap ++ v)) = replaceAll w.text [] u ++ (gap ++ replaceAll w.text [] v) :=
  replaceAll_delims w.ne_nil (hgap.not_mem w) hne u v

theorem Chunks.replaceAll_append (hc : Chunks us s) (w : Word) (u : Str) :
    replaceAll w.text [] (u ++ s) = replaceAll w.text [] u ++ replaceAll w.text [] s := by
  have hgap : ∀ {gap v : Str}, Junk gap → gap ≠ [] →
      replaceAll w.text [] (gap ++ v) = gap ++ replaceAll w.text [] v := by
    intro gap v hgap hne
    have h := replaceAll_junk hgap w [] v hne
    rwa [List.nil_append, replaceAll_nil, List.nil_append] at h
  cases hc with
  | nil hjunk =>
    by_cases hne : s = []
    · rw [hne, List.append_nil, replaceAll_nil, List.append_nil]
    · have h := replaceAll_junk hjunk w u [] hne
      have h' := hgap (v := []) hjunk hne
      rw [List.append_nil] at h h'
      rw [h, h']
  | cons u' hjunk hne _ => rw [replaceAll_junk hjunk w u _ hne, hgap hjunk hne]

theorem Chunks.erase (hc : Chunks us s) (o : Option Word) : Chunks (us.map (eraseWord o)) (eraseWord o s) := by
  cases o with
  | none =>
    rw [show eraseWord none = id from rfl, List.map_id]
    exact hc
  | some w =>
    induction hc with
    | @nil gap hjunk =>
      have hnot : ¬ w.text <:+: gap := by
        intro hin
        obtain ⟨c, hc⟩ := List.exists_mem_of_ne_nil _ w.ne_nil
        exact hjunk.not_mem w c (hin.subset hc) hc
      rw [eraseWord, replaceAll_of_absent hnot]
      exact .nil hjunk
    | @cons u us gap s hjunk hne hc ih =>
      have h := replaceAll_junk hjunk w [] (u ++ s) hne
      rw [List.nil_append, replaceAll_nil, List.nil_append, hc.replaceAll_append w u] at h
      rw [eraseWord, h]
      exact .cons _ hjunk hne ih

/-- A word that is not in one of the texts is nowhere. -/
theorem Chunks.absent (hc : Chunks us s) (h : ∀ u ∈ us, ¬ w.text <:+: u) : ¬ w.text <:+: s := by
  intro hin
  have hsame : us.map (eraseWord (some w)) = us := map_eraseWord (by simpa using h)
  have herase := (hc.erase (some w)).countP
  have hlt := eraseWord_countP (o := some w) (u := s) (by simpa using hin)
  have hpos := w.countP_pos
  rw [Option.toList_some, List.map_singleton, weight, List.flatten_singleton] at hlt
  rw [hsame, ← hc.countP] at herase
  omega

theorem RedirectText.chunks (hr : RedirectText sign o t) (hsign : sign ∈ specialChars) (hc : Chunks us s) :
    Chunks (o.toList.map Word.text ++ us) (t ++ s) := by
  cases hr with
  | absent => exact hc
  | @present w before between after hbefore hbetween hafter =>
    have hjunk : Junk (before ++ (sign :: between)) := by
      refine hbefore.isJunk.append fun c hc => ?_
      rcases List.mem_cons.mp hc with rfl | hc
      · exact .inr hsign
      · exact .inl (hbetween c hc)
    have h := Chunks.cons w.text hjunk (by simp) (hc.junk_append hafter.isJunk)
    simpa using h

theorem Joined.chunks (hj : Joined us s) (hgap : Junk gap) (hne : gap ≠ []) (hc : Chunks vs t) :
    Chunks (us ++ vs) (gap ++ (s ++ t)) := by
  induction hj generalizing gap with
  | single u => exact .cons u hgap hne hc
  | cons u hgap' hne' _ ih =>
    rw [List.cons_append, List.append_assoc, List.append_assoc]
    exact .cons u hgap hne (ih hgap'.isJunk hne')

/-- Behind a blank, that the first word need not have in front of it. -/
theorem Joined.chunks_blank {before : Str} (hj : Joined us s) (hbefore : Blank before) (hc : Chunks vs t) :
    Chunks (us ++ vs) (32 :: (before ++ (s ++ t))) := by
  have hgap : Junk (32 :: before) := by
    intro c hc
    rcases List.mem_cons.mp hc with rfl | hc
    · exact .inl (by decide)
    · exact .inl (hbefore c hc)
  exact hj.chunks hgap (by simp) hc

theorem eraseWord_blank (o : Option Word) (s : Str) : eraseWord o (32 :: s) = 32 :: eraseWord o s := by
  cases o with
  | none => rfl
  | some w =>
    refine replaceAll_cons fun hp => ?_
    obtain ⟨c, rest, hw⟩ := List.exists_cons_of_ne_nil w.ne_nil
    have hc : c ∈ w.text := by rw [hw]; exact List.mem_cons_self
    rw [hw, List.cons_prefix_cons] at hp
    exact (w.isPlain c hc).1 (by rw [hp.1]; decide)

/-- The characters that two erasures leave of the line. -/
theorem Spells.countP (hsp : Spells args inn out text) (o₁ o₂ : Option Word) :
    (eraseWord o₂ (eraseWord o₁ text)).countP plainChar =
      weight (((args.map Word.text).map (eraseWord o₁)).map (eraseWord o₂)) +
      (weight (((inn.toList.map Word.text).map (eraseWord o₁)).map (eraseWord o₂)) +
      weight (((out.toList.map Word.text).map (eraseWord o₁)).map (eraseWord o₂))) := by
  have hcount : ∀ {us : List Str}, Chunks us (32 :: text) →
      (eraseWord o₂ (eraseWord o₁ text)).countP plainChar = weight ((us.map (eraseWord o₁)).map (eraseWord o₂)) := by
    intro us hc
    have h := ((hc.erase o₁).erase o₂).countP
    rwa [eraseWord_blank, eraseWord_blank, List.countP_cons_of_neg (by decide)] at h
  obtain ⟨before, s, after, textIn, textOut, hbefore, hj, hafter, hin, hout, htext⟩ := hsp
  have hend : Chunks [] after := .nil hafter.isJunk
  rcases htext with rfl | rfl
  · rw [hcount (hj.chunks_blank hbefore (hin.chunks (by decide) (hout.chunks (by decide) hend)))]
    simp only [List.map_append, weight_append, List.append_nil]
  · rw [hcount (hj.chunks_blank hbefore (hout.chunks (by decide) (hin.chunks (by decide) hend)))]
    simp only [List.map_append, weight_append, List.append_nil]
    omega

/-- The arguments are made of characters that are still there. -/
theorem weight_leading (text : Str) : weight (leading (argsOf text)) ≤ text.countP plainChar := by
  have hpieces : ∀ ps : List Str, weight (leading (ps.map lastTok)) ≤ weight ps := by
    intro ps
    induction ps with
    | nil => exact le_rfl
    | cons p ps ih =>
      rw [List.map_cons, weight_cons]
      cases hp : lastTok p with
      | none => exact Nat.zero_le _
      | some v =>
        have hv := (mem_toks (List.mem_of_getLast? hp)).2.1.sublist.countP_le (p := plainChar)
        have hcons : leading (some v :: ps.map lastTok) = v :: leading (ps.map lastTok) := by
          simp [leading, List.reduceOption_cons_of_some]
        rw [hcons, weight_cons]
        omega
  refine (hpieces (toks whitespaceChars text)).trans ?_
  rw [weight, toks_flatten]
  exact List.filter_sublist.countP_le

theorem eraseRedirect_word {red text' : Str} (he : eraseRedirect red text = some (o.map Word.text, text')) :
    text' = eraseWord o text ∧ ∀ w ∈ o, w.text <:+: text := by
  rw [eraseRedirect] at he
  split at he
  · obtain ⟨path, hpath, he⟩ := Option.map_eq_some_iff.mp he
    rw [Prod.mk.injEq] at he
    cases o with
    | none => cases he.1
    | some w =>
      have hw : path = w.text := by simpa using he.1
      rw [← he.2, hw]
      refine ⟨rfl, ?_⟩
      simpa [hw] using (pathOf_part hpath).2
  · rw [Option.some.injEq, Prod.mk.injEq] at he
    cases o with
    | none => exact ⟨he.2.symm, by simp⟩
    | some w => cases he.1

theorem Spells.separate (hsp : Spells args inn out text) (hl : link text = some l) (hc : l.command =
    { args := args.map Word.text, redirectInPath := inn.map Word.text, redirectOutPath := out.map Word.text }) :
    Separate args inn out := by
  rw [Parsed.command, Command.mk.injEq] at hc
  obtain ⟨hargs, hinPath, houtPath⟩ := hc
  obtain ⟨text₁, text₂, h₁, h₂, hl⟩ := link_some hl
  rw [hinPath] at h₁
  rw [houtPath] at h₂
  obtain ⟨rfl, -⟩ := eraseRedirect_word h₁
  obtain ⟨rfl, hin⟩ := eraseRedirect_word h₂
  have hleft := weight_leading (eraseWord out (eraseWord inn text))
  rw [← hl, hargs] at hleft
  have hzero : ∀ o : Option Word, weight ((o.toList.map Word.text).map (eraseWord o)) = 0 := by
    intro o
    cases o with
    | none => rfl
    | some w => simp [eraseWord_self, weight]
  have hzeroIn := hzero inn
  have hzeroOut := hzero out
  -- the first erasure takes nothing but its own word, and there is that much left for the second
  have hone := hsp.countP inn none
  have hpath := eraseWord_countP hin
  rw [show eraseWord none = id from rfl, List.map_id, List.map_id, List.map_id, id] at hone
  have hleftIn : weight (args.map Word.text ++ out.toList.map Word.text) ≤
      weight ((args.map Word.text ++ out.toList.map Word.text).map (eraseWord inn)) := by
    rw [List.map_append, weight_append, weight_append]
    omega
  have hfirst := absent_of_weight hleftIn
  have hargsIn : ∀ w ∈ inn, ∀ u ∈ args.map Word.text, ¬ w.text <:+: u :=
    fun w hw u hu => hfirst w hw u (List.mem_append_left _ hu)
  have houtIn : ∀ w ∈ inn, ∀ u ∈ out.toList.map Word.text, ¬ w.text <:+: u :=
    fun w hw u hu => hfirst w hw u (List.mem_append_right _ hu)
  have htwo := hsp.countP inn out
  have hle := weight_erase_le out ((inn.toList.map Word.text).map (eraseWord inn))
  rw [map_eraseWord hargsIn, map_eraseWord houtIn] at htwo
  have hleftOut : weight (args.map Word.text) ≤ weight ((args.map Word.text).map (eraseWord out)) := by omega
  have hsecond := absent_of_weight hleftOut
  refine ⟨fun w hw a ha => ?_, fun w hw v hv => ?_, fun v hv a ha => ?_⟩
  · exact hargsIn w hw a.text (List.mem_map_of_mem ha)
  · exact houtIn w hw v.text (List.mem_map_of_mem (Option.mem_toList.mpr hv))
  · exact hsecond v hv a.text (List.mem_map_of_mem ha)

/-! ## What is found -/

/-- The word behind the first sign, when there is something before it. -/
theorem pathOf_sign {L b R : Str} (hL : L ≠ []) (hsign : sign ∉ L) (hspecial : sign ∈ specialChars) (hb : Blank b)
    (hR : ∀ c ∈ R.head?, c ∈ whitespaceChars ∨ c ∈ specialChars) :
    pathOf [sign] (L ++ (sign :: (b ++ (w.text ++ R)))) = some w.text := by
  have hnil : ∀ delim : Str, ∀ c ∈ ([] : Str), c ∈ delim := by simp
  have hnot : ∀ c ∈ L, c ∉ [sign] := fun c hc heq => hsign (List.mem_singleton.mp heq ▸ hc)
  have hnot' : ∀ c ∈ b ++ w.text, c ∉ [sign] := by
    intro c hc heq
    rw [List.mem_singleton.mp heq] at hc
    rcases List.mem_append.mp hc with hc | hc
    · exact disjoint_chars sign (hb sign hc) hspecial
    · exact (w.isPlain sign hc).2 hspecial
  have hfirst := tok_token (hnil [sign]) hL hnot (List.mem_singleton_self sign) (b ++ (w.text ++ R))
  have hsecond := tok_fst (hnil [sign]) (by simp [w.ne_nil]) hnot' R
  rw [List.nil_append, List.append_assoc, List.append_assoc] at hsecond
  -- up to the next sign
  generalize hR' : R.takeWhile (· ∉ [sign]) = R' at hsecond
  have hhead : ∀ c ∈ R'.head?, c ∈ whitespaceChars ∨ c ∈ specialChars := by
    intro c hc
    apply hR c
    cases R with
    | nil =>
      rw [← hR', List.takeWhile_nil] at hc
      exact hc
    | cons d R =>
      rw [← hR', List.takeWhile_cons] at hc
      split at hc
      · exact hc
      · cases hc
  have hthird := tok_fst hb w.ne_nil (fun c hc => (w.isPlain c hc).1) R'
  have hlast := tok_fst (hnil specialChars) w.ne_nil (fun c hc => (w.isPlain c hc).2) (R'.takeWhile (· ∉ whitespaceChars))
  rw [List.nil_append] at hfirst hlast
  have hstop : (R'.takeWhile (· ∉ whitespaceChars)).takeWhile (· ∉ specialChars) = [] := by
    cases R' with
    | nil => rfl
    | cons c R' =>
      rcases hhead c rfl with hc | hc
      · rw [List.takeWhile_cons_of_neg (by simpa using hc), List.takeWhile_nil]
      · have hblank : c ∉ whitespaceChars := fun h => disjoint_chars c h hc
        rw [List.takeWhile_cons_of_pos (by simpa using hblank), List.takeWhile_cons_of_neg (by simpa using hc)]
  simp only [pathOf, hfirst, hsecond, Option.getD_some, hthird, hlast, hstop, List.append_nil]

theorem RedirectText.mem (hr : RedirectText sign o t) {c : UInt8} (hc : c ∈ t) : c ∉ specialChars ∨ c = sign := by
  cases hr with
  | absent => cases hc
  | present w hbefore hbetween hafter =>
    simp only [List.mem_append, List.mem_cons] at hc
    rcases hc with hc | rfl | hc | hc | hc
    · exact .inl (disjoint_chars c (hbefore c hc))
    · exact .inr rfl
    · exact .inl (disjoint_chars c (hbetween c hc))
    · exact .inl (w.isPlain c hc).2
    · exact .inl (disjoint_chars c (hafter c hc))

/-- One redirect of a line; `j` is what stays of it. -/
theorem RedirectText.erase {L R : Str} (hr : RedirectText sign o t) (hL : L ≠ []) (hsign : sign ∉ L) (hsign' : sign ∉ R)
    (hspecial : sign ∈ specialChars) (hnot : ∀ w ∈ o, ¬ w.text <:+: L) (hc : Chunks us R)
    (hnot' : ∀ w ∈ o, ∀ u ∈ us, ¬ w.text <:+: u) :
    ∃ j, eraseRedirect [sign] (L ++ (t ++ R)) = some (o.map Word.text, L ++ (j ++ R)) ∧
      ∀ c ∈ j, c ∈ whitespaceChars ∨ c = sign := by
  cases hr with
  | absent =>
    refine ⟨[], eraseRedirect_of_absent ?_, by simp⟩
    rw [List.singleton_infix_iff, List.mem_append]
    exact fun h => h.elim hsign hsign'
  | @present w before between after hbefore hbetween hafter =>
    have hgap : Junk (before ++ (sign :: between)) := by
      refine hbefore.isJunk.append fun c hc => ?_
      rcases List.mem_cons.mp hc with rfl | hc
      · exact .inr hspecial
      · exact .inl (hbetween c hc)
    have hrest := hc.junk_append hafter.isJunk
    have htext : L ++ ((before ++ (sign :: (between ++ (w.text ++ after)))) ++ R) =
        L ++ ((before ++ (sign :: between)) ++ (w.text ++ (after ++ R))) := by simp
    have hpath : pathOf [sign] (L ++ ((before ++ (sign :: between)) ++ (w.text ++ (after ++ R)))) = some w.text := by
      have hblank : ∀ s : Str, Blank s → sign ∉ s := fun s hs h => disjoint_chars sign (hs sign h) hspecial
      have hfound := pathOf_sign (L := L ++ before) (w := w) (by simp [hL]) (by
        rw [List.mem_append, not_or]
        exact ⟨hsign, hblank _ hbefore⟩) hspecial hbetween hrest.head
      simpa using hfound
    have herase : replaceAll w.text [] (L ++ ((before ++ (sign :: between)) ++ (w.text ++ (after ++ R)))) =
        L ++ ((before ++ (sign :: between)) ++ (after ++ R)) := by
      rw [replaceAll_junk hgap w _ _ (by simp), hrest.replaceAll_append, replaceAll_self w.ne_nil,
        replaceAll_of_absent (hnot w rfl), replaceAll_of_absent (hrest.absent (hnot' w rfl)), List.nil_append]
    refine ⟨before ++ (sign :: (between ++ after)), ?_, ?_⟩
    · rw [eraseRedirect, htext, if_pos (by simp [List.singleton_infix_iff]), hpath, Option.map_some, herase]
      simp
    · intro c hc
      simp only [List.mem_append, List.mem_cons] at hc
      rcases hc with hc | rfl | hc | hc
      · exact .inl (hbefore c hc)
      · exact .inr rfl
      · exact .inl (hbetween c hc)
      · exact .inl (hafter c hc)

/-- What stands before the redirects. -/
def Front (args : List Word) (f : Str) : Prop :=
  ∃ before s, Blank before ∧ Joined (args.map Word.text) s ∧ f = before ++ s

section
variable {f : Str} (hf : Front args f)
include hf

theorem Front.ne_nil : f ≠ [] := by
  obtain ⟨before, s, -, hj, rfl⟩ := hf
  intro hnil
  have hpos := hj.pos
  have hlen := hj.length fun u hu => by
    obtain ⟨w, -, rfl⟩ := List.mem_map.mp hu
    exact w.ne_nil
  rw [(List.append_eq_nil_iff.mp hnil).2, List.length_nil] at hlen
  omega

theorem Front.not_mem (hsign : sign ∈ specialChars) : sign ∉ f := by
  obtain ⟨before, s, hbefore, hj, rfl⟩ := hf
  intro hmem
  rcases List.mem_append.mp hmem with hmem | hmem
  · exact disjoint_chars sign (hbefore sign hmem) hsign
  · exact hj.words_mem hmem hsign

theorem Front.absent (hargs : ∀ a ∈ args, ¬ w.text <:+: a.text) (hc : Chunks vs t)
    (hvs : ∀ u ∈ vs, ¬ w.text <:+: u) : ¬ w.text <:+: f ++ t := by
  obtain ⟨before, s, hbefore, hj, rfl⟩ := hf
  intro hin
  have hall : ∀ u ∈ args.map Word.text ++ vs, ¬ w.text <:+: u := by
    intro u hu
    rcases List.mem_append.mp hu with hu | hu
    · obtain ⟨a, ha, rfl⟩ := List.mem_map.mp hu
      exact hargs a ha
    · exact hvs u hu
  rw [List.append_assoc] at hin
  exact (hj.chunks_blank hbefore hc).absent hall (hin.trans (List.suffix_cons 32 _).isInfix)

theorem Front.argsOf {junk : Str} (hj : Junk junk) :
    ∃ k, argsOf (f ++ junk) = (args.map Word.text).map some ++ List.replicate k none := by
  obtain ⟨before, s, hbefore, hjoin, rfl⟩ := hf
  rw [List.append_assoc]
  exact argsOf_words hbefore hjoin hj

end

theorem Junk.of_sign (hsign : sign ∈ specialChars) (hs : ∀ c ∈ s, c ∈ whitespaceChars ∨ c = sign) : Junk s := by
  intro c hc
  rcases hs c hc with h | rfl
  · exact .inl h
  · exact .inr hsign

/-- The words of a separate command are found. -/
theorem Spells.link (hsp : Spells args inn out text) (hsep : Separate args inn out) :
    ∃ l, link text = some l ∧ l.inPath = inn.map Word.text ∧ l.outPath = out.map Word.text ∧
      ∃ k, l.args = (args.map Word.text).map some ++ List.replicate k none := by
  obtain ⟨before, s, after, textIn, textOut, hbefore, hj, hafter, hin, hout, htext⟩ := hsp
  have hf : Front args (before ++ s) := ⟨before, s, hbefore, hj, rfl⟩
  rw [← List.append_assoc before s, ← List.append_assoc before s] at htext
  generalize before ++ s = f at hf htext
  have h60 : (60 : UInt8) ∈ specialChars := by decide
  have h62 : (62 : UInt8) ∈ specialChars := by decide
  have hend : Chunks [] after := .nil hafter.isJunk
  have hafter60 : 60 ∉ after := fun h => disjoint_chars 60 (hafter 60 h) h60
  have hafter62 : 62 ∉ after := fun h => disjoint_chars 62 (hafter 62 h) h62
  have hout60 : 60 ∉ textOut := fun h => (hout.mem h).elim (absurd h60) (by decide)
  have hempty : Chunks [] ([] : Str) := .nil (by simp [Junk])
  have hinOut : ∀ w ∈ inn, ∀ u ∈ out.toList.map Word.text, ¬ w.text <:+: u := by
    intro w hw u hu
    obtain ⟨v, hv, rfl⟩ := List.mem_map.mp hu
    exact hsep.inOut w hw v (Option.mem_toList.mp hv)
  have hlink : ∀ {text₁ text₂ : Str}, eraseRedirect redIn text = some (inn.map Word.text, text₁) →
      eraseRedirect redOut text₁ = some (out.map Word.text, text₂) →
      Shell.link text = some { inPath := inn.map Word.text, outPath := out.map Word.text, args := Shell.argsOf text₂ } := by
    intro text₁ text₂ h₁ h₂
    rw [Shell.link, h₁, Option.bind_eq_bind, Option.bind_some]
    dsimp only
    rw [h₂, Option.bind_some, Option.pure_def]
  rcases htext with rfl | rfl
  · -- the redirect of the input comes first
    obtain ⟨j₁, h₁, hj₁⟩ := hin.erase hf.ne_nil (hf.not_mem h60) (R := textOut ++ after)
      (fun h => (List.mem_append.mp h).elim hout60 hafter60) h60
      (fun w hw => by simpa using hf.absent (hsep.inArgs w hw) hempty (by simp))
      (hout.chunks h62 hend) (fun w hw u hu => hinOut w hw u (by simpa using hu))
    have hjunk₁ := Junk.of_sign h60 hj₁
    have hj62 : 62 ∉ j₁ := fun h => (hj₁ 62 h).elim (fun h => disjoint_chars 62 h h62) (by decide)
    obtain ⟨j₂, h₂, hj₂⟩ := hout.erase (L := f ++ j₁) (by simp [hf.ne_nil])
      (fun h => (List.mem_append.mp h).elim (hf.not_mem h62) hj62) hafter62 h62
      (fun v hv => hf.absent (hsep.outArgs v hv) (.nil hjunk₁) (by simp)) hend (by simp)
    rw [List.append_assoc, List.append_assoc] at h₂
    obtain ⟨k, hk⟩ := hf.argsOf (hjunk₁.append ((Junk.of_sign h62 hj₂).append hafter.isJunk))
    exact ⟨_, hlink h₁ h₂, rfl, rfl, k, hk⟩
  · obtain ⟨j₁, h₁, hj₁⟩ := hin.erase (L := f ++ textOut) (by simp [hf.ne_nil])
      (fun h => (List.mem_append.mp h).elim (hf.not_mem h60) hout60) hafter60 h60
      (fun w hw => by
        have hc := hout.chunks h62 hempty
        rw [List.append_nil, List.append_nil] at hc
        exact hf.absent (hsep.inArgs w hw) hc (hinOut w hw)) hend (by simp)
    rw [List.append_assoc, List.append_assoc] at h₁
    have hjunk₁ := Junk.of_sign h60 hj₁
    have hj62 : 62 ∉ j₁ := fun h => (hj₁ 62 h).elim (fun h => disjoint_chars 62 h h62) (by decide)
    obtain ⟨j₂, h₂, hj₂⟩ := hout.erase hf.ne_nil (hf.not_mem h62) (R := j₁ ++ after)
      (fun h => (List.mem_append.mp h).elim hj62 hafter62) h62
      (fun v hv => by simpa using hf.absent (hsep.outArgs v hv) hempty (by simp))
      (.nil (hjunk₁.append hafter.isJunk)) (by simp)
    obtain ⟨k, hk⟩ := hf.argsOf ((Junk.of_sign h62 hj₂).append (hjunk₁.append hafter.isJunk))
    exact ⟨_, hlink h₁ h₂, rfl, rfl, k, hk⟩

/-! ## The command -/

/-- The signs of the redirects, and no others. -/
theorem Spells.signs (hsp : Spells args inn out text) :
    (redIn <:+: text ↔ inn.isSome) ∧ (redOut <:+: text ↔ out.isSome) := by
  obtain ⟨before, s, after, textIn, textOut, hbefore, hj, hafter, hin, hout, htext⟩ := hsp
  have hblank : ∀ {sign : UInt8} {s : Str}, sign ∈ specialChars → Blank s → sign ∉ s :=
    fun hsign hs h => disjoint_chars _ (hs _ h) hsign
  have hmem : ∀ {sign : UInt8}, sign ∈ specialChars → (sign ∈ text ↔ sign ∈ textIn ∨ sign ∈ textOut) := by
    intro sign hsign
    have hs : sign ∉ s := fun h => hj.words_mem h hsign
    rcases htext with rfl | rfl
    · simp [hblank hsign hbefore, hblank hsign hafter, hs]
    · simp [hblank hsign hbefore, hblank hsign hafter, hs, or_comm]
  have hsome : ∀ {sign sign' : UInt8} {o o' : Option Word} {t t' : Str}, sign ∈ specialChars → sign ≠ sign' →
      RedirectText sign o t → RedirectText sign' o' t' → (sign ∈ t ∨ sign ∈ t' ↔ o.isSome) := by
    intro sign sign' o o' t t' hsign hne hr hr'
    have hno : sign ∉ t' := fun h => (hr'.mem h).elim (absurd hsign) (absurd · hne)
    cases hr with
    | absent => simp [hno]
    | present => simp
  rw [redIn, redOut, List.singleton_infix_iff, List.singleton_infix_iff, hmem (by decide), hmem (by decide)]
  exact ⟨hsome (by decide) (by decide) hin hout, or_comm.trans (hsome (by decide) (by decide) hout hin)⟩

/-- The pieces of the line, when there is no redirect. -/
theorem Spells.toks_length (hsp : Spells args none none text) : (toks whitespaceChars text).length ≤ args.length := by
  obtain ⟨before, s, after, textIn, textOut, hbefore, hj, hafter, hin, hout, htext⟩ := hsp
  cases hin
  cases hout
  have heq : text = before ++ (s ++ after) := by simpa using htext
  have hlen := hj.toks_length fun u hu => by
    obtain ⟨w, -, rfl⟩ := List.mem_map.mp hu
    exact w.isPlain
  rw [heq, toks_delims_append hbefore, toks_append_delims hafter]
  simpa using hlen

/-- When p_command_link makes a command of what it is written for. -/
theorem pCommandLink_redirects {args : List Word} {inn out : Option Word} {text : Str} (hsp : Spells args inn out text)
    {m : Mem} {cline : Ptr} (hs : m.heap.str cline = some text) :
    (∃ c m', pCommandLink cline pipelineCommandAlloc m = some (c, m') ∧ c.read m'.heap = some
      { args := args.map Word.text, redirectInPath := inn.map Word.text, redirectOutPath := out.map Word.text }) ↔
    Separate args inn out ∧ args.length < maxArgvLength ∧ (inn.isSome ∨ out.isSome → text.length < 2 ^ 31) := by
  obtain ⟨hsignIn, hsignOut⟩ := hsp.signs
  constructor
  · intro h
    obtain ⟨c, m', hlink, hread⟩ := h
    have hlen := pCommandLink_lt hs hlink
    cases hl : Shell.link text with
    | none =>
      rw [pCommandLink_none hs (fun h => hlen (.inl h)) hl] at hlink
      cases hlink
    | some l =>
      rcases pCommandLink_cases hs hlen hl with ⟨hnone, -⟩ | ⟨-, c', m'', hlink', -, -, hr⟩
      · rw [hnone] at hlink
        cases hlink
      · rw [hlink, Option.some.injEq, Prod.mk.injEq] at hlink'
        rw [← hlink'.1, ← hlink'.2] at hr
        obtain ⟨heq, hcount⟩ := hr.read_eq hread
        refine ⟨hsp.separate hl heq.symm, by simpa using hcount, ?_⟩
        rwa [hsignIn, hsignOut] at hlen
  · intro h
    obtain ⟨hsep, hcount, hlen⟩ := h
    obtain ⟨l, hl, hinPath, houtPath, k, hargs⟩ := hsp.link hsep
    have hfit := fits_of_args hargs (by simpa using hcount)
    have hint : l.args.length < 2 ^ 31 := by
      by_cases hsome : inn.isSome ∨ out.isSome
      · exact lt_of_le_of_lt (link_length hl) (hlen hsome)
      · obtain ⟨hno, hno'⟩ := not_or.mp hsome
        rw [← hsignIn, redIn, List.singleton_infix_iff] at hno
        rw [← hsignOut, redOut, List.singleton_infix_iff] at hno'
        rw [link_of_no_redirect hno hno', Option.some.injEq] at hl
        obtain ⟨hinn, hout⟩ := not_or.mp hsome
        rw [Option.not_isSome_iff_eq_none.mp hinn, Option.not_isSome_iff_eq_none.mp hout] at hsp
        have hpieces := hsp.toks_length
        rw [maxArgvLength, maxLineLength] at hcount
        rw [← hl, argsOf, List.length_map]
        omega
    rw [← hsignIn, ← hsignOut] at hlen
    rcases pCommandLink_cases hs hlen hl with ⟨-, hover⟩ | ⟨-, c, m', hlink, -, -, hr⟩
    · exact absurd hover (hfit.not_exceeds hint)
    · refine ⟨c, m', hlink, ?_⟩
      rw [hr.read hfit, Parsed.command, hinPath, houtPath, hargs, leading_args]

/-- "cat < abc > out" -/
theorem pCommandLink_redirects_cat :
    (∃ c m', pCommandLink ⟨0, 0⟩ pipelineCommandAlloc
        ⟨⟨[[99, 97, 116, 32, 60, 32, 97, 98, 99, 32, 62, 32, 111, 117, 116, 0].map some]⟩, none⟩ = some (c, m') ∧
      c.read m'.heap = some ⟨[[99, 97, 116]], some [97, 98, 99], some [111, 117, 116]⟩) := by
  have hblank : Blank [32] := by decide
  have hsp : Spells [⟨[99, 97, 116], by decide, by decide, by decide⟩] (some ⟨[97, 98, 99], by decide, by decide, by decide⟩)
      (some ⟨[111, 117, 116], by decide, by decide, by decide⟩) [99, 97, 116, 32, 60, 32, 97, 98, 99, 32, 62, 32, 111, 117, 116] :=
    ⟨[], _, [], _, _, by decide, .single _, by decide, .present _ hblank hblank hblank,
      .present _ (by decide : Blank []) hblank (by decide : Blank []), .inl rfl⟩
  refine (pCommandLink_redirects hsp (by decide)).mpr ⟨⟨?_, ?_, ?_⟩, by decide, by simp⟩
  all_goals
    simp
    decide

/-- "cat < a": the path is erased from the argument too. -/
theorem pCommandLink_redirects_ct :
    Spells [⟨[99, 97, 116], by decide, by decide, by decide⟩] (some ⟨[97], by decide, by decide, by decide⟩) none [99, 97, 116, 32, 60, 32, 97] ∧
      ¬ ∃ c m', pCommandLink ⟨0, 0⟩ pipelineCommandAlloc ⟨⟨[[99, 97, 116, 32, 60, 32, 97, 0].map some]⟩, none⟩ =
        some (c, m') ∧ c.read m'.heap = some ⟨[[99, 97, 116]], some [97], none⟩ := by
  have hblank : Blank [32] := by decide
  refine ⟨⟨[], _, [], _, _, by decide, .single _, by decide, .present _ hblank hblank (by decide : Blank []), .absent,
    .inl rfl⟩, ?_⟩
  intro h
  obtain ⟨c, m', hlink, hread⟩ := h
  have hl : link [99, 97, 116, 32, 60, 32, 97] = some ⟨some [97], none, [some [99, 116], none]⟩ := by decide
  have hs : (Heap.mk [[99, 97, 116, 32, 60, 32, 97, 0].map some]).str ⟨0, 0⟩ = some [99, 97, 116, 32, 60, 32, 97] := by
    decide
  rcases pCommandLink_cases (m := ⟨_, none⟩) hs (by simp) hl with ⟨hnone, -⟩ | ⟨-, c', m'', hlink', -, -, hr⟩
  · rw [hlink] at hnone
    cases hnone
  · rw [hlink, Option.some.injEq, Prod.mk.injEq] at hlink'
    rw [← hlink'.1, ← hlink'.2] at hr
    exact absurd (hr.read_eq hread).1 (by decide)

end EC440.Shell
