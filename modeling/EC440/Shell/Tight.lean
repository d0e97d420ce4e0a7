/-
  The shortest line with given tokens, and what one blank more does to a command of it.

  An entry of command_args belongs to a piece between blanks, not to a word. A sign that stands
  alone takes an entry that stays NULL, and the arguments end there; of several words in one piece
  only the last is kept. On the shortest line (`tight`) there is a blank only between two words, so
  no entry but the first stays NULL (`Firm.tail_some`). A blank before the first sign changes that,
  when a word that is no path is behind it (`Regular.blank_matters`).
-/
import EC440.Shell.Tokens

namespace EC440.Shell

open EC440.Lib

variable {c d : UInt8} {s t u v w text x : Str} {ts A B : List Token}

/-! ## The entries of a text -/

/-- A text up to its first blank. -/
theorem exists_piece (x : Str) : ∃ r y, x = r ++ y ∧ (∀ c ∈ r, c ∉ whitespaceChars) ∧ ∀ b ∈ y.head?, b ∈ whitespaceChars := by
  refine ⟨x.takeWhile (· ∉ whitespaceChars), x.dropWhile (· ∉ whitespaceChars), List.takeWhile_append_dropWhile.symm,
    fun c hc => by simpa using List.mem_takeWhile_imp hc, fun b hb => ?_⟩
  have hhead := List.head?_dropWhile_not (· ∉ whitespaceChars) x
  rw [Option.mem_def.mp hb] at hhead
  simpa using hhead

theorem argsOf_cons_blank (hc : c ∈ whitespaceChars) (x : Str) : argsOf (c :: x) = argsOf x := by
  rw [argsOf, toks_cons hc, argsOf]

theorem argsOf_append_blank (hc : c ∈ whitespaceChars) (u v : Str) : argsOf (u ++ c :: v) = argsOf u ++ argsOf v := by
  rw [argsOf, toks_append_cons hc, List.map_append, argsOf, argsOf]

theorem argsOf_one (hne : u ≠ []) (hu : Plain u) : argsOf u = [some u] := by
  rw [argsOf_plain hu]
  simp [hne]

theorem argsOf_piece {r y : Str} (hne : r ≠ []) (hr : ∀ c ∈ r, c ∉ whitespaceChars)
    (hy : ∀ b ∈ y.head?, b ∈ whitespaceChars) : argsOf (r ++ y) = lastTok r :: argsOf y := by
  cases y with
  | nil =>
    rw [List.append_nil, argsOf, toks_word hne hr]
    rfl
  | cons b y =>
    have hb := hy b rfl
    rw [argsOf_cons_blank hb, argsOf, toks_append_cons hb, toks_word hne hr]
    rfl

theorem lastTok_ne_none (hc : ∃ c ∈ u, c ∉ specialChars) : ∃ y, lastTok u = some y := by
  rw [← Option.ne_none_iff_exists', lastTok, Ne, List.getLast?_eq_none_iff]
  intro hnil
  obtain ⟨c, hmem, hc⟩ := hc
  have hflat := toks_flatten specialChars u
  rw [hnil, List.flatten_nil] at hflat
  have hin : c ∈ u.filter (· ∉ specialChars) := List.mem_filter.mpr ⟨hmem, by simpa using hc⟩
  rw [← hflat] at hin
  cases hin

theorem plainChar_iff : plainChar c = true ↔ c ∉ whitespaceChars ∧ c ∉ specialChars := decide_eq_true_iff

/-- A word before a sign takes the entry that it would leave NULL. -/
theorem argsOf_word_special (hne : u ≠ []) (hu : Plain u) (hc : c ∈ specialChars) (x : Str) :
    ∃ e es, argsOf (c :: x) = e :: es ∧ argsOf (u ++ c :: x) = (e <|> some u) :: es := by
  obtain ⟨r, y, rfl, hr, hy⟩ := exists_piece x
  have hr' : ∀ d ∈ c :: r, d ∉ whitespaceChars := by
    intro d hd
    rcases List.mem_cons.mp hd with rfl | hd
    · exact fun h => disjoint_chars d h hc
    · exact hr d hd
  have hr'' : ∀ d ∈ u ++ c :: r, d ∉ whitespaceChars := by
    intro d hd
    rcases List.mem_append.mp hd with hd | hd
    · exact (hu d hd).1
    · exact hr' d hd
  have hfirst := argsOf_piece (List.cons_ne_nil c r) hr' hy
  have hboth := argsOf_piece (by simp) hr'' hy
  refine ⟨lastTok (c :: r), argsOf y, hfirst, ?_⟩
  rw [List.append_assoc, List.cons_append] at hboth
  rw [hboth, lastTok, lastTok, toks_append_cons hc, toks_cons hc, toks_word hne fun d hd => (hu d hd).2,
    List.singleton_append, List.getLast?_cons]
  cases (toks specialChars r).getLast? <;> rfl

/-- The first entry, when there is a word in the first piece. -/
theorem argsOf_head (hu : ∀ c ∈ u, c ∉ whitespaceChars) (hplain : ∃ c ∈ u, plainChar c = true) (x : Str) :
    ∃ y es, argsOf (u ++ x) = some y :: es := by
  obtain ⟨r, y, rfl, hr, hy⟩ := exists_piece x
  obtain ⟨c, hmem, hc⟩ := hplain
  have hmem' : c ∈ u ++ r := List.mem_append_left r hmem
  have hur : ∀ d ∈ u ++ r, d ∉ whitespaceChars := by
    intro d hd
    rcases List.mem_append.mp hd with hd | hd
    · exact hu d hd
    · exact hr d hd
  obtain ⟨v, hv⟩ := lastTok_ne_none ⟨c, hmem', (plainChar_iff.mp hc).2⟩
  refine ⟨v, argsOf y, ?_⟩
  rw [← List.append_assoc, argsOf_piece (List.ne_nil_of_mem hmem') hur hy, hv]

/-- Every word is in an entry. -/
theorem argsOf_plainChar (hc : c ∈ x) (hplain : plainChar c = true) : ∃ y, some y ∈ argsOf x := by
  have hblank := plainChar_iff.mp hplain
  have hin : c ∈ x.filter (· ∉ whitespaceChars) := List.mem_filter.mpr ⟨hc, by simpa using hblank.1⟩
  rw [← toks_flatten, List.mem_flatten] at hin
  obtain ⟨piece, hpiece, hmem⟩ := hin
  obtain ⟨y, hy⟩ := lastTok_ne_none ⟨c, hmem, hblank.2⟩
  exact ⟨y, List.mem_map.mpr ⟨piece, hpiece, hy⟩⟩

/-- Behind every blank a word begins. -/
def Firm : Str → Prop
  | [] => True
  | c :: s => (c ∈ whitespaceChars → ∃ d ∈ s.head?, plainChar d = true) ∧ Firm s

theorem firm_append (hu : ∀ c ∈ u, c ∉ whitespaceChars) : Firm (u ++ x) ↔ Firm x := by
  induction u with
  | nil => exact Iff.rfl
  | cons c u ih =>
    rw [List.cons_append, Firm, ih fun d hd => hu d (List.mem_cons_of_mem c hd)]
    exact and_iff_right fun h => absurd h (hu c List.mem_cons_self)

theorem Firm.suffix (hx : Firm (u ++ x)) : Firm x := by
  induction u with
  | nil => exact hx
  | cons c u ih => exact ih hx.2

/-- What is behind a blank begins with a word. -/
theorem Firm.blank (hx : Firm (c :: x)) (hc : c ∈ whitespaceChars) :
    Firm x ∧ ∃ d ∈ x.head?, plainChar d = true := ⟨hx.2, hx.1 hc⟩

theorem Firm.all_some (hx : Firm x) (hd : ∃ d ∈ x.head?, plainChar d = true) : ∀ e ∈ argsOf x, e ≠ none := by
  induction hn : x.length using Nat.strong_induction_on generalizing x with
  | _ n ih =>
    obtain ⟨r, y, rfl, hr, hy⟩ := exists_piece x
    obtain ⟨d, hd, hplain⟩ := hd
    have hmem : d ∈ r := by
      cases r with
      | nil => exact absurd (hy d hd) (plainChar_iff.mp hplain).1
      | cons c r =>
        rw [List.cons_append, List.head?_cons, Option.mem_some_iff] at hd
        rw [hd]
        exact List.mem_cons_self
    intro e he
    rw [argsOf_piece (List.ne_nil_of_mem hmem) hr hy, List.mem_cons] at he
    rcases he with rfl | he
    · obtain ⟨v, hv⟩ := lastTok_ne_none ⟨d, hmem, (plainChar_iff.mp hplain).2⟩
      rw [hv]
      simp
    · have hrest := hx.suffix
      cases y with
      | nil => cases he
      | cons b y =>
        have hb := hy b rfl
        rw [argsOf_cons_blank hb] at he
        rw [List.length_append, List.length_cons] at hn
        exact ih y.length (by omega) (hrest.blank hb).1 (hrest.blank hb).2 rfl e he

/-- Only the first entry can be NULL. -/
theorem Firm.tail_some (hx : Firm x) : ∀ e ∈ (argsOf x).tail, e ≠ none := by
  obtain ⟨r, y, rfl, hr, hy⟩ := exists_piece x
  have hrest : ∀ e ∈ argsOf y, e ≠ none := by
    cases y with
    | nil =>
      intro e he
      cases he
    | cons b y =>
      have hb := hy b rfl
      rw [argsOf_cons_blank hb]
      exact (hx.suffix.blank hb).1.all_some (hx.suffix.blank hb).2
  by_cases hne : r = []
  · rw [hne, List.nil_append]
    exact fun e he => hrest e (List.mem_of_mem_tail he)
  · rw [argsOf_piece hne hr hy]
    exact hrest

/-! ## The shortest line -/

/-- A blank between two words, and nowhere else. -/
def space : List Token → List Token
  | [] => []
  | .sep c :: ts => .sep c :: space ts
  | .word u :: ts => .word u :: if (headWord ts).isSome then .sep 32 :: space ts else space ts

def tight (ts : List Token) : Str := textOf (space ts)

theorem tight_sep (c : UInt8) (ts : List Token) : tight (.sep c :: ts) = c :: tight ts := by
  rw [tight, space, textOf_cons]
  rfl

theorem tight_word (u : Str) (ts : List Token) :
    tight (.word u :: ts) = u ++ if (headWord ts).isSome then 32 :: tight ts else tight ts := by
  rw [tight, space, textOf_cons, Token.text]
  split
  · rw [textOf_cons]
    rfl
  · rfl

theorem headWord_append (c : UInt8) (A B : List Token) : headWord (A ++ .sep c :: B) = headWord A := by
  cases A with
  | nil => rfl
  | cons t A => cases t <;> rfl

theorem space_append_sep (c : UInt8) (A B : List Token) : space (A ++ .sep c :: B) = space A ++ .sep c :: space B := by
  induction A with
  | nil => rfl
  | cons t A ih =>
    cases t with
    | sep d => rw [List.cons_append, space, space, ih, List.cons_append]
    | word u =>
      rw [List.cons_append, space, space, ih, headWord_append]
      split <;> rfl

theorem tight_append_sep (c : UInt8) (A B : List Token) : tight (A ++ .sep c :: B) = tight A ++ c :: tight B := by
  rw [tight, space_append_sep, textOf_append, textOf_cons]
  rfl

/-- A word of which nothing is left still has its blanks. -/
theorem space_map_strip (K ts : List Token) : space (ts.map (strip K)) = (space ts).map (strip K) := by
  have hhead : ∀ ts : List Token, (headWord (ts.map (strip K))).isSome = (headWord ts).isSome := by
    intro ts
    cases ts with
    | nil => rfl
    | cons t ts => cases t <;> rfl
  induction ts with
  | nil => rfl
  | cons t ts ih =>
    cases t with
    | sep c => rw [List.map_cons, space, List.map_cons, ← ih]; rfl
    | word u =>
      rw [List.map_cons, space, List.map_cons, strip, Token.erase, Token.erase, space, hhead, ih]
      split <;> rfl

theorem word_mem_space : .word u ∈ space ts ↔ .word u ∈ ts := by
  induction ts with
  | nil => rfl
  | cons t ts ih =>
    cases t with
    | sep c => simp [space, ih]
    | word v =>
      rw [space]
      split <;> simp [ih]

/-- A token as `lex` finds it. -/
structure Token.Proper (t : Token) : Prop where
  lexeme : t.isLexeme = true
  valid : t.Valid
  ne_nil : t.text ≠ []

theorem lex_proper (s : Str) : ∀ t ∈ lex s, t.Proper := by
  intro t ht
  obtain ⟨hmem, hlex⟩ := List.mem_filter.mp ht
  refine ⟨hlex, (scan_spaced s).valid t hmem, ?_⟩
  cases t with
  | sep c => exact List.cons_ne_nil c []
  | word u => exact scan_ne_nil hmem

theorem Token.Proper.special (h : (Token.sep c).Proper) : c ∈ specialChars := by
  have hblank : c ∉ whitespaceChars := by simpa [Token.isLexeme] using h.lexeme
  by_contra hspecial
  have hplain := plainChar_iff.mpr ⟨hblank, hspecial⟩
  rw [show plainChar c = false from h.valid] at hplain
  cases hplain

theorem space_spaced (h : ∀ t ∈ ts, t.Valid) : Spaced (space ts) := by
  induction ts with
  | nil => exact .nil
  | cons t ts ih =>
    have hrest := ih fun t' ht' => h t' (List.mem_cons_of_mem t ht')
    cases t with
    | sep c => exact .sep (h (.sep c) List.mem_cons_self) hrest
    | word u =>
      have hu : Plain u := h (.word u) List.mem_cons_self
      rw [space]
      split
      · exact .word hu (.sep (by decide) hrest) (by simp [Token.isWord])
      · next hno =>
        refine .word hu hrest fun t ht => ?_
        cases ts with
        | nil => cases ht
        | cons t' ts =>
          cases t' with
          | sep c =>
            rw [space, List.head?_cons, Option.mem_some_iff] at ht
            rw [← ht]
            rfl
          | word v => exact absurd rfl hno

theorem space_filter (h : ∀ t ∈ ts, t.isLexeme = true) : (space ts).filter Token.isLexeme = ts := by
  induction ts with
  | nil => rfl
  | cons t ts ih =>
    have hrest := ih fun t' ht' => h t' (List.mem_cons_of_mem t ht')
    have ht := h t List.mem_cons_self
    cases t with
    | sep c => rw [space, List.filter_cons_of_pos ht, hrest]
    | word u =>
      rw [space, List.filter_cons_of_pos ht]
      split
      · rw [List.filter_cons_of_neg (by decide), hrest]
      · rw [hrest]

theorem scan_tight (h : ∀ t ∈ ts, t.Proper) : scan (tight ts) = space ts :=
  scan_textOf (space_spaced fun t ht => (h t ht).valid) fun _ hu => (h _ (word_mem_space.mp hu)).ne_nil

theorem lex_tight (h : ∀ t ∈ ts, t.Proper) : lex (tight ts) = ts := by
  rw [lex, scan_tight h, space_filter fun t ht => (h t ht).lexeme]

/-- What is split into arguments, for the shortest line. -/
theorem strip_tight (h : ∀ t ∈ ts, t.Proper) (K : List Token) :
    textOf ((scan (tight ts)).map (strip K)) = tight (ts.map (strip K)) := by
  rw [scan_tight h, tight, space_map_strip]

theorem firm_tight (hspecial : ∀ c, .sep c ∈ ts → c ∈ specialChars) (hplain : ∀ u, .word u ∈ ts → Plain u)
    (hnext : ts.IsChain fun t t' => t.isWord = true → t'.isWord = true → t'.text ≠ []) : Firm (tight ts) := by
  induction ts with
  | nil => trivial
  | cons t ts ih =>
    have hrest := ih (fun c hc => hspecial c (List.mem_cons_of_mem t hc)) (fun u hu => hplain u (List.mem_cons_of_mem t hu))
      hnext.tail
    cases t with
    | sep c =>
      rw [tight_sep]
      exact ⟨fun h => absurd (hspecial c List.mem_cons_self) (disjoint_chars c h), hrest⟩
    | word u =>
      rw [tight_word, firm_append fun c hc => (hplain u List.mem_cons_self c hc).1]
      split
      · next hword =>
        refine ⟨fun _ => ?_, hrest⟩
        cases ts with
        | nil => cases hword
        | cons t' ts =>
          cases t' with
          | sep c => cases hword
          | word v =>
            have hne : v ≠ [] := hnext.rel_head? rfl rfl rfl
            obtain ⟨d, v, rfl⟩ := List.exists_cons_of_ne_nil hne
            refine ⟨d, by rw [tight_word]; rfl, plainChar_iff.mpr ?_⟩
            exact hplain (d :: v) (List.mem_cons_of_mem _ List.mem_cons_self) d List.mem_cons_self
      · exact hrest

/-- A path is not behind a word. -/
theorem Regular.next_keep (hreg : Regular (A ++ .word u :: .word v :: B)) :
    strip (A ++ .word u :: .word v :: B) (.word v) = .word v := by
  have hkeep : ∀ {c : UInt8}, c = 60 ∨ c = 62 → pathAfter c (A ++ .word u :: .word v :: B) ≠ some v := by
    intro c hc hpath
    have hmem : .sep c ∈ A ++ .word u :: .word v :: B := by
      by_contra hno
      rw [pathAfter_of_absent hno] at hpath
      cases hpath
    obtain ⟨A', w, B', hts, -, -, hother, hw⟩ := hreg.first hc hmem
    rw [hpath, Option.some.injEq] at hw
    rw [← hw] at hts hother
    exact hother v (mem_of_append_eq hts.symm (by simp) (by simp)) (List.infix_refl v)
  exact hreg.strip_keep (by simp) (hkeep (.inl rfl)) (hkeep (.inr rfl))

theorem sep_mem_map_strip {K : List Token} : .sep c ∈ ts.map (strip K) ↔ .sep c ∈ ts := by
  rw [show strip K = Token.erase (pathAfter 62 K) ∘ Token.erase (pathAfter 60 K) from rfl, ← List.map_map,
    sep_mem_map_erase, sep_mem_map_erase]

theorem Regular.plain_strip (hreg : Regular ts) (h : ∀ t ∈ ts, t.Proper) (hu : .word u ∈ ts.map (strip ts)) : Plain u := by
  obtain ⟨t, ht, heq⟩ := List.mem_map.mp hu
  cases t with
  | sep c => cases heq
  | word v =>
    rw [hreg.strip_word ht, Token.word.injEq] at heq
    rw [← heq]
    split
    · intro c hc
      cases hc
    · exact (h (.word v) ht).valid

theorem Regular.firm (hreg : Regular ts) (h : ∀ t ∈ ts, t.Proper) : Firm (tight (ts.map (strip ts))) := by
  refine firm_tight (fun c hc => (h _ (sep_mem_map_strip.mp hc)).special) (fun u hu => hreg.plain_strip h hu) ?_
  refine (List.isChain_map _).mpr (List.isChain_iff_forall_rel_of_append_cons_cons.mpr ?_)
  intro t t' A B hts hword hword'
  cases t with
  | sep c => cases hword
  | word u =>
    cases t' with
    | sep c => cases hword'
    | word v =>
      rw [hts] at hreg
      rw [hts, hreg.next_keep]
      exact (h (.word v) (by rw [hts]; simp)).ne_nil

/-! ## One blank more -/

theorem leading_some (y : Str) (es : List (Option Str)) : leading (some y :: es) = y :: leading es := by
  simp [leading, List.reduceOption_cons_of_some]

theorem leading_none (es : List (Option Str)) : leading (none :: es) = [] := by
  simp [leading]

theorem leading_append (ws : List Str) (es : List (Option Str)) : leading (ws.map some ++ es) = ws ++ leading es := by
  induction ws with
  | nil => rfl
  | cons w ws ih => rw [List.map_cons, List.cons_append, leading_some, ih, List.cons_append]

theorem exists_first_word (hu : .word u ∈ ts) : ∃ A v B, ts = A ++ .word v :: B ∧ ∀ x, .word x ∉ A := by
  induction ts with
  | nil => cases hu
  | cons t ts ih =>
    cases t with
    | word v => exact ⟨[], v, ts, rfl, by simp⟩
    | sep c =>
      obtain ⟨A, v, B, rfl, hA⟩ := ih (by simpa using hu)
      exact ⟨.sep c :: A, v, B, rfl, by simpa using hA⟩

/-- The words before the first sign. -/
theorem exists_first_sep (h : ts = A ++ .sep c :: B) (hu : .word u ∈ B) :
    ∃ (ws : List Str) (d : UInt8) (R : List Token), ts = ws.map .word ++ .sep d :: R ∧ .word u ∈ R := by
  induction A generalizing ts with
  | nil => exact ⟨[], c, B, h, hu⟩
  | cons t A ih =>
    cases t with
    | sep d => exact ⟨[], d, A ++ .sep c :: B, h, by simp [hu]⟩
    | word v =>
      obtain ⟨ws, d, R, hts, hu⟩ := ih rfl
      exact ⟨v :: ws, d, R, by rw [h, List.cons_append, hts]; rfl, hu⟩

theorem Regular.keep_before (hreg : Regular (A ++ B)) (hin : .sep 60 ∉ A) (hout : .sep 62 ∉ A) (hu : .word u ∈ A) :
    strip (A ++ B) (.word u) = .word u := by
  refine hreg.strip_keep (List.mem_append_left B hu) (fun h => ?_) fun h => ?_
  · exact hreg.not_before (.inl rfl) hin hu u h (List.infix_refl u)
  · exact hreg.not_before (.inr rfl) hout hu u h (List.infix_refl u)

/-- The first word of a command is none of its paths. -/
theorem Regular.first_keep (hreg : Regular (A ++ .word v :: B)) (hA : ∀ x, .word x ∉ A) :
    strip (A ++ .word v :: B) (.word v) = .word v := by
  have hsign : ∀ c, c = 60 ∨ c = 62 → .sep c ∉ A ++ [.word v] := by
    intro c hc hmem
    have hmem' : .sep c ∈ A := by simpa using hmem
    obtain ⟨A₁, A₂, rfl⟩ := List.append_of_mem hmem'
    obtain ⟨⟨x, hx⟩, -⟩ := hreg A₁ c (A₂ ++ .word v :: B) (by simp) hc
    exact hA x (List.mem_append_left _ hx)
  have hsplit : A ++ .word v :: B = (A ++ [.word v]) ++ B := by simp
  rw [hsplit] at hreg ⊢
  exact hreg.keep_before (hsign 60 (.inl rfl)) (hsign 62 (.inr rfl)) (by simp)

theorem map_strip_seps {K : List Token} (hA : ∀ x, .word x ∉ A) : A.map (strip K) = A := by
  refine (List.map_congr_left fun t ht => ?_).trans (List.map_id A)
  cases t with
  | sep c => rfl
  | word x => exact absurd ht (hA x)

theorem tight_seps (hA : ∀ x, .word x ∉ A) (B : List Token) : tight (A ++ B) = textOf A ++ tight B := by
  induction A with
  | nil => rfl
  | cons t A ih =>
    cases t with
    | sep c =>
      rw [List.cons_append, tight_sep, ih fun x hx => hA x (List.mem_cons_of_mem _ hx), textOf_cons]
      rfl
    | word x => exact absurd List.mem_cons_self (hA x)

/-- On the shortest line a command that has a word has a name. -/
theorem Regular.tight_named (hreg : Regular ts) (h : ∀ t ∈ ts, t.Proper) (hu : .word u ∈ ts) :
    ∃ y es, argsOf (tight (ts.map (strip ts))) = some y :: es := by
  obtain ⟨A, v, B, rfl, hA⟩ := exists_first_word hu
  have hv := h (.word v) (by simp)
  have hplain : Plain v := hv.valid
  obtain ⟨c, hc⟩ := List.exists_mem_of_ne_nil v hv.ne_nil
  rw [List.map_append, List.map_cons, hreg.first_keep hA, map_strip_seps hA, tight_seps hA, tight_word, ← List.append_assoc]
  refine argsOf_head (fun d hd => ?_) ⟨c, List.mem_append_right _ hc, plainChar_iff.mpr (hplain c hc)⟩ _
  rcases List.mem_append.mp hd with hd | hd
  · obtain ⟨t, ht, hd⟩ := List.mem_flatMap.mp hd
    cases t with
    | sep e =>
      rw [List.mem_singleton.mp hd]
      exact fun hblank => disjoint_chars e hblank (h (.sep e) (by simp [ht])).special
    | word x => exact absurd ht (hA x)
  · exact (hplain d hd).1

theorem argsOf_tight_words {ws : List Str} (hws : ∀ u ∈ ws, u ≠ [] ∧ Plain u) (w x : Str) :
    argsOf (tight ((ws ++ [w]).map .word) ++ x) = ws.map some ++ argsOf (w ++ x) := by
  induction ws with
  | nil => rw [List.nil_append, List.map_singleton, tight_word]; simp [headWord, tight, space, textOf]
  | cons u ws ih =>
    have hrest := ih fun v hv => hws v (List.mem_cons_of_mem u hv)
    obtain ⟨hne, hu⟩ := hws u List.mem_cons_self
    have hword : (headWord ((ws ++ [w]).map .word)).isSome = true := by
      cases ws <;> rfl
    rw [List.cons_append, List.map_cons, tight_word, if_pos hword, List.append_assoc, List.cons_append,
      argsOf_append_blank (by decide), argsOf_one hne hu, hrest]
    rfl

theorem scan_blank_between (hA : ∀ t ∈ A, t.Proper) (hB : ∀ t ∈ B, t.Proper) :
    scan (tight A ++ 32 :: tight B) = space A ++ .sep 32 :: space B := by
  rw [scan_append_sep (by decide), scan_tight hA, scan_tight hB]

theorem lex_blank_between (hA : ∀ t ∈ A, t.Proper) (hB : ∀ t ∈ B, t.Proper) :
    lex (tight A ++ 32 :: tight B) = A ++ B := by
  rw [lex_append_blank (by decide), lex_tight hA, lex_tight hB]

theorem strip_blank_between (hA : ∀ t ∈ A, t.Proper) (hB : ∀ t ∈ B, t.Proper) (K : List Token) :
    textOf ((scan (tight A ++ 32 :: tight B)).map (strip K)) = tight (A.map (strip K)) ++ 32 :: tight (B.map (strip K)) := by
  rw [scan_blank_between hA hB, List.map_append, List.map_cons, textOf_append, textOf_cons, ← space_map_strip,
    ← space_map_strip]
  rfl

/-- A sign on its own in front takes the first entry. -/
theorem leading_special (hc : c ∈ specialChars) (x : Str) : leading (argsOf (c :: 32 :: x)) = [] := by
  have hpiece := argsOf_piece (r := [c]) (y := 32 :: x) (by simp)
    (by simpa using fun h => disjoint_chars c h hc) (fun b hb => by cases hb; decide)
  have hnone : lastTok [c] = none := by
    rw [lastTok, toks_delims (by simpa using hc)]
    rfl
  rw [List.singleton_append, hnone] at hpiece
  rw [hpiece, leading_none]

/-- A word behind a sign is lost, or keeps the word before the sign from being lost. -/
theorem leading_word_special (hne : w ≠ []) (hw : Plain w) (hc : c ∈ specialChars) (hx : Firm (c :: x))
    (hd : d ∈ x) (hplain : plainChar d = true) :
    leading (argsOf (w ++ c :: x)) ≠ leading (some w :: argsOf (c :: x)) := by
  obtain ⟨e, es, hsign, hword⟩ := argsOf_word_special hne hw hc x
  obtain ⟨y, hy⟩ := argsOf_plainChar (List.mem_cons_of_mem c hd) hplain
  have htail := hx.tail_some
  rw [hsign, List.tail_cons] at htail
  rw [hsign] at hy
  rw [hword, hsign, leading_some]
  intro heq
  have hlen := congrArg List.length heq
  cases e with
  | some z =>
    rw [show (some z <|> some w) = some z from rfl, leading_some, List.length_cons, List.length_cons,
      List.length_cons] at hlen
    omega
  | none =>
    -- the entries behind the sign are cut off
    rw [show ((none : Option Str) <|> some w) = some w from rfl, leading_some, leading_none, List.length_cons,
      List.length_cons, List.length_nil] at hlen
    cases es with
    | nil => simp at hy
    | cons e es =>
      cases e with
      | none => exact htail none List.mem_cons_self rfl
      | some z =>
        rw [leading_some, List.length_cons] at hlen
        omega

/-- A word behind a sign that is no path: one blank more makes another list of arguments. -/
theorem Regular.blank_matters (hreg : Regular ts) (h : ∀ t ∈ ts, t.Proper) {ws : List Str} {R : List Token}
    (hts : ts = ws.map .word ++ .sep c :: R) (hu : .word u ∈ R) (hin : pathAfter 60 ts ≠ some u)
    (hout : pathAfter 62 ts ≠ some u) :
    ∃ x, lex x = ts ∧ x.length = (tight ts).length + 1 ∧
      leading (argsOf (textOf ((scan x).map (strip ts)))) ≠ leading (argsOf (tight (ts.map (strip ts)))) := by
  have hmem : .word u ∈ ts := by
    rw [hts]
    simp [hu]
  have hc := (h (.sep c) (by rw [hts]; simp)).special
  have hR : ∀ t ∈ R, t.Proper := fun t ht => h t (by rw [hts]; simp [ht])
  rcases List.eq_nil_or_concat ws with rfl | ⟨ws, w, rfl⟩
  · have hA : ∀ t ∈ [Token.sep c], t.Proper := fun t ht => h t (by rw [hts]; simp [List.mem_singleton.mp ht])
    refine ⟨tight [.sep c] ++ 32 :: tight R, ?_, ?_, ?_⟩
    · rw [lex_blank_between hA hR, hts]
      rfl
    · rw [hts, List.map_nil, List.nil_append, tight_sep, tight_sep]
      simp [tight, space, textOf]
    · obtain ⟨y, es, hnamed⟩ := hreg.tight_named h hmem
      rw [strip_blank_between hA hR, hnamed, leading_some, show tight ([.sep c].map (strip ts)) = [c] from rfl,
        List.singleton_append, leading_special hc]
      simp
  · rw [List.concat_eq_append] at hts
    have hA : ∀ t ∈ (ws ++ [w]).map Token.word, t.Proper := fun t ht => h t (by rw [hts]; exact List.mem_append_left _ ht)
    have hB : ∀ t ∈ Token.sep c :: R, t.Proper := fun t ht => h t (by rw [hts]; exact List.mem_append_right _ ht)
    have hword : ∀ v ∈ ws ++ [w], v ≠ [] ∧ Plain v := fun v hv =>
      ⟨(hA _ (List.mem_map_of_mem hv)).ne_nil, (hA _ (List.mem_map_of_mem hv)).valid⟩
    have hkeep : ((ws ++ [w]).map Token.word).map (strip ts) = (ws ++ [w]).map Token.word := by
      rw [hts] at hreg ⊢
      refine (List.map_congr_left fun t ht => ?_).trans (List.map_id _)
      obtain ⟨v, -, rfl⟩ := List.mem_map.mp ht
      exact hreg.keep_before (by simp) (by simp) ht
    have hfirm := hreg.firm h
    have htight : tight (ts.map (strip ts)) = tight ((ws ++ [w]).map .word) ++ c :: tight (R.map (strip ts)) := by
      conv_lhs => rw [hts, List.map_append, ← hts, hkeep, List.map_cons]
      exact tight_append_sep c _ _
    rw [htight] at hfirm
    refine ⟨tight ((ws ++ [w]).map .word) ++ 32 :: tight (.sep c :: R), ?_, ?_, ?_⟩
    · rw [lex_blank_between hA hB, hts]
    · rw [hts, tight_append_sep, List.length_append, List.length_append, List.length_cons, tight_sep]
      rfl
    · obtain ⟨d, hd⟩ := List.exists_mem_of_ne_nil u (hR _ hu).ne_nil
      have hplain : Plain u := (hR _ hu).valid
      have hmemu : .word u ∈ space (R.map (strip ts)) :=
        word_mem_space.mpr (List.mem_map.mpr ⟨.word u, hu, hreg.strip_keep hmem hin hout⟩)
      have hd' : d ∈ tight (R.map (strip ts)) := List.mem_flatMap.mpr ⟨.word u, hmemu, hd⟩
      obtain ⟨hne, hw⟩ := hword w (by simp)
      have hws : ∀ v ∈ ws, v ≠ [] ∧ Plain v := fun v hv => hword v (by simp [hv])
      have hdiff := leading_word_special hne hw hc hfirm.suffix hd' (plainChar_iff.mpr (hplain d hd))
      rw [strip_blank_between hA hB, hkeep, htight, argsOf_tight_words hws, argsOf_tight_words hws, leading_append,
        leading_append, List.map_cons, show strip ts (.sep c) = .sep c from rfl, tight_sep, argsOf_append_blank (by decide),
        argsOf_one hne hw]
      exact fun heq => hdiff (List.append_cancel_left heq).symm

end EC440.Shell
