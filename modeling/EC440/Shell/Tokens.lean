/-
  Lines by their tokens. `scan` cuts a text into its words and the characters between them, and
  `lex` leaves the blanks out: these are the tokens of the README.

  What p_command_link makes of a piece is said in these terms, for pieces whose redirects have a
  path that occurs in no other word: the paths are given by the tokens (`link_of_lex`), the arguments
  also by the blanks between them.
-/
import Mathlib.Data.List.Chain
import EC440.Shell.Robust
import EC440.Shell.Redirects

namespace EC440.Shell

open EC440.Lib

/-- A word, or a character that is no part of one. -/
inductive Token where
  | sep (c : UInt8)
  | word (u : Str)
  deriving DecidableEq, Repr

namespace Token

def text : Token → Str
  | sep c => [c]
  | word u => u

def isWord : Token → Bool
  | sep _ => false
  | word _ => true

/-- No blank. -/
def isLexeme : Token → Bool
  | sep c => decide (c ∉ whitespaceChars)
  | word _ => true

def Valid : Token → Prop
  | sep c => plainChar c = false
  | word u => Plain u

end Token

def textOf (ts : List Token) : Str := ts.flatMap Token.text

def consPlain (c : UInt8) : List Token → List Token
  | .word u :: ts => .word (c :: u) :: ts
  | ts => .word [c] :: ts

def scan : Str → List Token
  | [] => []
  | c :: s => if plainChar c then consPlain c (scan s) else .sep c :: scan s

/-- The tokens of a line. -/
def lex (s : Str) : List Token := (scan s).filter Token.isLexeme

variable {c : UInt8} {s t u v text : Str} {ts us A B : List Token}

theorem textOf_cons (t : Token) (ts : List Token) : textOf (t :: ts) = t.text ++ textOf ts := List.flatMap_cons

theorem textOf_append (ts us : List Token) : textOf (ts ++ us) = textOf ts ++ textOf us := List.flatMap_append

theorem textOf_consPlain (c : UInt8) (ts : List Token) : textOf (consPlain c ts) = c :: textOf ts := by
  cases ts with
  | nil => rfl
  | cons t ts =>
    cases t with
    | sep d => rfl
    | word u => rfl

theorem textOf_scan (s : Str) : textOf (scan s) = s := by
  induction s with
  | nil => rfl
  | cons c s ih =>
    rw [scan]
    split
    · rw [textOf_consPlain, ih]
    · rw [textOf_cons, ih]
      rfl

theorem plain_iff : Plain u ↔ ∀ c ∈ u, plainChar c = true := by
  simp [Plain, plainChar]

/-- As a text is scanned, up to words of which nothing is left: no two are side by side. -/
structure Spaced (ts : List Token) : Prop where
  valid : ∀ t ∈ ts, t.Valid
  apart : ts.IsChain fun t t' => ¬ (t.isWord = true ∧ t'.isWord = true)

theorem Spaced.nil : Spaced [] := ⟨by simp, .nil⟩

theorem Spaced.sep (hc : plainChar c = false) (hs : Spaced ts) : Spaced (.sep c :: ts) := by
  refine ⟨?_, hs.apart.cons fun t _ h => by cases h.1⟩
  intro t ht
  rcases List.mem_cons.mp ht with rfl | ht
  · exact hc
  · exact hs.valid t ht

theorem Spaced.word (hu : Plain u) (hs : Spaced ts) (hhead : ∀ t ∈ ts.head?, t.isWord = false) :
    Spaced (.word u :: ts) := by
  refine ⟨?_, hs.apart.cons fun t ht h => by rw [hhead t ht] at h; cases h.2⟩
  intro t ht
  rcases List.mem_cons.mp ht with rfl | ht
  · exact hu
  · exact hs.valid t ht

theorem Spaced.tail {t : Token} (hs : Spaced (t :: ts)) : Spaced ts :=
  ⟨fun t' ht' => hs.valid t' (List.mem_cons_of_mem t ht'), hs.apart.tail⟩

/-- A word is followed by another character. -/
theorem Spaced.head (hs : Spaced (.word u :: ts)) : ∀ t ∈ ts.head?, t.isWord = false := by
  intro t ht
  have hrel := hs.apart.rel_head? ht
  cases ht' : t.isWord with
  | false => rfl
  | true => exact absurd ⟨rfl, ht'⟩ hrel

theorem Spaced.append (hs : Spaced (ts ++ us)) : Spaced ts ∧ Spaced us :=
  ⟨⟨fun t ht => hs.valid t (List.mem_append_left us ht), hs.apart.left_of_append⟩,
    fun t ht => hs.valid t (List.mem_append_right ts ht), hs.apart.right_of_append⟩

theorem scan_spaced (s : Str) : Spaced (scan s) := by
  induction s with
  | nil => exact .nil
  | cons c s ih =>
    rw [scan]
    split
    · next hc =>
      have hplain : Plain [c] := plain_iff.mpr (by simpa using hc)
      cases hscan : scan s with
      | nil => exact .word hplain .nil (by simp)
      | cons t ts =>
        rw [hscan] at ih
        cases t with
        | sep d => exact .word hplain ih (by simp [Token.isWord])
        | word u =>
          have hu : Plain u := ih.valid (.word u) List.mem_cons_self
          refine .word (plain_iff.mpr fun d hd => ?_) ih.tail ih.head
          rcases List.mem_cons.mp hd with rfl | hd
          · exact hc
          · exact plain_iff.mp hu d hd
    · next hc => exact .sep (by simpa using hc) ih

theorem scan_word (hne : u ≠ []) (hu : Plain u) (hhead : ∀ t ∈ (scan s).head?, t.isWord = false) :
    scan (u ++ s) = .word u :: scan s := by
  rw [plain_iff] at hu
  induction u with
  | nil => exact absurd rfl hne
  | cons c u ih =>
    rw [List.cons_append, scan, if_pos (hu c List.mem_cons_self)]
    by_cases hnil : u = []
    · rw [hnil, List.nil_append]
      cases hscan : scan s with
      | nil => rfl
      | cons t ts =>
        cases t with
        | sep d => rfl
        | word v =>
          have hno := hhead (.word v) (by rw [hscan]; rfl)
          cases hno
    · rw [ih hnil fun d hd => hu d (List.mem_cons_of_mem c hd)]
      rfl

theorem scan_ne_nil (hu : .word u ∈ scan s) : u ≠ [] := by
  induction s generalizing u with
  | nil => cases hu
  | cons c s ih =>
    rw [scan] at hu
    split at hu
    · cases hscan : scan s with
      | nil =>
        rw [hscan] at hu
        cases List.mem_singleton.mp hu
        simp
      | cons t ts =>
        rw [hscan] at hu ih
        cases t with
        | sep d =>
          rcases List.mem_cons.mp hu with hu | hu
          · cases hu
            simp
          · exact ih hu
        | word v =>
          rcases List.mem_cons.mp hu with hu | hu
          · cases hu
            simp
          · exact ih (List.mem_cons_of_mem _ hu)
    · rcases List.mem_cons.mp hu with hu | hu
      · cases hu
      · exact ih hu

theorem scan_textOf (hs : Spaced ts) (hne : ∀ u, .word u ∈ ts → u ≠ []) : scan (textOf ts) = ts := by
  induction ts with
  | nil => rfl
  | cons t ts ih =>
    have hrest := ih hs.tail fun u hu => hne u (List.mem_cons_of_mem t hu)
    cases t with
    | sep c =>
      have hc : plainChar c = false := hs.valid (.sep c) List.mem_cons_self
      rw [textOf_cons, Token.text, List.singleton_append, scan, hc, if_neg (by simp), hrest]
    | word u =>
      have hu : Plain u := hs.valid (.word u) List.mem_cons_self
      rw [textOf_cons, Token.text, scan_word (hne u List.mem_cons_self) hu (by rw [hrest]; exact hs.head), hrest]

/-- A character between words is between tokens too. -/
theorem scan_append_sep (hc : plainChar c = false) (u v : Str) : scan (u ++ c :: v) = scan u ++ .sep c :: scan v := by
  have hcons : ∀ (d : UInt8) (ts us : List Token), consPlain d (ts ++ .sep c :: us) = consPlain d ts ++ .sep c :: us := by
    intro d ts us
    cases ts with
    | nil => rfl
    | cons t ts =>
      cases t with
      | sep e => rfl
      | word w => rfl
  induction u with
  | nil =>
    rw [List.nil_append, scan.eq_2, hc, if_neg (by simp)]
    rfl
  | cons d u ih =>
    rw [List.cons_append, scan.eq_2, scan.eq_2, ih]
    split
    · exact hcons d _ _
    · rfl

theorem plainChar_special (hc : c ∈ specialChars) : plainChar c = false := by
  simp [plainChar, hc]

theorem plainChar_blank (hc : c ∈ whitespaceChars) : plainChar c = false := by
  simp [plainChar, hc]

theorem filter_blank (hc : c ∈ whitespaceChars) (ts : List Token) :
    (Token.sep c :: ts).filter Token.isLexeme = ts.filter Token.isLexeme :=
  List.filter_cons_of_neg (by simpa [Token.isLexeme] using hc)

theorem filter_sep (hc : c ∉ whitespaceChars) (ts : List Token) :
    (Token.sep c :: ts).filter Token.isLexeme = .sep c :: ts.filter Token.isLexeme :=
  List.filter_cons_of_pos (decide_eq_true hc)

theorem lex_append_special (hc : c ∈ specialChars) (u v : Str) : lex (u ++ c :: v) = lex u ++ .sep c :: lex v := by
  have hblank : c ∉ whitespaceChars := fun h => disjoint_chars c h hc
  rw [lex, scan_append_sep (plainChar_special hc), List.filter_append, filter_sep hblank]
  rfl

theorem lex_append_blank (hc : c ∈ whitespaceChars) (u v : Str) : lex (u ++ c :: v) = lex u ++ lex v := by
  rw [lex, scan_append_sep (plainChar_blank hc), List.filter_append, filter_blank hc]
  rfl

/-! ## Erasing a word -/

def erasePath (o : Option Str) (s : Str) : Str :=
  match o with
  | none => s
  | some w => replaceAll w [] s

def Token.erase (o : Option Str) : Token → Token
  | sep c => sep c
  | word u => word (erasePath o u)

theorem map_erase_none (ts : List Token) : ts.map (Token.erase none) = ts := by
  refine (List.map_congr_left fun t _ => ?_).trans (List.map_id ts)
  cases t <;> rfl

theorem sep_mem_map_erase {o : Option Str} : .sep c ∈ ts.map (Token.erase o) ↔ .sep c ∈ ts := by
  rw [List.mem_map]
  constructor
  · intro h
    obtain ⟨t, ht, heq⟩ := h
    cases t with
    | sep d => exact heq ▸ ht
    | word u => cases heq
  · intro h
    exact ⟨.sep c, h, rfl⟩

theorem map_erase_isLexeme {o : Option Str} (h : ts.filter Token.isLexeme = []) :
    (ts.map (Token.erase o)).filter Token.isLexeme = [] := by
  rw [List.filter_eq_nil_iff] at h ⊢
  intro t ht
  obtain ⟨t, hmem, rfl⟩ := List.mem_map.mp ht
  have hno := h t hmem
  cases t <;> exact hno

theorem erasePath_of_absent {w : Str} (h : ¬ w <:+: u) : erasePath (some w) u = u := replaceAll_of_absent h []

variable {w : Word} {o : Option Str}

theorem Spaced.map_erase (hs : Spaced ts) (w : Word) : Spaced (ts.map (Token.erase (some w.text))) := by
  refine ⟨fun t ht => ?_, (List.isChain_map _).mpr (hs.apart.imp fun t t' h => ?_)⟩
  · obtain ⟨t, hmem, rfl⟩ := List.mem_map.mp ht
    have hvalid := hs.valid t hmem
    cases t with
    | sep c => exact hvalid
    | word u =>
      intro c hc
      rcases mem_replaceAll w.ne_nil hc with hc | hc
      · exact hvalid c hc
      · cases hc
  · have hword : ∀ t : Token, (t.erase (some w.text)).isWord = t.isWord := by
      intro t
      cases t <;> rfl
    rwa [hword, hword]

theorem Word.sep_not_mem (w : Word) (hc : plainChar c = false) : c ∉ w.text := by
  intro hmem
  rw [plain_iff.mp w.isPlain c hmem] at hc
  cases hc

theorem Word.replaceAll_sep (w : Word) (hc : plainChar c = false) (x : Str) :
    replaceAll w.text [] (c :: x) = c :: replaceAll w.text [] x := by
  have h : replaceAll w.text [] ([] ++ c :: x) = _ := replaceAll_append_cons w.ne_nil (w.sep_not_mem hc) [] x
  rwa [List.nil_append, replaceAll_nil, List.nil_append] at h

/-- An erasure in a text is one in each word. -/
theorem replaceAll_textOf (hs : Spaced ts) (w : Word) :
    replaceAll w.text [] (textOf ts) = textOf (ts.map (Token.erase (some w.text))) := by
  induction ts with
  | nil => rfl
  | cons t ts ih =>
    have hrest := ih hs.tail
    cases t with
    | sep c =>
      rw [textOf_cons, Token.text, List.singleton_append, w.replaceAll_sep (hs.valid (.sep c) List.mem_cons_self), hrest]
      rfl
    | word u =>
      rw [List.map_cons, textOf_cons, textOf_cons, Token.text, Token.erase, Token.text]
      cases ts with
      | nil =>
        rw [List.map_nil, show textOf [] = [] from rfl, List.append_nil, List.append_nil]
        rfl
      | cons t ts =>
        have hhead := hs.head t rfl
        cases t with
        | word v => cases hhead
        | sep c =>
          have hc : plainChar c = false := hs.valid (.sep c) (List.mem_cons_of_mem _ List.mem_cons_self)
          rw [textOf_cons, Token.text, List.singleton_append] at hrest ⊢
          rw [replaceAll_append_cons w.ne_nil (w.sep_not_mem hc), ← w.replaceAll_sep hc, hrest]
          rfl

/-! ## The paths of a command -/

def headWord : List Token → Option Str
  | .word w :: _ => some w
  | _ => none

/-- The word behind the first sign `c`. -/
def pathAfter (c : UInt8) : List Token → Option Str
  | [] => none
  | .word _ :: ts => pathAfter c ts
  | .sep d :: ts => if d = c then headWord ts else pathAfter c ts

theorem pathAfter_of_absent (h : .sep c ∉ ts) : pathAfter c ts = none := by
  induction ts with
  | nil => rfl
  | cons t ts ih =>
    have hrest := ih fun hmem => h (List.mem_cons_of_mem t hmem)
    cases t with
    | word u => exact hrest
    | sep d =>
      have hne : d ≠ c := by
        rintro rfl
        exact h List.mem_cons_self
      rw [pathAfter, if_neg hne, hrest]

theorem pathAfter_append (h : .sep c ∉ A) (w : Str) (B : List Token) :
    pathAfter c (A ++ .sep c :: .word w :: B) = some w := by
  induction A with
  | nil =>
    rw [List.nil_append, pathAfter, if_pos rfl]
    rfl
  | cons t A ih =>
    have hrest := ih fun hmem => h (List.mem_cons_of_mem t hmem)
    cases t with
    | word u => exact hrest
    | sep d =>
      have hne : d ≠ c := by
        rintro rfl
        exact h List.mem_cons_self
      rw [List.cons_append, pathAfter, if_neg hne, hrest]

/-- The tokens of a command with redirects: each sign has a word before it, and the word behind it
    occurs in no other word. -/
def Regular (ts : List Token) : Prop :=
  ∀ A c B, ts = A ++ .sep c :: B → c = 60 ∨ c = 62 → (∃ u, .word u ∈ A) ∧
    ∃ w B', B = .word w :: B' ∧ ∀ u, .word u ∈ A ∨ .word u ∈ B' → ¬ w <:+: u

/-- The first sign `c`. -/
theorem Regular.first (hreg : Regular ts) (hc : c = 60 ∨ c = 62) (hmem : .sep c ∈ ts) :
    ∃ A w B, ts = A ++ .sep c :: .word w :: B ∧ .sep c ∉ A ∧ (∃ u, .word u ∈ A) ∧
      (∀ u, .word u ∈ A ∨ .word u ∈ B → ¬ w <:+: u) ∧ pathAfter c ts = some w := by
  obtain ⟨A, B, hts, hfirst⟩ := List.eq_append_cons_of_mem hmem
  obtain ⟨hword, w, B', rfl, hother⟩ := hreg A c B hts hc
  exact ⟨A, w, B', hts, hfirst, hword, hother, by rw [hts, pathAfter_append hfirst]⟩

/-- No path stands before the first sign. -/
theorem Regular.not_before (hreg : Regular (A ++ B)) (hc : c = 60 ∨ c = 62) (hA : .sep c ∉ A) (hu : .word u ∈ A) :
    ∀ w ∈ pathAfter c (A ++ B), ¬ w <:+: u := by
  intro w hw
  by_cases hmem : .sep c ∈ A ++ B
  · obtain ⟨A', w', B', hts, -, -, hother, hpath⟩ := hreg.first hc hmem
    rw [hpath, Option.mem_some_iff] at hw
    rw [← hw]
    refine hother u (.inl ?_)
    rcases List.append_eq_append_iff.mp hts with ⟨as, rfl, -⟩ | ⟨as, rfl, heq⟩
    · exact List.mem_append_left as hu
    · cases as with
      | nil => rwa [List.append_nil] at hu
      | cons t as =>
        rw [(List.cons.inj heq).1] at hA
        simp at hA
  · rw [pathAfter_of_absent hmem] at hw
    cases hw

/-- A path is all that its erasure takes from the words of the command. -/
theorem Regular.erase_word (hreg : Regular ts) (hc : c = 60 ∨ c = 62) (hu : .word u ∈ ts) :
    erasePath (pathAfter c ts) u = if pathAfter c ts = some u then [] else u := by
  by_cases hmem : .sep c ∈ ts
  · obtain ⟨A, w, B, hts, -, -, hother, hpath⟩ := hreg.first hc hmem
    rw [hpath]
    by_cases hwu : w = u
    · rw [if_pos (by rw [hwu]), hwu]
      cases u with
      | nil => rfl
      | cons d u => exact replaceAll_self (by simp) []
    · rw [if_neg (by simpa using hwu)]
      refine erasePath_of_absent (hother u ?_)
      rw [hts, List.mem_append, List.mem_cons, List.mem_cons] at hu
      rcases hu with hu | hu | hu | hu
      · exact .inl hu
      · cases hu
      · cases hu
        exact absurd rfl hwu
      · exact .inr hu
  · rw [pathAfter_of_absent hmem, if_neg (by simp)]
    rfl

/-! ## p_command_link on a command -/

theorem textOf_ne_nil {t : Token} (ht : t ∈ ts) (hne : t.text ≠ []) : textOf ts ≠ [] := by
  intro hnil
  exact hne (List.flatMap_eq_nil_iff.mp hnil t ht)

theorem Spaced.sep_mem (hs : Spaced ts) (hc : plainChar c = false) : c ∈ textOf ts ↔ .sep c ∈ ts := by
  rw [textOf, List.mem_flatMap]
  constructor
  · intro h
    obtain ⟨t, ht, hmem⟩ := h
    have hvalid := hs.valid t ht
    cases t with
    | sep d =>
      rw [List.mem_singleton.mp hmem]
      exact ht
    | word u =>
      rw [plain_iff.mp hvalid c hmem] at hc
      cases hc
  · intro h
    exact ⟨.sep c, h, List.mem_singleton_self c⟩

theorem eraseRedirect_none (hs : Spaced ts) (hc : c ∈ specialChars) (hno : .sep c ∉ ts) :
    eraseRedirect [c] (textOf ts) = some (none, textOf ts) := by
  refine eraseRedirect_of_absent fun hin => hno ?_
  exact (hs.sep_mem (plainChar_special hc)).mp ((List.singleton_infix_iff c _).mp hin)

theorem blank_textOf {G : List Token} (hG : G.filter Token.isLexeme = []) : Blank (textOf G) := by
  intro c hc
  obtain ⟨t, ht, hmem⟩ := List.mem_flatMap.mp hc
  have hblank := List.filter_eq_nil_iff.mp hG t ht
  cases t with
  | sep d =>
    rw [List.mem_singleton.mp hmem]
    simpa [Token.isLexeme] using hblank
  | word u => exact absurd rfl hblank

theorem eraseRedirect_first {S G S' : List Token} (hs : Spaced (S ++ .sep c :: (G ++ .word w.text :: S')))
    (hc : c ∈ specialChars) (hG : G.filter Token.isLexeme = []) (hne : textOf S ≠ []) (hfirst : .sep c ∉ S) :
    eraseRedirect [c] (textOf (S ++ .sep c :: (G ++ .word w.text :: S'))) = some (some w.text,
      textOf ((S ++ .sep c :: (G ++ .word w.text :: S')).map (Token.erase (some w.text)))) := by
  obtain ⟨hS, hrest⟩ := hs.append
  have hword := hrest.tail.append.2
  have htext : textOf (S ++ .sep c :: (G ++ .word w.text :: S')) =
      textOf S ++ (c :: (textOf G ++ (w.text ++ textOf S'))) := by
    rw [textOf_append, textOf_cons, textOf_append, textOf_cons]
    rfl
  have hhead : ∀ d ∈ (textOf S').head?, d ∈ whitespaceChars ∨ d ∈ specialChars := by
    intro d hd
    cases S' with
    | nil => cases hd
    | cons t S' =>
      have ht := hword.head t rfl
      cases t with
      | word u => cases ht
      | sep e =>
        have hvalid : plainChar e = false := hword.tail.valid (.sep e) List.mem_cons_self
        rw [textOf_cons, Token.text, List.singleton_append, List.head?_cons, Option.mem_some_iff] at hd
        rw [← hd]
        simpa [plainChar, or_iff_not_imp_left] using hvalid
  have hpath := pathOf_sign (w := w) hne (fun h => hfirst ((hS.sep_mem (plainChar_special hc)).mp h)) hc
    (blank_textOf hG) hhead
  rw [← htext] at hpath
  have hin : [c] <:+: textOf (S ++ .sep c :: (G ++ .word w.text :: S')) := by
    rw [htext, List.singleton_infix_iff]
    simp
  rw [eraseRedirect, if_pos hin, hpath, Option.map_some, replaceAll_textOf hs]

theorem filter_eq_append_cons {α : Type*} {f : α → Bool} {l A B : List α} {a : α} (h : l.filter f = A ++ a :: B) :
    ∃ l₁ l₂, l = l₁ ++ a :: l₂ ∧ l₁.filter f = A ∧ l₂.filter f = B := by
  obtain ⟨l₁, l₂, rfl, hA, h⟩ := List.filter_eq_append_iff.mp h
  obtain ⟨l₃, l₄, rfl, hnot, -, hB⟩ := List.filter_eq_cons_iff.mp h
  refine ⟨l₁ ++ l₃, l₄, by simp, ?_, hB⟩
  rw [List.filter_append, hA, List.filter_eq_nil_iff.mpr hnot, List.append_nil]

theorem word_mem_filter : .word u ∈ ts.filter Token.isLexeme ↔ .word u ∈ ts := by
  rw [List.mem_filter]
  exact and_iff_left rfl

theorem sep_mem_filter (hc : c ∈ specialChars) : .sep c ∈ ts.filter Token.isLexeme ↔ .sep c ∈ ts := by
  rw [List.mem_filter]
  exact and_iff_left (decide_eq_true fun h => disjoint_chars c h hc)

/-- Where the first redirect `c` is in the text. -/
theorem Regular.locate (hreg : Regular (lex text)) (hz : 0 ∉ text) (hc : c = 60 ∨ c = 62) (hmem : .sep c ∈ scan text) :
    ∃ (w : Word) (S G S' : List Token), scan text = S ++ .sep c :: (G ++ .word w.text :: S') ∧
      G.filter Token.isLexeme = [] ∧ .sep c ∉ S ∧ (∃ u, .word u ∈ S) ∧ pathAfter c (lex text) = some w.text := by
  have hspecial : c ∈ specialChars := by rcases hc with rfl | rfl <;> decide
  obtain ⟨A, w, B, hlex, hfirst, ⟨u, hu⟩, -, hpath⟩ := hreg.first hc ((sep_mem_filter hspecial).mpr hmem)
  obtain ⟨S, R, hscan, rfl, hR⟩ := filter_eq_append_cons hlex
  obtain ⟨G, S', rfl, hG, -⟩ := filter_eq_append_cons (A := []) hR
  have hmemw : .word w ∈ scan text := by rw [hscan]; simp
  have htext : w <:+: text := by
    have h := List.append_of_mem hmemw
    obtain ⟨X, Y, hXY⟩ := h
    rw [← textOf_scan text, hXY, textOf_append, textOf_cons]
    exact ⟨textOf X, textOf Y, by simp [Token.text]⟩
  refine ⟨⟨w, scan_ne_nil hmemw, (scan_spaced text).valid _ hmemw, fun h0 => hz (htext.subset h0)⟩, S, G, S', hscan, hG,
    fun h => hfirst ((sep_mem_filter hspecial).mpr h), ⟨u, word_mem_filter.mp hu⟩, hpath⟩

/-- What is left of a token of the command. -/
def strip (ts : List Token) (t : Token) : Token := (t.erase (pathAfter 60 ts)).erase (pathAfter 62 ts)

/-- A pair in a list, and another one that begins with something else. -/
theorem mem_of_append_eq {α : Type*} {A A' B B' : List α} {a b x y : α} (h : A ++ a :: x :: B = A' ++ b :: y :: B')
    (hab : a ≠ b) (hay : a ≠ y) : y ∈ A ∨ y ∈ B := by
  rcases List.append_eq_append_iff.mp h with ⟨as, -, heq⟩ | ⟨as, hA, heq⟩
  · match as, heq with
    | [], heq => exact absurd (List.cons.inj heq).1 hab
    | [_], heq =>
      right
      rw [(List.cons.inj (List.cons.inj heq).2).2]
      simp
    | _ :: _ :: as, heq =>
      right
      rw [(List.cons.inj (List.cons.inj heq).2).2]
      simp
  · match as, heq with
    | [], heq => exact absurd (List.cons.inj heq).1.symm hab
    | [_], heq => exact absurd (List.cons.inj (List.cons.inj heq).2).1.symm hay
    | _ :: y' :: as, heq =>
      left
      rw [hA, (List.cons.inj (List.cons.inj heq).2).1]
      simp

theorem Regular.paths_ne (hreg : Regular ts) {f g : Str} (hin : pathAfter 60 ts = some f)
    (hout : pathAfter 62 ts = some g) : ¬ f <:+: g := by
  have hmem : ∀ {c : UInt8} {w : Str}, pathAfter c ts = some w → .sep c ∈ ts := by
    intro c w hpath
    by_contra hno
    rw [pathAfter_of_absent hno] at hpath
    cases hpath
  obtain ⟨A, f', B, hts, -, -, hother, hf⟩ := hreg.first (.inl rfl) (hmem hin)
  obtain ⟨A', g', B', hts', -, -, -, hg⟩ := hreg.first (.inr rfl) (hmem hout)
  rw [hin, Option.some.injEq] at hf
  rw [hout, Option.some.injEq] at hg
  rw [hf, hg]
  have hpos := mem_of_append_eq (hts.symm.trans hts') (by simp) (by simp)
  exact hother g' hpos

/-- The erasure of the input path leaves something in front of the output redirect. -/
theorem Regular.front_ne_nil (hreg : Regular (lex text)) {S R : List Token} (hscan : scan text = S ++ .sep 62 :: R)
    (hu : .word u ∈ S) : textOf (S.map (Token.erase (pathAfter 60 (lex text)))) ≠ [] := by
  have hne : u ≠ [] := scan_ne_nil (s := text) (by rw [hscan]; exact List.mem_append_left _ hu)
  by_cases hsign : .sep 60 ∈ S
  · exact textOf_ne_nil (List.mem_map_of_mem hsign) (List.cons_ne_nil 60 [])
  have hlex : lex text = S.filter Token.isLexeme ++ .sep 62 :: R.filter Token.isLexeme := by
    rw [lex, hscan, List.filter_append, filter_sep (by decide)]
  have hkeep : erasePath (pathAfter 60 (lex text)) u = u := by
    cases hpath : pathAfter 60 (lex text) with
    | none => rfl
    | some w =>
      rw [hlex] at hreg hpath
      exact erasePath_of_absent (hreg.not_before (.inl rfl) (fun h => hsign ((sep_mem_filter (by decide)).mp h))
        (word_mem_filter.mpr hu) w hpath)
  refine textOf_ne_nil (List.mem_map_of_mem hu) ?_
  rw [Token.erase, hkeep]
  exact hne

theorem Regular.erase_in (hreg : Regular (lex text)) (hz : 0 ∉ text) :
    eraseRedirect redIn text = some (pathAfter 60 (lex text),
      textOf ((scan text).map (Token.erase (pathAfter 60 (lex text))))) ∧
    Spaced ((scan text).map (Token.erase (pathAfter 60 (lex text)))) := by
  have hs := scan_spaced text
  by_cases hmem : .sep 60 ∈ scan text
  · obtain ⟨w, S, G, S', hscan, hG, hfirst, ⟨u, hu⟩, hpath⟩ := hreg.locate hz (.inl rfl) hmem
    have hne : u ≠ [] := scan_ne_nil (s := text) (by rw [hscan]; exact List.mem_append_left _ hu)
    have herase := eraseRedirect_first (hscan ▸ hs) (by decide) hG (textOf_ne_nil hu hne) hfirst
    rw [← hscan, textOf_scan] at herase
    rw [hpath]
    exact ⟨herase, hs.map_erase w⟩
  · have hno : .sep 60 ∉ lex text := fun h => hmem ((sep_mem_filter (by decide)).mp h)
    have herase := eraseRedirect_none hs (by decide) hmem
    rw [textOf_scan] at herase
    rw [pathAfter_of_absent hno, map_erase_none, textOf_scan]
    exact ⟨herase, hs⟩

/-- The second erasure works on what the first has left. -/
theorem Regular.erase_out (hreg : Regular (lex text)) (hz : 0 ∉ text) :
    eraseRedirect redOut (textOf ((scan text).map (Token.erase (pathAfter 60 (lex text))))) =
      some (pathAfter 62 (lex text), textOf ((scan text).map (strip (lex text)))) := by
  have hs := (hreg.erase_in hz).2
  have hstrip : (scan text).map (strip (lex text)) =
      ((scan text).map (Token.erase (pathAfter 60 (lex text)))).map (Token.erase (pathAfter 62 (lex text))) := by
    rw [List.map_map]
    rfl
  rw [hstrip]
  by_cases hmem : .sep 62 ∈ scan text
  · obtain ⟨w, S, G, S', hscan, hG, hfirst, ⟨u, hu⟩, hpath⟩ := hreg.locate hz (.inr rfl) hmem
    have hfront := hreg.front_ne_nil hscan hu
    have hkeep : erasePath (pathAfter 60 (lex text)) w.text = w.text := by
      cases hf : pathAfter 60 (lex text) with
      | none => rfl
      | some f => exact erasePath_of_absent (hreg.paths_ne hf hpath)
    have hsplit : (scan text).map (Token.erase (pathAfter 60 (lex text))) =
        S.map (Token.erase (pathAfter 60 (lex text))) ++ .sep 62 ::
          (G.map (Token.erase (pathAfter 60 (lex text))) ++ .word w.text ::
            S'.map (Token.erase (pathAfter 60 (lex text)))) := by
      rw [hscan, List.map_append, List.map_cons, List.map_append, List.map_cons, Token.erase, Token.erase, hkeep]
    rw [hpath, hsplit]
    exact eraseRedirect_first (hsplit ▸ hs) (by decide) (map_erase_isLexeme hG) hfront
      fun h => hfirst (sep_mem_map_erase.mp h)
  · have hno : .sep 62 ∉ lex text := fun h => hmem ((sep_mem_filter (by decide)).mp h)
    rw [pathAfter_of_absent hno, map_erase_none]
    exact eraseRedirect_none hs (by decide) fun h => hmem (sep_mem_map_erase.mp h)

/-- What p_command_link makes of a regular command. -/
theorem link_of_lex (hreg : Regular (lex text)) (hz : 0 ∉ text) :
    link text = some
      { inPath := pathAfter 60 (lex text), outPath := pathAfter 62 (lex text),
        args := argsOf (textOf ((scan text).map (strip (lex text)))) } := by
  rw [link, (hreg.erase_in hz).1, Option.bind_eq_bind, Option.bind_some]
  dsimp only
  rw [hreg.erase_out hz]
  rfl

theorem Regular.strip_word (hreg : Regular ts) (hu : .word u ∈ ts) : strip ts (.word u) =
    .word (if pathAfter 60 ts = some u ∨ pathAfter 62 ts = some u then [] else u) := by
  have hempty : ∀ o : Option Str, erasePath o [] = [] := by
    intro o
    cases o <;> rfl
  rw [strip, Token.erase, hreg.erase_word (.inl rfl) hu]
  by_cases hin : pathAfter 60 ts = some u
  · rw [if_pos hin, if_pos (.inl hin), Token.erase, hempty]
  · rw [if_neg hin, Token.erase, hreg.erase_word (.inr rfl) hu]
    simp only [hin, false_or]

theorem Regular.strip_keep (hreg : Regular ts) (hu : .word u ∈ ts) (hin : pathAfter 60 ts ≠ some u)
    (hout : pathAfter 62 ts ≠ some u) : strip ts (.word u) = .word u := by
  rw [hreg.strip_word hu, if_neg (by simp [hin, hout])]

end EC440.Shell
