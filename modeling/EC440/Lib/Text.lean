/-
  Texts as lists of characters: the tokens between delimiters, and textual replacement.

  `toks delim` are the maximal runs without a delimiter, in order, as repeated calls of
  strtok find them. `replaceAll old new` replaces the occurrences of `old` found from left to
  right; the next one is looked for behind the last. A delimiter that is not in `old` cuts
  the work in two (`replaceAll_append_cons`).
-/
import Mathlib.Data.List.Basic
import Mathlib.Data.List.Infix

namespace EC440.Lib

variable {α : Type*} [DecidableEq α] {delim old new ds w s u v : List α} {c d : α}

/-! ## Pieces -/

/-- Induction along the pieces, from the front. -/
theorem splitOn_induction (d : α) {P : List α → Prop} (hlast : ∀ u, d ∉ u → P u)
    (hcons : ∀ u v, d ∉ u → P v → P (u ++ d :: v)) (text : List α) : P text := by
  induction hn : text.length using Nat.strong_induction_on generalizing text with
  | _ n ih =>
    by_cases hd : d ∈ text
    · obtain ⟨u, v, rfl, hu⟩ := List.eq_append_cons_of_mem hd
      rw [List.length_append, List.length_cons] at hn
      exact hcons u v hu (ih v.length (by omega) v rfl)
    · exact hlast text hd

theorem not_mem_of_mem_splitOn {text : List α} (h : w ∈ text.splitOn d) : d ∉ w := by
  induction text using splitOn_induction d with
  | hlast u hu =>
    rw [List.splitOn_eq_singleton hu, List.mem_singleton] at h
    rwa [h]
  | hcons u v hu ih =>
    rw [List.splitOn_append_cons_self_of_not_mem hu, List.mem_cons] at h
    rcases h with rfl | h
    · exact hu
    · exact ih h

theorem infix_of_mem_splitOn {text : List α} (h : w ∈ text.splitOn d) : w <:+: text := by
  induction text using splitOn_induction d with
  | hlast u hu =>
    rw [List.splitOn_eq_singleton hu, List.mem_singleton] at h
    rw [h]
  | hcons u v hu ih =>
    rw [List.splitOn_append_cons_self_of_not_mem hu, List.mem_cons] at h
    rcases h with rfl | h
    · exact (List.prefix_append w _).isInfix
    · exact (ih h).trans ⟨u ++ [d], [], by simp⟩

/-! ## Tokens -/

def toks (delim text : List α) : List (List α) := (text.splitOnP (· ∈ delim)).filter (· ≠ [])

theorem toks_nil (delim : List α) : toks delim [] = [] := by
  simp [toks]

theorem toks_append_cons (hd : d ∈ delim) (u v : List α) :
    toks delim (u ++ d :: v) = toks delim u ++ toks delim v := by
  rw [toks, List.splitOnP_append_cons u v (by simpa using hd), List.filter_append]
  rfl

theorem toks_word (hne : w ≠ []) (hw : ∀ c ∈ w, c ∉ delim) : toks delim w = [w] := by
  rw [toks, List.splitOnP_eq_singleton (by simpa using hw)]
  simp [hne]

theorem toks_cons (hd : d ∈ delim) (v : List α) : toks delim (d :: v) = toks delim v := by
  have h := toks_append_cons hd [] v
  rwa [toks_nil, List.nil_append, List.nil_append] at h

theorem toks_delims_append (hds : ∀ c ∈ ds, c ∈ delim) (v : List α) : toks delim (ds ++ v) = toks delim v := by
  induction ds with
  | nil => rfl
  | cons d ds ih =>
    rw [List.cons_append, toks_cons (hds d List.mem_cons_self)]
    exact ih fun c hc => hds c (List.mem_cons_of_mem d hc)

theorem toks_delims (hds : ∀ c ∈ ds, c ∈ delim) : toks delim ds = [] := by
  have h := toks_delims_append hds []
  rwa [List.append_nil, toks_nil] at h

/-- Delimiters between two texts. -/
theorem toks_gap (hds : ∀ c ∈ ds, c ∈ delim) (hne : ds ≠ []) (u v : List α) :
    toks delim (u ++ (ds ++ v)) = toks delim u ++ toks delim v := by
  obtain ⟨d, ds, rfl⟩ := List.exists_cons_of_ne_nil hne
  rw [List.cons_append, toks_append_cons (hds d List.mem_cons_self),
    toks_delims_append fun c hc => hds c (List.mem_cons_of_mem d hc)]

theorem toks_append_delims (hds : ∀ c ∈ ds, c ∈ delim) (u : List α) : toks delim (u ++ ds) = toks delim u := by
  by_cases hne : ds = []
  · rw [hne, List.append_nil]
  · have h := toks_gap hds hne u []
    rwa [List.append_nil, toks_nil, List.append_nil] at h

/-- A text without a token, with one token at its end, or with a token and a delimiter behind it. -/
theorem toks_cases (delim text : List α) : (∀ c ∈ text, c ∈ delim) ∨
    ∃ ds w, (∀ c ∈ ds, c ∈ delim) ∧ w ≠ [] ∧ (∀ c ∈ w, c ∉ delim) ∧
      (text = ds ++ w ∨ ∃ d v, d ∈ delim ∧ text = ds ++ (w ++ d :: v)) := by
  induction text with
  | nil => exact .inl (by simp)
  | cons c text ih =>
    by_cases hc : c ∈ delim
    · rcases ih with hall | ⟨ds, w, hds, hne, hw, htext⟩
      · exact .inl (by simpa [hc] using hall)
      · refine .inr ⟨c :: ds, w, by simpa [hc] using hds, hne, hw, ?_⟩
        rcases htext with rfl | ⟨d, v, hd, rfl⟩
        · exact .inl rfl
        · exact .inr ⟨d, v, hd, rfl⟩
    · rcases ih with hall | ⟨ds, w, hds, hne, hw, htext⟩
      · refine .inr ⟨[], [c], by simp, by simp, by simpa using hc, ?_⟩
        cases text with
        | nil => exact .inl rfl
        | cons d v => exact .inr ⟨d, v, hall d List.mem_cons_self, rfl⟩
      · -- `c` joins the first token, or is one of its own
        cases ds with
        | nil =>
          refine .inr ⟨[], c :: w, by simp, by simp, by simpa [hc] using hw, ?_⟩
          rcases htext with rfl | ⟨d, v, hd, rfl⟩
          · exact .inl rfl
          · exact .inr ⟨d, v, hd, rfl⟩
        | cons d ds =>
          refine .inr ⟨[], [c], by simp, by simp, by simpa using hc, .inr ⟨d, ?_⟩⟩
          rcases htext with rfl | ⟨d', v, hd, rfl⟩
          · exact ⟨ds ++ w, hds d List.mem_cons_self, rfl⟩
          · exact ⟨ds ++ (w ++ d' :: v), hds d List.mem_cons_self, rfl⟩

/-- Induction along the tokens, from the front. -/
theorem toks_induction (delim : List α) {P : List α → Prop} (hdelims : ∀ ds, (∀ c ∈ ds, c ∈ delim) → P ds)
    (hlast : ∀ ds w, (∀ c ∈ ds, c ∈ delim) → w ≠ [] → (∀ c ∈ w, c ∉ delim) → P (ds ++ w))
    (htoken : ∀ ds w d v, (∀ c ∈ ds, c ∈ delim) → w ≠ [] → (∀ c ∈ w, c ∉ delim) → d ∈ delim → P v →
      P (ds ++ (w ++ d :: v))) (text : List α) : P text := by
  induction hn : text.length using Nat.strong_induction_on generalizing text with
  | _ n ih =>
    rcases toks_cases delim text with hds | ⟨ds, w, hds, hne, hw, htext⟩
    · exact hdelims text hds
    · rcases htext with rfl | ⟨d, v, hd, rfl⟩
      · exact hlast ds w hds hne hw
      · rw [List.length_append, List.length_append, List.length_cons] at hn
        exact htoken ds w d v hds hne hw hd (ih v.length (by omega) v rfl)

theorem toks_last (hds : ∀ c ∈ ds, c ∈ delim) (hne : w ≠ []) (hw : ∀ c ∈ w, c ∉ delim) :
    toks delim (ds ++ w) = [w] := by
  rw [toks_delims_append hds, toks_word hne hw]

theorem toks_token (hds : ∀ c ∈ ds, c ∈ delim) (hne : w ≠ []) (hw : ∀ c ∈ w, c ∉ delim) (hd : d ∈ delim)
    (v : List α) : toks delim (ds ++ (w ++ d :: v)) = w :: toks delim v := by
  rw [toks_delims_append hds, toks_append_cons hd, toks_word hne hw, List.singleton_append]

theorem mem_toks {text : List α} (h : w ∈ toks delim text) : w ≠ [] ∧ w <:+: text ∧ ∀ c ∈ w, c ∉ delim := by
  induction text using toks_induction delim with
  | hdelims ds hds =>
    rw [toks_delims hds] at h
    cases h
  | hlast ds u hds hne hu =>
    rw [toks_last hds hne hu, List.mem_singleton] at h
    rw [h]
    exact ⟨hne, (List.suffix_append ds u).isInfix, hu⟩
  | htoken ds u d v hds hne hu hd ih =>
    rw [toks_token hds hne hu hd, List.mem_cons] at h
    rcases h with rfl | h
    · exact ⟨hne, ⟨ds, d :: v, by simp⟩, hu⟩
    · obtain ⟨hne', hin, hw⟩ := ih h
      exact ⟨hne', hin.trans ⟨ds ++ (u ++ [d]), [], by simp⟩, hw⟩

/-- The tokens, one behind the other. -/
theorem toks_flatten (delim text : List α) : (toks delim text).flatten = text.filter (· ∉ delim) := by
  have hout : ∀ ds : List α, (∀ c ∈ ds, c ∈ delim) → ds.filter (· ∉ delim) = [] := by
    intro ds hds
    exact List.filter_eq_nil_iff.mpr fun c hc => by simpa using hds c hc
  have hkeep : ∀ w : List α, (∀ c ∈ w, c ∉ delim) → w.filter (· ∉ delim) = w := by
    intro w hw
    exact List.filter_eq_self.mpr fun c hc => by simpa using hw c hc
  induction text using toks_induction delim with
  | hdelims ds hds => rw [toks_delims hds, hout ds hds, List.flatten_nil]
  | hlast ds w hds hne hw =>
    rw [toks_last hds hne hw, List.filter_append, hout ds hds, hkeep w hw, List.flatten_singleton, List.nil_append]
  | htoken ds w d v hds hne hw hd ih =>
    rw [toks_token hds hne hw hd, List.flatten_cons, ih, List.filter_append, List.filter_append, hout ds hds, hkeep w hw,
      List.filter_cons_of_neg (by simpa using hd), List.nil_append]

/-- There is a delimiter between two tokens. -/
theorem toks_two_length_le (delim text : List α) : 2 * (toks delim text).length ≤ text.length + 1 := by
  induction text using toks_induction delim with
  | hdelims ds hds =>
    rw [toks_delims hds]
    exact Nat.zero_le _
  | hlast ds w hds hne hw =>
    have hpos := List.length_pos_iff.mpr hne
    rw [toks_last hds hne hw, List.length_singleton, List.length_append]
    omega
  | htoken ds w d v hds hne hw hd ih =>
    have hpos := List.length_pos_iff.mpr hne
    rw [toks_token hds hne hw hd, List.length_cons, List.length_append, List.length_append, List.length_cons]
    omega

omit [DecidableEq α] in
/-- Where a run of characters ends. -/
theorem span_append {f : α → Bool} (hu : ∀ c ∈ u, f c = true) (hv : ∀ c ∈ v.head?, f c = false) :
    (u ++ v).takeWhile f = u ∧ (u ++ v).dropWhile f = v := by
  have hnil : v.takeWhile f = [] ∧ v.dropWhile f = v := by
    cases v with
    | nil => exact ⟨rfl, rfl⟩
    | cons c v => simp [hv c rfl]
  rw [List.takeWhile_append_of_pos hu, List.dropWhile_append_of_pos hu, hnil.1, hnil.2, List.append_nil]
  exact ⟨rfl, rfl⟩

/-- One call of strtok: the token, and what is behind the delimiter that ended it. -/
def tok (delim text : List α) : Option (List α) × List α :=
  let rest := text.dropWhile (· ∈ delim)
  if rest = [] then (none, [])
  else (some (rest.takeWhile (· ∉ delim)), (rest.dropWhile (· ∉ delim)).tail)

section
variable (hds : ∀ c ∈ ds, c ∈ delim)
include hds

theorem tok_delims : tok delim ds = (none, []) := by
  have h := span_append (f := (· ∈ delim)) (u := ds) (v := []) (by simpa using hds) (by simp)
  rw [List.append_nil] at h
  simp only [tok, h.2, if_true]

variable (hne : w ≠ []) (hw : ∀ c ∈ w, c ∉ delim)
include hne hw

theorem skip_delims (v : List α) : (ds ++ (w ++ v)).takeWhile (· ∈ delim) = ds ∧
    (ds ++ (w ++ v)).dropWhile (· ∈ delim) = w ++ v := by
  refine span_append (by simpa using hds) fun c hc => ?_
  rw [List.head?_append_of_ne_nil _ hne] at hc
  exact decide_eq_false (hw c (List.mem_of_mem_head? hc))

theorem tok_fst (v : List α) : (tok delim (ds ++ (w ++ v))).1 = some (w ++ v.takeWhile (· ∉ delim)) := by
  have htake : (w ++ v).takeWhile (· ∉ delim) = w ++ v.takeWhile (· ∉ delim) :=
    List.takeWhile_append_of_pos (by simpa using hw)
  simp only [tok, (skip_delims hds hne hw v).2, List.append_eq_nil_iff, hne, false_and, if_false, htake]

theorem tok_last : tok delim (ds ++ w) = (some w, []) := by
  have hskip := skip_delims hds hne hw []
  have hspan := span_append (f := (· ∉ delim)) (u := w) (v := []) (by simpa using hw) (by simp)
  rw [List.append_nil] at hskip hspan
  simp only [tok, hskip.2, if_neg hne, hspan.1, hspan.2, List.tail_nil]

theorem tok_token (hd : d ∈ delim) (v : List α) : tok delim (ds ++ (w ++ d :: v)) = (some w, v) := by
  have hskip := skip_delims hds hne hw (d :: v)
  have hspan := span_append (f := (· ∉ delim)) (u := w) (v := d :: v) (by simpa using hw) (by simpa using hd)
  simp only [tok, hskip.2, List.append_eq_nil_iff, hne, false_and, if_false, hspan.1, hspan.2, List.tail_cons]

end

/-- The token is a part of the text without delimiters, and what is left is its end. -/
theorem tok_part (delim text : List α) :
    (∀ w, (tok delim text).1 = some w → w ≠ [] ∧ w <:+: text ∧ ∀ c ∈ w, c ∉ delim) ∧
      (tok delim text).2 <:+ text := by
  rcases toks_cases delim text with hds | ⟨ds, w, hds, hne, hw, htext⟩
  · rw [tok_delims hds]
    refine ⟨fun w h => ?_, List.nil_suffix⟩
    cases h
  · rcases htext with rfl | ⟨d, v, hd, rfl⟩
    · rw [tok_last hds hne hw]
      refine ⟨fun w' h => ?_, List.nil_suffix⟩
      obtain rfl := Option.some.inj h
      exact ⟨hne, (List.suffix_append ds _).isInfix, hw⟩
    · rw [tok_token hds hne hw hd]
      refine ⟨fun w' h => ?_, ⟨ds ++ (w ++ [d]), by simp⟩⟩
      obtain rfl := Option.some.inj h
      exact ⟨hne, ⟨ds, d :: v, by simp⟩, hw⟩

/-- The first token, and those of what is left. -/
theorem tok_toks (delim text : List α) :
    (tok delim text).1 = (toks delim text).head? ∧ toks delim (tok delim text).2 = (toks delim text).tail := by
  rcases toks_cases delim text with hds | ⟨ds, w, hds, hne, hw, htext⟩
  · rw [tok_delims hds, toks_delims hds, toks_nil]
    exact ⟨rfl, rfl⟩
  · rcases htext with rfl | ⟨d, v, hd, rfl⟩
    · rw [tok_last hds hne hw, toks_last hds hne hw, toks_nil]
      exact ⟨rfl, rfl⟩
    · rw [tok_token hds hne hw hd, toks_token hds hne hw hd]
      exact ⟨rfl, rfl⟩

theorem tok_eq_none {text : List α} : (tok delim text).1 = none ↔ ∀ c ∈ text, c ∈ delim := by
  constructor
  · intro hnone
    rcases toks_cases delim text with hds | ⟨ds, w, hds, hne, hw, htext⟩
    · exact hds
    · rcases htext with rfl | ⟨d, v, hd, rfl⟩
      · rw [tok_last hds hne hw] at hnone
        cases hnone
      · rw [tok_token hds hne hw hd] at hnone
        cases hnone
  · intro hds
    rw [tok_delims hds]

/-! ## Replacement -/

/-- `skip` characters belong to the last occurrence. -/
def replaceFrom (old new : List α) : Nat → List α → List α
  | _, [] => []
  | skip + 1, _ :: s => replaceFrom old new skip s
  | 0, c :: s =>
      if old <+: c :: s then new ++ replaceFrom old new (old.length - 1) s
      else c :: replaceFrom old new 0 s

def replaceAll (old new s : List α) : List α := replaceFrom old new 0 s

theorem replaceFrom_drop (old new : List α) (n : Nat) (s : List α) :
    replaceFrom old new n s = replaceAll old new (s.drop n) := by
  induction s generalizing n with
  | nil => simp [replaceFrom, replaceAll]
  | cons c s ih =>
    cases n with
    | zero => rfl
    | succ n =>
      rw [replaceFrom, ih, List.drop_succ_cons]

theorem replaceAll_nil (old new : List α) : replaceAll old new [] = [] := rfl

theorem replaceAll_front (hne : old ≠ []) (h : old <+: s) :
    replaceAll old new s = new ++ replaceAll old new (s.drop old.length) := by
  cases s with
  | nil => exact absurd (List.prefix_nil.mp h) hne
  | cons c s =>
    have hlen := List.length_pos_iff.mpr hne
    rw [replaceAll, replaceFrom, if_pos h, replaceFrom_drop]
    obtain ⟨n, hn⟩ : ∃ n, old.length = n + 1 := ⟨old.length - 1, by omega⟩
    rw [hn, List.drop_succ_cons, Nat.add_sub_cancel]

theorem replaceAll_cons (h : ¬ old <+: c :: s) : replaceAll old new (c :: s) = c :: replaceAll old new s := by
  rw [replaceAll, replaceFrom, if_neg h]
  rfl

theorem replaceAll_self (hne : old ≠ []) (new : List α) : replaceAll old new old = new := by
  rw [replaceAll_front hne (List.prefix_refl old), List.drop_length, replaceAll_nil, List.append_nil]

theorem replaceAll_of_absent (h : ¬ old <:+: s) (new : List α) : replaceAll old new s = s := by
  induction s with
  | nil => rfl
  | cons c s ih =>
    rw [replaceAll_cons fun hp => h hp.isInfix, ih fun hi => h (hi.trans (List.suffix_cons c s).isInfix)]

omit [DecidableEq α] in
/-- An occurrence does not reach over a character it does not have. -/
theorem prefix_append_cons (hd : d ∉ old) : old <+: u ++ d :: v ↔ old <+: u := by
  constructor
  · intro h
    have hlen : old.length ≤ u.length := by
      by_contra hlt
      obtain ⟨rest, hrest⟩ := h
      have hget := congrArg (fun l => l[u.length]?) hrest
      simp only [List.getElem?_append_left (by omega : u.length < old.length), List.getElem?_append_right le_rfl,
        Nat.sub_self, List.getElem?_cons_zero] at hget
      exact hd (List.mem_of_getElem? hget)
    exact List.prefix_of_prefix_length_le h (List.prefix_append u (d :: v)) hlen
  · intro h
    exact h.trans (List.prefix_append u (d :: v))

theorem replaceAll_append_cons (hne : old ≠ []) (hd : d ∉ old) (u v : List α) :
    replaceAll old new (u ++ d :: v) = replaceAll old new u ++ d :: replaceAll old new v := by
  induction hn : u.length using Nat.strong_induction_on generalizing u with
  | _ n ih =>
    cases u with
    | nil =>
      have hno : ¬ old <+: d :: v := by
        intro h
        exact hne (List.prefix_nil.mp ((prefix_append_cons (u := []) hd).mp h))
      rw [List.nil_append, replaceAll_cons hno]
      rfl
    | cons c u =>
      by_cases h : old <+: c :: u
      · have hlen := h.length_le
        have hpos := List.length_pos_iff.mpr hne
        rw [replaceAll_front hne ((prefix_append_cons hd).mpr h), replaceAll_front hne h,
          List.drop_append_of_le_length hlen, ih _ ?_ ((c :: u).drop old.length) rfl, List.append_assoc]
        rw [← hn, List.length_drop]
        omega
      · have h' : ¬ old <+: c :: (u ++ d :: v) := fun hp => h ((prefix_append_cons hd).mp hp)
        rw [List.cons_append, replaceAll_cons h', replaceAll_cons h, List.cons_append,
          ih u.length (by rw [← hn]; exact Nat.lt_succ_self _) u rfl]

/-- Delimiters stay in their places. -/
theorem replaceAll_delims (hne : old ≠ []) (hds : ∀ c ∈ ds, c ∉ old) (hnil : ds ≠ []) (u v : List α) :
    replaceAll old new (u ++ (ds ++ v)) = replaceAll old new u ++ (ds ++ replaceAll old new v) := by
  induction ds generalizing u with
  | nil => exact absurd rfl hnil
  | cons d ds ih =>
    have hd := hds d List.mem_cons_self
    rw [List.cons_append, replaceAll_append_cons hne hd]
    by_cases hrest : ds = []
    · rw [hrest]
      rfl
    · have h := ih (fun c hc => hds c (List.mem_cons_of_mem d hc)) hrest []
      rw [List.nil_append, replaceAll_nil, List.nil_append] at h
      rw [h]
      rfl

/-- How many occurrences are replaced. -/
def countFrom (old : List α) : Nat → List α → Nat
  | _, [] => 0
  | skip + 1, _ :: s => countFrom old skip s
  | 0, c :: s => if old <+: c :: s then countFrom old (old.length - 1) s + 1 else countFrom old 0 s

def countAll (old s : List α) : Nat := countFrom old 0 s

theorem countFrom_drop (old : List α) (n : Nat) (s : List α) : countFrom old n s = countAll old (s.drop n) := by
  induction s generalizing n with
  | nil => simp [countFrom, countAll]
  | cons c s ih =>
    cases n with
    | zero => rfl
    | succ n =>
      rw [countFrom, ih, List.drop_succ_cons]

theorem countAll_front (hne : old ≠ []) (h : old <+: s) :
    countAll old s = countAll old (s.drop old.length) + 1 := by
  cases s with
  | nil => exact absurd (List.prefix_nil.mp h) hne
  | cons c s =>
    have hlen := List.length_pos_iff.mpr hne
    rw [countAll, countFrom, if_pos h, countFrom_drop]
    obtain ⟨n, hn⟩ : ∃ n, old.length = n + 1 := ⟨old.length - 1, by omega⟩
    rw [hn, List.drop_succ_cons, Nat.add_sub_cancel]

theorem countAll_cons (h : ¬ old <+: c :: s) : countAll old (c :: s) = countAll old s := by
  rw [countAll, countFrom, if_neg h]
  rfl

/-- Induction along the work: an occurrence at the front, or a character that is kept. -/
theorem replace_induction (hne : old ≠ []) {P : List α → Prop} (hnil : P [])
    (hocc : ∀ s, old <+: s → P (s.drop old.length) → P s)
    (hkeep : ∀ c s, ¬ old <+: c :: s → P s → P (c :: s)) (s : List α) : P s := by
  induction hn : s.length using Nat.strong_induction_on generalizing s with
  | _ n ih =>
    cases s with
    | nil => exact hnil
    | cons c s =>
      by_cases h : old <+: c :: s
      · refine hocc _ h (ih _ ?_ _ rfl)
        have hpos := List.length_pos_iff.mpr hne
        rw [← hn, List.length_drop]
        have := h.length_le
        omega
      · exact hkeep c s h (ih s.length (by rw [← hn]; exact Nat.lt_succ_self _) s rfl)

theorem mem_replaceAll (hne : old ≠ []) (h : c ∈ replaceAll old new s) : c ∈ s ∨ c ∈ new := by
  induction s using replace_induction hne with
  | hnil => cases h
  | hocc s hp ih =>
    rw [replaceAll_front hne hp, List.mem_append] at h
    rcases h with h | h
    · exact .inr h
    · exact (ih h).imp_left List.mem_of_mem_drop
  | hkeep d s hp ih =>
    rw [replaceAll_cons hp, List.mem_cons] at h
    rcases h with h | h
    · exact .inl (h ▸ List.mem_cons_self)
    · exact (ih h).imp_left (List.mem_cons_of_mem d)

/-- Every occurrence is taken out, and nothing else. -/
theorem replaceAll_countP (hne : old ≠ []) (new s : List α) (f : α → Bool) :
    (replaceAll old new s).countP f + countAll old s * old.countP f = s.countP f + countAll old s * new.countP f := by
  induction s using replace_induction hne with
  | hnil => simp [replaceAll_nil, countAll, countFrom]
  | hocc s h ih =>
    obtain ⟨v, rfl⟩ := h
    rw [replaceAll_front hne (List.prefix_append old v), countAll_front hne (List.prefix_append old v),
      List.countP_append, List.countP_append]
    rw [List.drop_left] at ih ⊢
    rw [Nat.add_mul, Nat.add_mul]
    omega
  | hkeep c s h ih =>
    rw [replaceAll_cons h, countAll_cons h, List.countP_cons, List.countP_cons]
    omega

theorem replaceAll_length (hne : old ≠ []) (new s : List α) :
    (replaceAll old new s).length + countAll old s * old.length = s.length + countAll old s * new.length := by
  have h := replaceAll_countP hne new s fun _ => true
  rwa [List.countP_true] at h

theorem countAll_pos (hne : old ≠ []) (h : old <:+: s) : 0 < countAll old s := by
  induction s using replace_induction hne with
  | hnil => exact absurd (List.infix_nil.mp h) hne
  | hocc s hp ih =>
    rw [countAll_front hne hp]
    exact Nat.succ_pos _
  | hkeep c s hp ih =>
    rw [countAll_cons hp]
    exact ih ((List.infix_cons_iff.mp h).resolve_left hp)

theorem replaceAll_length_le (hne : old ≠ []) (s : List α) : (replaceAll old [] s).length ≤ s.length := by
  have h := replaceAll_length hne [] s
  rw [List.length_nil, Nat.mul_zero] at h
  omega

theorem replaceAll_length_lt (hne : old ≠ []) (h : old <:+: s) : (replaceAll old [] s).length < s.length := by
  have hlen := replaceAll_length hne [] s
  have hpos := Nat.mul_pos (countAll_pos hne h) (List.length_pos_iff.mpr hne)
  rw [List.length_nil, Nat.mul_zero] at hlen
  omega

end EC440.Lib
