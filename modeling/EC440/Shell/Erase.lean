/-
  deleteWords, and the search for the path of a redirect, as functions of texts.

  deleteWords writes exactly the bytes it has allocated: the pass that counts and the pass that
  copies find the same occurrences. A path is found by four calls of strtok on a copy of the
  line, the second and possibly later ones from where the last call stopped (`pathOf`).
-/
import EC440.Shell.Parser

namespace EC440.Shell

open EC440.Lib

variable {h h' : Heap} {m : Mem} {s oldWord cline p : Ptr} {old new text rest done red : Str} {fuel n : Nat} {c : Nat}

/-! ## deleteWords -/

theorem int_eq {z : Int} (hz : z = (n : Int)) (h : n < 2 ^ 31) : int z = some (n : Int) := by
  rw [int, hz, if_pos]
  omega

theorem int_none {z : Int} (hz : z = (n : Int)) (h : 2 ^ 31 ≤ n) : int z = none := by
  rw [int, hz, if_neg]
  omega

section
variable {ch : UInt8} {r : Str} {L i i' i'' k k' : Int} (hl : h.load (s + i.toNat) = some ch) (hch : ch ≠ 0)
  (hr : h.str (s + i.toNat) = some r) (ho : h.str oldWord = some old)
include hl hch hr ho

theorem countWords_found (hp : old <+: r) (h1 : int (i + (L - 1)) = some i') (h2 : int (i' + 1) = some i'')
    (h3 : int (k + 1) = some k') :
    countWords h s oldWord L (fuel + 1) i k = countWords h s oldWord L fuel i'' k' := by
  have hfound : strstr r old = some 0 := strstr_zero.mpr hp
  simp only [countWords, hl, hr, ho, Option.bind_eq_bind, Option.bind_some, if_neg hch, hfound, if_true, h1, h2, h3]

theorem countWords_next (hp : ¬ old <+: r) (h1 : int (i + 1) = some i') :
    countWords h s oldWord L (fuel + 1) i k = countWords h s oldWord L fuel i' k := by
  have hnot : ¬ strstr r old = some 0 := fun h => hp (strstr_zero.mp h)
  simp only [countWords, hl, hr, ho, Option.bind_eq_bind, Option.bind_some, if_neg hch, if_neg hnot, h1]

end

/-- The counting loop, `done` characters of the text behind it. -/
theorem countWords_eq (hs : h.str s = some text) (ho : h.str oldWord = some old) (hne : old ≠ [])
    (hlen : text.length < 2 ^ 31) (rest : Str) :
    ∀ (done : Str) (c fuel : Nat), text = done ++ rest → rest.length < fuel → c ≤ done.length →
      countWords h s oldWord old.length fuel done.length c =
        some ((text.length : Int), ((c + countAll old rest : Nat) : Int)) := by
  have hpos := List.length_pos_iff.mpr hne
  induction rest using replace_induction hne with
  | hnil =>
    intro done c fuel htext hfuel hc
    obtain ⟨fuel, rfl⟩ : ∃ f, fuel = f + 1 := ⟨fuel - 1, by omega⟩
    rw [htext] at hs
    have hl := str_nil.mp (str_append hs)
    simp [countWords, hl, htext, countAll, countFrom]
  | hocc rest hp ih =>
    intro done c fuel htext hfuel hc
    obtain ⟨rest', rfl⟩ := hp
    obtain ⟨fuel, rfl⟩ : ∃ f, fuel = f + 1 := ⟨fuel - 1, by omega⟩
    have htl := congrArg List.length htext
    simp only [List.length_append] at htl hfuel
    rw [htext] at hs
    have hr := str_append hs
    obtain ⟨ch, old', hold⟩ := List.exists_cons_of_ne_nil hne
    have hr' := hr
    rw [hold, List.cons_append] at hr'
    obtain ⟨hl, hch, -⟩ := str_cons.mp hr'
    have h1 : int ((done.length : Int) + ((old.length : Int) - 1)) =
        some ((done.length + (old.length - 1) : Nat) : Int) := int_eq (by omega) (by omega)
    have h2 : int (((done.length + (old.length - 1) : Nat) : Int) + 1) = some ((done ++ old).length : Int) :=
      int_eq (by rw [List.length_append]; omega) (by rw [List.length_append]; omega)
    have h3 : int ((c : Int) + 1) = some ((c + 1 : Nat) : Int) := int_eq (by omega) (by omega)
    have hih := ih (done ++ old) (c + 1) fuel (by rw [htext, List.drop_left, List.append_assoc])
      (by rw [List.drop_left]; omega) (by rw [List.length_append]; omega)
    rw [countAll_front hne (List.prefix_append old rest')]
    rw [countWords_found hl hch hr ho (List.prefix_append old rest') h1 h2 h3, hih, Nat.add_assoc, Nat.add_comm 1]
  | hkeep ch rest hp ih =>
    intro done c fuel htext hfuel hc
    obtain ⟨fuel, rfl⟩ : ∃ f, fuel = f + 1 := ⟨fuel - 1, by omega⟩
    have htl := congrArg List.length htext
    simp only [List.length_append, List.length_cons] at htl hfuel
    rw [htext] at hs
    have hr := str_append hs
    obtain ⟨hl, hch, -⟩ := str_cons.mp hr
    have h1 : int ((done.length : Int) + 1) = some ((done ++ [ch]).length : Int) :=
      int_eq (by simp) (by rw [List.length_append, List.length_singleton]; omega)
    have hih := ih (done ++ [ch]) c fuel (by rw [htext]; simp) (by omega)
      (by rw [List.length_append]; omega)
    rw [countAll_cons hp]
    rw [countWords_next hl hch hr ho hp h1]
    exact hih

section
variable {ch : UInt8} {r : Str} {result : Ptr} {L M i i' : Int} (hl : h.load s = some ch) (hch : ch ≠ 0)
  (hr : h.str s = some r) (ho : h.str oldWord = some old)
include hl hch hr ho

theorem copyWords_found (hp : old <+: r) (hcpy : h.strcpy (result + i.toNat) new = some h')
    (h1 : int (i + M) = some i') : copyWords oldWord new M L result (fuel + 1) i s h =
      copyWords oldWord new M L result fuel i' (s + L.toNat) h' := by
  have hfound : strstr r old = some 0 := strstr_zero.mpr hp
  simp only [copyWords, hl, hr, ho, Option.bind_eq_bind, Option.bind_some, if_neg hch, hfound, if_true, hcpy, h1]

theorem copyWords_next (hp : ¬ old <+: r) (hst : h.store (result + i.toNat) ch = some h')
    (h1 : int (i + 1) = some i') : copyWords oldWord new M L result (fuel + 1) i s h =
      copyWords oldWord new M L result fuel i' (s + 1) h' := by
  have hnot : ¬ strstr r old = some 0 := fun h => hp (strstr_zero.mp h)
  simp only [copyWords, hl, hr, ho, Option.bind_eq_bind, Option.bind_some, if_neg hch, if_neg hnot, hst, h1]

end

/-- The copying loop, with `done` written to the new block and `tail` the rest of it. -/
theorem copyWords_eq (ho : h.str oldWord = some old) (hne : old ≠ []) (new rest : Str) :
    ∀ (s : Ptr) (done : Str) (tail : List (Option UInt8)) (fuel : Nat), h.str s = some rest → rest.length < fuel →
      (replaceAll old new rest).length < tail.length → done.length + (replaceAll old new rest).length < 2 ^ 31 →
      ∃ tail' : List (Option UInt8), tail'.length + (replaceAll old new rest).length = tail.length ∧
        copyWords oldWord new new.length old.length h.top fuel done.length s
            (h.push (done.map some ++ tail)).2 =
          some (((done ++ replaceAll old new rest).length : Int),
            (h.push ((done ++ replaceAll old new rest).map some ++ tail')).2) := by
  have hpos := List.length_pos_iff.mpr hne
  induction rest using replace_induction hne with
  | hnil =>
    intro s done tail fuel hs hfuel htail hint
    obtain ⟨fuel, rfl⟩ : ∃ f, fuel = f + 1 := ⟨fuel - 1, by omega⟩
    refine ⟨tail, rfl, ?_⟩
    have hl := str_nil.mp (push_str_old h (done.map some ++ tail) hs)
    simp only [copyWords, hl, Option.bind_eq_bind, Option.bind_some, if_true, replaceAll_nil, List.append_nil]
    rfl
  | hocc rest hp ih =>
    intro s done tail fuel hs hfuel htail hint
    obtain ⟨rest', rfl⟩ := hp
    obtain ⟨fuel, rfl⟩ : ∃ f, fuel = f + 1 := ⟨fuel - 1, by omega⟩
    rw [replaceAll_front hne (List.prefix_append old rest'), List.drop_left] at htail hint ⊢
    rw [List.drop_left] at ih
    rw [List.length_append] at htail hint hfuel
    have hr := push_str_old h (done.map some ++ tail) hs
    obtain ⟨ch, old', hold⟩ := List.exists_cons_of_ne_nil hne
    have hr' := hr
    rw [hold, List.cons_append] at hr'
    obtain ⟨hl, hch, -⟩ := str_cons.mp hr'
    have hcpy := push_strcpy h done new (show new.length < tail.length by omega)
    have h1 : int ((done.length : Int) + (new.length : Int)) = some ((done ++ new).length : Int) :=
      int_eq (by simp) (by rw [List.length_append]; omega)
    obtain ⟨tail', hlen, hih⟩ := ih (s + old.length) (done ++ new) (some 0 :: tail.drop (new.length + 1)) fuel
      (str_append hs) (by omega) (by rw [List.length_cons, List.length_drop]; omega)
      (by rw [List.length_append]; omega)
    refine ⟨tail', ?_, ?_⟩
    · rw [List.length_cons, List.length_drop] at hlen
      rw [List.length_append]
      omega
    · rw [copyWords_found hl hch hr (push_str_old h _ ho) (List.prefix_append old rest') hcpy h1]
      rw [← List.append_assoc]
      exact hih
  | hkeep ch rest hp ih =>
    intro s done tail fuel hs hfuel htail hint
    obtain ⟨fuel, rfl⟩ : ∃ f, fuel = f + 1 := ⟨fuel - 1, by omega⟩
    rw [replaceAll_cons hp] at htail hint ⊢
    rw [List.length_cons] at htail hint hfuel
    have hr := push_str_old h (done.map some ++ tail) hs
    obtain ⟨hl, hch, -⟩ := str_cons.mp hr
    have hst := push_store_next h done (show 0 < tail.length by omega) ch
    have h1 : int ((done.length : Int) + 1) = some ((done ++ [ch]).length : Int) :=
      int_eq (by simp) (by rw [List.length_append, List.length_singleton]; omega)
    obtain ⟨tail', hlen, hih⟩ := ih (s + 1) (done ++ [ch]) (tail.drop 1) fuel (str_cons.mp hs).2.2 (by omega)
      (by rw [List.length_drop]; omega) (by rw [List.length_append, List.length_singleton]; omega)
    refine ⟨tail', ?_, ?_⟩
    · rw [List.length_drop] at hlen
      rw [List.length_cons]
      omega
    · rw [copyWords_next hl hch hr (push_str_old h _ ho) hp hst h1, List.append_cons done ch (replaceAll old new rest)]
      exact hih

theorem deleteWords_steps {k : Nat} {L M i c d e size j : Int} {h₁ h₂ : Heap} (hs : h.strlen s = some n)
    (ho : h.strlen oldWord = some k) (h1 : int new.length = some M) (h2 : int k = some L)
    (hcount : countWords h s oldWord L (n + 1) 0 0 = some (i, c)) (h3 : int (c * (M - L)) = some d)
    (h4 : int (i + d) = some e) (h5 : int (e + 1) = some size)
    (hcopy : copyWords oldWord new M L h.top (n + 1) 0 s (h.malloc size.toNat).2 = some (j, h₁))
    (hnul : h₁.store (h.top + j.toNat) 0 = some h₂) :
    deleteWords h s (some oldWord) new = some (h.top, h₂) := by
  rw [deleteWords]
  refine Option.bind_eq_some_iff.mpr ⟨oldWord, rfl, Option.bind_eq_some_iff.mpr ⟨M, h1, ?_⟩⟩
  refine Option.bind_eq_some_iff.mpr ⟨k, ho, Option.bind_eq_some_iff.mpr ⟨L, h2, ?_⟩⟩
  refine Option.bind_eq_some_iff.mpr ⟨n, hs, Option.bind_eq_some_iff.mpr ⟨(i, c), hcount, ?_⟩⟩
  refine Option.bind_eq_some_iff.mpr ⟨d, h3, Option.bind_eq_some_iff.mpr ⟨e, h4, ?_⟩⟩
  refine Option.bind_eq_some_iff.mpr ⟨size, h5, Option.bind_eq_some_iff.mpr ⟨(j, h₁), hcopy, ?_⟩⟩
  exact Option.bind_eq_some_iff.mpr ⟨h₂, hnul, rfl⟩

/-- deleteWords makes a new string of the text with its occurrences replaced. -/
theorem deleteWords_eq (hs : h.str s = some text) (ho : h.str oldWord = some old) (hne : old ≠ [])
    (htext : text.length < 2 ^ 31) (hold : old.length < 2 ^ 31) (hnew : new.length < 2 ^ 31)
    (hrep : (replaceAll old new text).length + 1 < 2 ^ 31) :
    deleteWords h s (some oldWord) new = some (h.push ((replaceAll old new text).map some ++ [some 0])) := by
  have hlen := replaceAll_length hne new text
  have hcount := countWords_eq hs ho hne htext text [] 0 (text.length + 1) rfl (by omega) le_rfl
  rw [Nat.zero_add] at hcount
  obtain ⟨tail, htail, hcopy⟩ := copyWords_eq ho hne new text s []
    (List.replicate ((replaceAll old new text).length + 1) none) (text.length + 1) hs (by omega) (by simp)
    (by rw [List.length_nil]; omega)
  have h1 : int (new.length : Int) = some (new.length : Int) := int_eq rfl hnew
  have h2 : int (old.length : Int) = some (old.length : Int) := int_eq rfl hold
  have hdiff : (countAll old text : Int) * ((new.length : Int) - (old.length : Int)) =
      ((replaceAll old new text).length : Int) - (text.length : Int) := by
    rw [Int.mul_sub]
    have := congrArg (Nat.cast : Nat → Int) hlen
    push_cast at this
    omega
  have h3 : int ((countAll old text : Int) * ((new.length : Int) - (old.length : Int))) =
      some (((replaceAll old new text).length : Int) - (text.length : Int)) := by
    rw [hdiff, int, if_pos]
    omega
  have h4 : int ((text.length : Int) + (((replaceAll old new text).length : Int) - (text.length : Int))) =
      some ((replaceAll old new text).length : Int) := int_eq (by omega) (by omega)
  have h5 : int (((replaceAll old new text).length : Int) + 1) =
      some (((replaceAll old new text).length + 1 : Nat) : Int) := int_eq rfl hrep
  rw [List.length_replicate] at htail
  obtain ⟨b, rfl⟩ : ∃ b, tail = [b] := List.length_eq_one_iff.mp (by omega)
  rw [List.nil_append] at hcopy
  have hnul := push_store_next h (replaceAll old new text) (show 0 < [b].length from Nat.one_pos) 0
  rw [List.map_append, List.append_assoc] at hnul
  have hlens : h.strlen s = some text.length := by rw [Heap.strlen, hs, Option.map_some]
  have hleno : h.strlen oldWord = some old.length := by rw [Heap.strlen, ho, Option.map_some]
  exact deleteWords_steps hlens hleno h1 h2 hcount h3 h4 h5 hcopy hnul

theorem int_some {z y : Int} (h : int z = some y) : y = z ∧ z < 2 ^ 31 := by
  rw [int] at h
  split at h
  · next hz =>
    rw [Option.some.injEq] at h
    exact ⟨h.symm, hz.2⟩
  · cases h

/-- The counting loop only ends on a text that an int can count. -/
theorem countWords_lt (hs : h.str s = some text) (ho : h.str oldWord = some old) (fuel : Nat) :
    ∀ (done rest : Str) (k : Int) (r : Int × Int), text = done ++ rest → done.length < 2 ^ 31 →
      countWords h s oldWord old.length fuel done.length k = some r → text.length < 2 ^ 31 := by
  induction fuel with
  | zero =>
    intro done rest k r _ _ h
    cases h
  | succ fuel ih =>
    intro done rest k r htext hdone hc
    rw [htext] at hs
    have hr := str_append hs
    cases rest with
    | nil =>
      rw [htext, List.append_nil]
      exact hdone
    | cons ch rest =>
      obtain ⟨hl, hch, -⟩ := str_cons.mp hr
      rw [countWords] at hc
      obtain ⟨ch', hl', hc⟩ := Option.bind_eq_some_iff.mp hc
      have hch' : ch' ≠ 0 := by
        rw [Int.toNat_natCast, hl, Option.some.injEq] at hl'
        exact hl' ▸ hch
      rw [if_neg hch'] at hc
      obtain ⟨r₁, hr₁, hc⟩ := Option.bind_eq_some_iff.mp hc
      obtain ⟨old₁, ho₁, hc⟩ := Option.bind_eq_some_iff.mp hc
      rw [Int.toNat_natCast, hr, Option.some.injEq] at hr₁
      rw [ho, Option.some.injEq] at ho₁
      rw [← hr₁, ← ho₁] at hc
      split at hc
      · next hfound =>
        obtain ⟨rest', hrest⟩ := strstr_zero.mp hfound
        obtain ⟨i₁, h₁, hc⟩ := Option.bind_eq_some_iff.mp hc
        obtain ⟨i₂, h₂, hc⟩ := Option.bind_eq_some_iff.mp hc
        obtain ⟨k', -, hc⟩ := Option.bind_eq_some_iff.mp hc
        obtain ⟨hi₁, -⟩ := int_some h₁
        obtain ⟨hi₂, hlt⟩ := int_some h₂
        have hi : i₂ = ((done ++ old).length : Int) := by
          rw [List.length_append]
          omega
        rw [hi] at hc
        refine ih (done ++ old) rest' k' r (by rw [htext, ← hrest, List.append_assoc]) ?_ hc
        omega
      · obtain ⟨i₁, h₁, hc⟩ := Option.bind_eq_some_iff.mp hc
        obtain ⟨hi₁, hlt⟩ := int_some h₁
        have hi : i₁ = ((done ++ [ch]).length : Int) := by
          rw [List.length_append, List.length_singleton]
          omega
        rw [hi] at hc
        refine ih (done ++ [ch]) rest k r (by rw [htext]; simp) ?_ hc
        omega

theorem deleteWords_lt {r : Ptr × Heap} (hs : h.str s = some text) (ho : h.str oldWord = some old)
    (hd : deleteWords h s (some oldWord) new = some r) : text.length < 2 ^ 31 := by
  rw [deleteWords] at hd
  obtain ⟨o, hsome, hd⟩ := Option.bind_eq_some_iff.mp hd
  obtain ⟨M, -, hd⟩ := Option.bind_eq_some_iff.mp hd
  obtain ⟨k, hk, hd⟩ := Option.bind_eq_some_iff.mp hd
  obtain ⟨L, hL, hd⟩ := Option.bind_eq_some_iff.mp hd
  obtain ⟨n, -, hd⟩ := Option.bind_eq_some_iff.mp hd
  obtain ⟨⟨i, c⟩, hcount, -⟩ := Option.bind_eq_some_iff.mp hd
  rw [← Option.some.inj hsome] at hk hcount
  rw [Heap.strlen, ho, Option.map_some, Option.some.injEq] at hk
  rw [(int_some hL).1, ← hk] at hcount
  exact countWords_lt hs ho (n + 1) [] text 0 (i, c) rfl (by decide) hcount

/-- The bytes deleteWords allocates. -/
theorem replaceAll_size (hne : old ≠ []) (new text : Str) : ((replaceAll old new text).length : Int) + 1 =
    text.length + countAll old text * ((new.length : Int) - old.length) + 1 := by
  have hlen := congrArg (Nat.cast : Nat → Int) (replaceAll_length hne new text)
  push_cast at hlen
  rw [Int.mul_sub]
  omega

/-- A call that returns has allocated a number of bytes that fits an int. -/
theorem deleteWords_fits {r : Ptr × Heap} (hs : h.str s = some text) (ho : h.str oldWord = some old) (hne : old ≠ [])
    (hd : deleteWords h s (some oldWord) new = some r) : old.length < 2 ^ 31 ∧ new.length < 2 ^ 31 ∧
      (text.length : Int) + countAll old text * ((new.length : Int) - old.length) + 1 < 2 ^ 31 := by
  have htext := deleteWords_lt hs ho hd
  have hcount := countWords_eq hs ho hne htext text [] 0 (text.length + 1) rfl (by omega) le_rfl
  rw [Nat.zero_add] at hcount
  rw [deleteWords] at hd
  obtain ⟨o, hsome, hd⟩ := Option.bind_eq_some_iff.mp hd
  obtain ⟨M, hM, hd⟩ := Option.bind_eq_some_iff.mp hd
  obtain ⟨k, hk, hd⟩ := Option.bind_eq_some_iff.mp hd
  obtain ⟨L, hL, hd⟩ := Option.bind_eq_some_iff.mp hd
  obtain ⟨n, hn, hd⟩ := Option.bind_eq_some_iff.mp hd
  obtain ⟨p, hp, hd⟩ := Option.bind_eq_some_iff.mp hd
  obtain ⟨d, hd₁, hd⟩ := Option.bind_eq_some_iff.mp hd
  obtain ⟨e, he, hd⟩ := Option.bind_eq_some_iff.mp hd
  obtain ⟨size, hsize, -⟩ := Option.bind_eq_some_iff.mp hd
  obtain ⟨hM, hnew⟩ := int_some hM
  obtain ⟨hL, hold⟩ := int_some hL
  rw [← Option.some.inj hsome] at hk hp
  rw [Heap.strlen, ho, Option.map_some, Option.some.injEq] at hk
  rw [Heap.strlen, hs, Option.map_some, Option.some.injEq] at hn
  rw [hL, ← hk, ← hn] at hp
  rw [show countWords h s oldWord old.length (text.length + 1) 0 0 = _ from hcount, Option.some.injEq] at hp
  obtain ⟨hd₁, -⟩ := int_some hd₁
  obtain ⟨he, -⟩ := int_some he
  obtain ⟨-, hlt⟩ := int_some hsize
  rw [he, hd₁, hM, hL, ← hk, ← hp] at hlt
  rw [← hk] at hold
  exact ⟨by omega, by omega, hlt⟩

/-- deleteWords returns the text with its occurrences replaced, in a new block that ends with the NUL
    and is the size that was allocated, exactly when an int can hold the lengths and this size. -/
theorem deleteWords_replaces (hs : h.str s = some text) (ho : h.str oldWord = some old) (hne : old ≠ []) (new : Str) :
    (deleteWords h s (some oldWord) new = some (h.push ((replaceAll old new text).map some ++ [some 0])) ∧
      ((((replaceAll old new text).map some ++ [some 0]).length : Nat) : Int) =
        text.length + countAll old text * ((new.length : Int) - old.length) + 1) ↔
    text.length < 2 ^ 31 ∧ old.length < 2 ^ 31 ∧ new.length < 2 ^ 31 ∧
      (text.length : Int) + countAll old text * ((new.length : Int) - old.length) + 1 < 2 ^ 31 := by
  have hsize := replaceAll_size hne new text
  constructor
  · intro hd
    exact ⟨deleteWords_lt hs ho hd.1, deleteWords_fits hs ho hne hd.1⟩
  · intro hfits
    obtain ⟨htext, hold, hnew, hint⟩ := hfits
    refine ⟨deleteWords_eq hs ho hne htext hold hnew (by omega), ?_⟩
    rw [List.length_append, List.length_map, List.length_singleton]
    exact hsize

/-- "abab" with "ab" replaced by "c". -/
theorem deleteWords_replaces_twice :
    deleteWords ⟨[[some 97, some 98, some 97, some 98, some 0], [some 97, some 98, some 0]]⟩ ⟨0, 0⟩ (some ⟨1, 0⟩) [99] =
      some (⟨2, 0⟩, ⟨[[some 97, some 98, some 97, some 98, some 0], [some 97, some 98, some 0],
        [some 99, some 99, some 0]]⟩) := by
  have hs : Heap.str ⟨[[some 97, some 98, some 97, some 98, some 0], [some 97, some 98, some 0]]⟩ ⟨0, 0⟩ =
      some [97, 98, 97, 98] := rfl
  have ho : Heap.str ⟨[[some 97, some 98, some 97, some 98, some 0], [some 97, some 98, some 0]]⟩ ⟨1, 0⟩ =
      some [97, 98] := rfl
  have hreplaced := (deleteWords_replaces hs ho (by decide) [99]).mpr (by decide)
  exact hreplaced.1

/-- A text of 2^31 characters has no replacement. -/
theorem deleteWords_overflow :
    ¬ ∀ (h : Heap) (s oldWord : Ptr) (text old new : Str), h.str s = some text → h.str oldWord = some old → old ≠ [] →
      deleteWords h s (some oldWord) new = some (h.push ((replaceAll old new text).map some ++ [some 0])) := by
  intro hall
  have hz : (0 : UInt8) ∉ List.replicate (2 ^ 31) (97 : UInt8) := by
    intro hmem
    cases List.eq_of_mem_replicate hmem
  obtain ⟨h, hh⟩ : ∃ h, (Heap.push ⟨[[some 98, some 0]]⟩
    ((List.replicate (2 ^ 31) (97 : UInt8)).map some ++ [some 0])).2 = h := ⟨_, rfl⟩
  have hs : h.str ⟨1, 0⟩ = some (List.replicate (2 ^ 31) 97) := by
    rw [← hh]
    exact push_str ⟨[[some 98, some 0]]⟩ hz []
  have ho : h.str ⟨0, 0⟩ = some [98] := by
    rw [← hh]
    exact push_str_old ⟨[[some 98, some 0]]⟩ _ rfl
  have hlt := deleteWords_lt hs ho (hall h ⟨1, 0⟩ ⟨0, 0⟩ _ [98] [] hs ho (by decide))
  rw [List.length_replicate] at hlt
  exact lt_irrefl _ hlt

/-! ## The path of a redirect -/

/-- The four calls of strtok: one that has found nothing leaves the next with the saved text. -/
def pathOf (red text : Str) : Option Str :=
  let r := tok red (tok red text).2
  let r := tok whitespaceChars (r.1.getD r.2)
  (tok specialChars (r.1.getD r.2)).1

/-- What a path is: a part of the text. -/
theorem pathOf_part {path : Str} (hp : pathOf red text = some path) : path ≠ [] ∧ path <:+: text := by
  have hget : ∀ (delim u : Str), ((tok delim u).1.getD (tok delim u).2) <:+: u := by
    intro delim u
    obtain ⟨htok, hrest⟩ := tok_part delim u
    cases ht : (tok delim u).1 with
    | none => exact hrest.isInfix
    | some w => exact (htok w ht).2.1
  obtain ⟨hne, hin, -⟩ := (tok_part specialChars _).1 path hp
  exact ⟨hne, hin.trans ((hget _ _).trans ((hget _ _).trans (tok_part red text).2.isInfix))⟩

/-- After a call of strtok on new blocks: the token `t`, and the text that is saved. -/
structure Cursor (h₀ : Heap) (m : Mem) (t : Option Ptr) (r : Option Str × Str) : Prop where
  within : Within h₀ m.heap h₀.top 0
  saved : ∃ save, m.saved = some save ∧ h₀.blocks.length ≤ save.block ∧ m.heap.str save = some r.2
  token : (t = none ∧ r.1 = none) ∨
    ∃ q w, t = some q ∧ r.1 = some w ∧ h₀.blocks.length ≤ q.block ∧ m.heap.str q = some w

theorem Cursor.null {h₀ : Heap} {t : Option Ptr} {r : Option Str × Str} (hc : Cursor h₀ m t r) :
    Cursor h₀ m none (none, r.2) :=
  ⟨hc.within, hc.saved, .inl ⟨rfl, rfl⟩⟩

theorem strtok_cursor {h₀ : Heap} {t : Option Ptr} {q : Ptr} (hw : Within h₀ m.heap h₀.top 0)
    (hq : (t <|> m.saved) = some q) (hb : h₀.blocks.length ≤ q.block) (hs : m.heap.str q = some text)
    (delim : Str) : ∃ t' m', m.strtok t delim = some (t', m') ∧ Cursor h₀ m' t' (tok delim text) := by
  obtain ⟨t', save, h', htok, hsave, hrest, hwithin, htoken⟩ := strtokR_spec hs delim
  refine ⟨t', { heap := h', saved := some save }, ?_, hw.trans hwithin (.inl hb), ⟨save, rfl, ?_, hrest⟩, ?_⟩
  · simp only [Mem.strtok, hq, htok, Option.bind_eq_bind, Option.bind_some]
    rfl
  · rw [hsave]
    exact hb
  · rcases htoken with hnone | ⟨p, w, hp, hpb, hw, hstr⟩
    · exact .inl hnone
    · exact .inr ⟨p, w, hp, hw, by rw [hpb]; exact hb, hstr⟩

theorem Cursor.strtok {h₀ : Heap} {t : Option Ptr} {r : Option Str × Str} (hc : Cursor h₀ m t r) (delim : Str) :
    ∃ t' m', m.strtok t delim = some (t', m') ∧ Cursor h₀ m' t' (tok delim (r.1.getD r.2)) := by
  rcases hc.token with ⟨ht, hr⟩ | ⟨q, w, ht, hr, hb, hs⟩
  · obtain ⟨save, hsave, hb, hs⟩ := hc.saved
    have hq : ((none : Option Ptr) <|> m.saved) = some save := hsave
    rw [ht, hr]
    exact strtok_cursor hc.within hq hb hs delim
  · rw [ht, hr]
    exact strtok_cursor hc.within rfl hb hs delim

theorem redirectPath_spec (hs : m.heap.str cline = some text) (red : Str) :
    ∃ t m' r, redirectPath red cline m = some (t, m') ∧ Cursor m.heap m' t r ∧ r.1 = pathOf red text := by
  have hdup : m.heap.strdup cline = some (m.heap.push (text.map some ++ [some 0])) := by
    rw [Heap.strdup, hs, Option.map_some]
  obtain ⟨t₁, m₁, h₁, hc₁⟩ := strtok_cursor (m := { m with heap := (m.heap.push (text.map some ++ [some 0])).2 })
    (t := some m.heap.top) (push_within _ _ _ _) rfl le_rfl (push_str m.heap (str_not_zero hs) []) red
  obtain ⟨t₂, m₂, h₂, hc₂⟩ := hc₁.null.strtok red
  obtain ⟨t₃, m₃, h₃, hc₃⟩ := hc₂.strtok whitespaceChars
  obtain ⟨t₄, m₄, h₄, hc₄⟩ := hc₃.strtok specialChars
  refine ⟨t₄, m₄, _, ?_, hc₄, rfl⟩
  have hline : (m.heap.push (text.map some ++ [some 0])).1 = m.heap.top := rfl
  simp only [redirectPath, hdup, hline, h₁, h₂, h₃, h₄, Option.bind_eq_bind, Option.bind_some]

/-- A redirect without a path: deleteWords is called with NULL. -/
theorem redirect_none (hs : m.heap.str cline = some text) (hp : pathOf red text = none) :
    redirect red cline m = none := by
  obtain ⟨t, m', r, hpath, hc, hr⟩ := redirectPath_spec hs red
  rw [hp] at hr
  rcases hc.token with ⟨ht, -⟩ | ⟨q, w, -, hw, -⟩
  · rw [redirect, hpath, ht]
    rfl
  · rw [hr] at hw
    cases hw

theorem redirect_lt {r : Option Ptr × Ptr × Mem} (hs : m.heap.str cline = some text)
    (hr : redirect red cline m = some r) : text.length < 2 ^ 31 := by
  obtain ⟨t, m', r', hpath, hc, -⟩ := redirectPath_spec hs red
  rw [redirect, hpath, Option.bind_eq_bind, Option.bind_some] at hr
  obtain ⟨⟨line, heap⟩, hd, -⟩ := Option.bind_eq_some_iff.mp hr
  rcases hc.token with ⟨ht, -⟩ | ⟨q, w, ht, -, -, hw⟩
  · rw [ht] at hd
    cases hd
  · rw [ht] at hd
    exact deleteWords_lt (hc.within.keep hs) hw hd

/-- The path and the new line are in new blocks, and nothing old has changed. -/
theorem redirect_some {path : Str} (hs : m.heap.str cline = some text) (hp : pathOf red text = some path)
    (hlen : text.length < 2 ^ 31) : ∃ q cline' m', redirect red cline m = some (some q, cline', m') ∧
      m'.heap.str q = some path ∧ m'.heap.str cline' = some (replaceAll path [] text) ∧
      m.heap.blocks.length ≤ q.block ∧ m.heap.blocks.length ≤ cline'.block ∧ q.block ≠ cline'.block ∧
      Within m.heap m'.heap m.heap.top 0 := by
  obtain ⟨t, m₁, r, hpath, hc, hr⟩ := redirectPath_spec hs red
  obtain ⟨hne, hin⟩ := pathOf_part hp
  rw [hp] at hr
  rcases hc.token with ⟨-, hnone⟩ | ⟨q, w, rfl, hw, hqb, hq⟩
  · rw [hr] at hnone
    cases hnone
  rw [hr, Option.some.injEq] at hw
  rw [← hw] at hq
  have hlt := replaceAll_length_lt hne hin
  have hs₁ : m₁.heap.str cline = some text := hc.within.keep hs
  have hdel := deleteWords_eq hs₁ hq hne hlen (lt_of_le_of_lt hin.length_le hlen)
    (show ([] : Str).length < 2 ^ 31 by decide) (by omega)
  have hz : (0 : UInt8) ∉ replaceAll path [] text := by
    intro hmem
    rcases mem_replaceAll hne hmem with hmem | hmem
    · exact str_not_zero hs hmem
    · cases hmem
  generalize hrep : replaceAll path [] text = rep at hdel hz ⊢
  -- the string deleteWords has made, the copy of it, and the string freed
  have hline := push_str m₁.heap hz []
  have hdup : (m₁.heap.push (rep.map some ++ [some 0])).2.strdup m₁.heap.top =
      some ((m₁.heap.push (rep.map some ++ [some 0])).2.push (rep.map some ++ [some 0])) := by
    rw [Heap.strdup, hline, Option.map_some]
  generalize hh₂ : (m₁.heap.push (rep.map some ++ [some 0])).2 = h₂ at hdup hline
  have hw₂ : Within m₁.heap h₂ m.heap.top 0 := hh₂ ▸ push_within _ _ _ _
  have hlen₂ : h₂.blocks.length = m₁.heap.blocks.length + 1 := by
    rw [← hh₂]
    simp [Heap.push]
  have hcopy := push_str h₂ hz []
  have hline₃ := push_str_old h₂ (rep.map some ++ [some 0]) hline
  obtain ⟨h₄, hfree⟩ := free_some hline₃ rfl
  obtain ⟨n, hw₄⟩ := free_within hfree
  have hq₃ := push_str_old h₂ (rep.map some ++ [some 0]) (hw₂.keep hq)
  have hqlt := str_lt hq
  refine ⟨q, h₂.top, { m₁ with heap := h₄ }, ?_, hw₄.str hq₃ (.inl ?_), hw₄.str hcopy (.inl ?_), hqb, ?_, ?_, ?_⟩
  · have hpush : m₁.heap.push (rep.map some ++ [some 0]) = (m₁.heap.top, h₂) := by
      rw [← hh₂]
      rfl
    have hpush₃ : (h₂.push (rep.map some ++ [some 0])).1 = h₂.top := rfl
    rw [hpush] at hdel
    simp only [redirect, hpath, hdel, hdup, hfree, hpush₃, Option.bind_eq_bind, Option.bind_some]
    rfl
  · exact Nat.ne_of_lt hqlt
  · show h₂.blocks.length ≠ m₁.heap.blocks.length
    omega
  · show m.heap.blocks.length ≤ h₂.blocks.length
    have := hc.within.length
    omega
  · show q.block ≠ h₂.blocks.length
    omega
  · refine ((hc.within.trans hw₂ (.inl le_rfl)).trans (push_within h₂ _ m.heap.top 0) (.inl le_rfl)).trans hw₄ (.inl ?_)
    exact hc.within.length

end EC440.Shell
