/-
  Memory of bytes and the functions of string.h on it.

  A pointer is a block and an offset. A byte of a block is unset until it is written, a freed
  block has no bytes, and no block is used twice. A function is `none` where the access it
  makes is undefined: outside a block, or of a byte that is not set. malloc does not fail.

  strtok_r writes a NUL into the text it is given, so that the token and what is behind it are
  two texts of one block. `Within` says which bytes an operation may have changed; the texts
  elsewhere stay (`Within.str`). `tokens_cases` is the rule for a loop
  `while ((token = strtok_r(line, delim, &line)))` whose body works inside its token.
-/
import EC440.Lib.Text

namespace EC440.Lib

/-- The characters of a string, without the NUL. -/
abbrev Str := List UInt8

structure Ptr where
  block : Nat
  off : Nat
  deriving DecidableEq, Repr

instance : HAdd Ptr Nat Ptr := ⟨fun p n => ⟨p.block, p.off + n⟩⟩

structure Heap where
  blocks : List (List (Option UInt8)) := []

namespace Heap

def load (h : Heap) (p : Ptr) : Option UInt8 := do
  let block ← h.blocks[p.block]?
  (← block[p.off]?)

def store (h : Heap) (p : Ptr) (c : UInt8) : Option Heap := do
  let block ← h.blocks[p.block]?
  if p.off < block.length then some ⟨h.blocks.set p.block (block.set p.off (some c))⟩ else none

/-- Where the next block begins. -/
def top (h : Heap) : Ptr := ⟨h.blocks.length, 0⟩

def push (h : Heap) (block : List (Option UInt8)) : Ptr × Heap := (h.top, ⟨h.blocks ++ [block]⟩)

def malloc (h : Heap) (size : Nat) : Ptr × Heap := h.push (List.replicate size none)

def free (h : Heap) (p : Ptr) : Option Heap := do
  let block ← h.blocks[p.block]?
  if p.off = 0 ∧ block ≠ [] then some ⟨h.blocks.set p.block []⟩ else none

/-- The characters up to the first NUL. -/
def chars : List (Option UInt8) → Option Str
  | some c :: rest => if c = 0 then some [] else (chars rest).map (c :: ·)
  | _ => none

/-- The string at `p`. -/
def str (h : Heap) (p : Ptr) : Option Str := do
  let block ← h.blocks[p.block]?
  chars (block.drop p.off)

def strlen (h : Heap) (p : Ptr) : Option Nat := (h.str p).map List.length

def strdup (h : Heap) (p : Ptr) : Option (Ptr × Heap) :=
  (h.str p).map fun s => h.push (s.map some ++ [some 0])

/-- strcpy from a literal. -/
def strcpy (h : Heap) (p : Ptr) : Str → Option Heap
  | [] => h.store p 0
  | c :: s => (h.store p c).bind fun h => h.strcpy (p + 1) s

/-- strtok_r(s, delim, save): the token, the new `*save`, and the memory. -/
def strtokR (h : Heap) (s : Ptr) (delim : Str) : Option (Option Ptr × Ptr × Heap) := do
  let text ← h.str s
  let token := s + (text.takeWhile (· ∈ delim)).length
  let rest := text.dropWhile (· ∈ delim)
  if rest = [] then return (none, token, h)
  let last := token + (rest.takeWhile (· ∉ delim)).length
  if rest.dropWhile (· ∉ delim) = [] then return (some token, last, h)
  let h ← h.store last 0
  return (some token, last + 1, h)

end Heap

/-- Where the first occurrence begins. -/
def strstr : Str → Str → Option Nat
  | [], needle => if needle = [] then some 0 else none
  | c :: s, needle => if needle <+: c :: s then some 0 else (strstr s needle).map (· + 1)

/-- `while ((token = strtok_r(line, delim, &line))) body`, on the memory and the variables of the
    body. The fuel bounds the calls of strtok_r. -/
def whileTok {τ : Type} (delim : Str) (body : Ptr → Heap × τ → Option (Heap × τ)) :
    Nat → Ptr → Heap × τ → Option (Heap × τ)
  | 0, _, _ => none
  | fuel + 1, line, (h, x) => do
      let (token, line, h) ← h.strtokR line delim
      match token with
      | none => return (h, x)
      | some token => do
          let m ← body token (h, x)
          whileTok delim body fuel line m

/-- Every token takes a character of the line, so that this much fuel is enough. -/
def tokens {τ : Type} (delim : Str) (body : Ptr → Heap × τ → Option (Heap × τ)) (line : Ptr) (m : Heap × τ) :
    Option (Heap × τ) := do
  let n ← m.1.strlen line
  whileTok delim body (n + 1) line m

/-! ## Pointers and bytes -/

variable {h h' h₁ : Heap} {p q : Ptr} {s u v w ds text delim : Str} {c d : UInt8} {m n : Nat}

@[simp] theorem Ptr.add_block (p : Ptr) (n : Nat) : (p + n).block = p.block := rfl

@[simp] theorem Ptr.add_off (p : Ptr) (n : Nat) : (p + n).off = p.off + n := rfl

@[simp] theorem Ptr.add_zero (p : Ptr) : p + 0 = p := rfl

theorem Ptr.add_add (p : Ptr) (m n : Nat) : p + m + n = p + (m + n) := by
  show Ptr.mk p.block (p.off + m + n) = Ptr.mk p.block (p.off + (m + n))
  rw [Nat.add_assoc]

/-- A string is read byte by byte. -/
theorem str_eq (h : Heap) (p : Ptr) : h.str p =
    (h.load p).bind fun c => if c = 0 then some [] else (h.str (p + 1)).map (c :: ·) := by
  simp only [Heap.str, Heap.load, Option.bind_eq_bind, Ptr.add_block, Ptr.add_off]
  cases hb : h.blocks[p.block]? with
  | none => rfl
  | some block =>
    simp only [Option.bind_some]
    by_cases hlt : p.off < block.length
    · rw [List.drop_eq_getElem_cons hlt, List.getElem?_eq_getElem hlt, Option.bind_some]
      cases hc : block[p.off] with
      | none => rfl
      | some c => rfl
    · rw [List.drop_eq_nil_of_le (by omega), List.getElem?_eq_none (by omega)]
      rfl

theorem str_nil : h.str p = some [] ↔ h.load p = some 0 := by
  rw [str_eq]
  cases h.load p with
  | none => simp
  | some c =>
    by_cases hc : c = 0
    · simp [hc]
    · simp [hc]

theorem str_cons : h.str p = some (c :: s) ↔ h.load p = some c ∧ c ≠ 0 ∧ h.str (p + 1) = some s := by
  rw [str_eq]
  cases h.load p with
  | none => simp
  | some b =>
    by_cases hb : b = 0
    · simp only [hb, Option.bind_some, if_pos, Option.some.injEq]
      constructor
      · intro hno
        cases hno
      · intro hno
        exact absurd hno.1.symm hno.2.1
    · simp only [Option.bind_some, if_neg hb, Option.map_eq_some_iff, List.cons.injEq, Option.some.injEq]
      constructor
      · intro hs
        obtain ⟨s', hs', rfl, rfl⟩ := hs
        exact ⟨rfl, hb, hs'⟩
      · intro hs
        obtain ⟨rfl, -, hs⟩ := hs
        exact ⟨s, hs, rfl, rfl⟩

theorem str_not_zero (hs : h.str p = some s) : (0 : UInt8) ∉ s := by
  induction s generalizing p with
  | nil => simp
  | cons c s ih =>
    obtain ⟨-, hc, hs⟩ := str_cons.mp hs
    intro hmem
    rcases List.mem_cons.mp hmem with h0 | hmem
    · exact hc h0.symm
    · exact ih hs hmem

theorem load_lt (hl : h.load p = some c) : p.block < h.blocks.length := by
  rw [Heap.load] at hl
  obtain ⟨block, hb, -⟩ := Option.bind_eq_some_iff.mp hl
  exact (List.getElem?_eq_some_iff.mp hb).1

theorem str_lt (hs : h.str p = some s) : p.block < h.blocks.length := by
  cases s with
  | nil => exact load_lt (str_nil.mp hs)
  | cons c s => exact load_lt (str_cons.mp hs).1

theorem str_append (hs : h.str p = some (u ++ v)) : h.str (p + u.length) = some v := by
  induction u generalizing p with
  | nil => exact hs
  | cons c u ih =>
    have h' := ih (str_cons.mp hs).2.2
    rwa [Ptr.add_add, Nat.add_comm] at h'

/-! ## What an operation changes -/

/-- Of the bytes of old blocks, at most the `n` from `p` on have changed. -/
structure Within (h h' : Heap) (p : Ptr) (n : Nat) : Prop where
  length : h.blocks.length ≤ h'.blocks.length
  load : ∀ q : Ptr, q.block < h.blocks.length → ¬ (q.block = p.block ∧ p.off ≤ q.off ∧ q.off < p.off + n) →
    h'.load q = h.load q

theorem Within.refl (h : Heap) (p : Ptr) (n : Nat) : Within h h p n := ⟨le_rfl, fun _ _ _ => rfl⟩

/-- A part of the range, or a block that is new since `h`. -/
theorem Within.trans (hw : Within h h₁ p n) (hw' : Within h₁ h' q m)
    (hin : h.blocks.length ≤ q.block ∨ (q.block = p.block ∧ p.off ≤ q.off ∧ q.off + m ≤ p.off + n)) :
    Within h h' p n := by
  refine ⟨hw.length.trans hw'.length, fun r hr hout => ?_⟩
  rw [hw'.load r (lt_of_lt_of_le hr hw.length) ?_, hw.load r hr hout]
  intro hrq
  rcases hin with hnew | ⟨hb, hlo, hhi⟩
  · omega
  · exact hout ⟨hrq.1.trans hb, by omega, by omega⟩

theorem Within.mono (hw : Within h h' q m) (hb : q.block = p.block) (hlo : p.off ≤ q.off)
    (hhi : q.off + m ≤ p.off + n) : Within h h' p n :=
  (Within.refl h p n).trans hw (.inr ⟨hb, hlo, hhi⟩)

/-- A text that ends before the range, begins behind it, or is in another block. -/
theorem Within.str (hw : Within h h' p n) (hs : h.str q = some s)
    (hout : q.block ≠ p.block ∨ q.off + s.length < p.off ∨ p.off + n ≤ q.off) : h'.str q = some s := by
  induction s generalizing q with
  | nil =>
    have hl := str_nil.mp hs
    rw [str_nil, hw.load q (load_lt hl) ?_, hl]
    intro hin
    simp only [List.length_nil, Nat.add_zero] at hout
    omega
  | cons c s ih =>
    obtain ⟨hl, hc, hs⟩ := str_cons.mp hs
    rw [List.length_cons] at hout
    refine str_cons.mpr ⟨?_, hc, ih hs ?_⟩
    · rw [hw.load q (load_lt hl) ?_, hl]
      omega
    · simp only [Ptr.add_block, Ptr.add_off]
      omega

theorem Within.keep (hw : Within h h' p 0) (hs : h.str q = some s) : h'.str q = some s := by
  have hq : Within h h' q 0 := ⟨hw.length, fun r hr _ => hw.load r hr (by omega)⟩
  exact hq.str hs (.inr (.inr le_rfl))

/-- A NUL ends the text before it. -/
theorem str_cut (hs : h.str p = some (w ++ v)) (hw : Within h h' (p + w.length) n)
    (h0 : h'.load (p + w.length) = some 0) : h'.str p = some w := by
  induction w generalizing p with
  | nil => exact str_nil.mpr h0
  | cons c w ih =>
    obtain ⟨hl, hc, hs⟩ := str_cons.mp hs
    have hadd : p + (c :: w).length = p + 1 + w.length := by
      rw [Ptr.add_add, List.length_cons, Nat.add_comm]
    rw [hadd] at hw h0
    refine str_cons.mpr ⟨?_, hc, ih hs hw h0⟩
    rw [hw.load p (load_lt hl) ?_, hl]
    simp only [Ptr.add_off]
    omega

theorem store_some (hl : h.load p = some c) (d : UInt8) : ∃ h', h.store p d = some h' := by
  rw [Heap.load] at hl
  obtain ⟨block, hb, hl⟩ := Option.bind_eq_some_iff.mp hl
  obtain ⟨b, hlb, -⟩ := Option.bind_eq_some_iff.mp hl
  obtain ⟨hlt, -⟩ := List.getElem?_eq_some_iff.mp hlb
  refine ⟨⟨h.blocks.set p.block (block.set p.off (some d))⟩, ?_⟩
  rw [Heap.store, hb, Option.bind_eq_bind, Option.bind_some, if_pos hlt]

theorem store_cases (hst : h.store p c = some h') : ∃ block, h.blocks[p.block]? = some block ∧
    p.off < block.length ∧ h' = ⟨h.blocks.set p.block (block.set p.off (some c))⟩ := by
  rw [Heap.store] at hst
  obtain ⟨block, hb, hst⟩ := Option.bind_eq_some_iff.mp hst
  split at hst
  · next hlt =>
    rw [Option.some.injEq] at hst
    exact ⟨block, hb, hlt, hst.symm⟩
  · cases hst

theorem store_load (hst : h.store p c = some h') : h'.load p = some c := by
  obtain ⟨block, hb, hlt, rfl⟩ := store_cases hst
  obtain ⟨hlt', -⟩ := List.getElem?_eq_some_iff.mp hb
  simp [Heap.load, hlt, hlt']

theorem store_within (hst : h.store p c = some h') : Within h h' p 1 := by
  obtain ⟨block, hb, hlt, rfl⟩ := store_cases hst
  obtain ⟨hlt', hget⟩ := List.getElem?_eq_some_iff.mp hb
  refine ⟨by simp, fun q hq hout => ?_⟩
  by_cases hqb : q.block = p.block
  · have hne : p.off ≠ q.off := by
      intro heq
      exact hout ⟨hqb, by omega, by omega⟩
    simp [Heap.load, hqb, hlt', hne, hget]
  · simp [Heap.load, Ne.symm hqb]

theorem push_within (h : Heap) (block : List (Option UInt8)) (p : Ptr) (n : Nat) :
    Within h (h.push block).2 p n := by
  refine ⟨by simp [Heap.push], fun q hq _ => ?_⟩
  simp only [Heap.push, Heap.load, Option.bind_eq_bind]
  rw [List.getElem?_append_left hq]

theorem push_str (h : Heap) (hz : (0 : UInt8) ∉ s) (tail : List (Option UInt8)) :
    (h.push (s.map some ++ some 0 :: tail)).2.str h.top = some s := by
  simp only [Heap.push, Heap.top, Heap.str, Option.bind_eq_bind, List.drop_zero]
  rw [List.getElem?_append_right le_rfl, Nat.sub_self, List.getElem?_cons_zero, Option.bind_some]
  induction s with
  | nil => rfl
  | cons c s ih =>
    have hc : c ≠ 0 := fun hc => hz (hc ▸ List.mem_cons_self)
    rw [List.map_cons, List.cons_append, Heap.chars, if_neg hc, ih fun hmem => hz (List.mem_cons_of_mem c hmem)]
    rfl

/-- Old texts are where they were. -/
theorem push_str_old (h : Heap) (block : List (Option UInt8)) (hs : h.str p = some s) :
    (h.push block).2.str p = some s :=
  (push_within h block p 0).keep hs

/-- A byte of the newest block. -/
theorem push_store (h : Heap) {block : List (Option UInt8)} (hn : n < block.length) (c : UInt8) :
    (h.push block).2.store (h.top + n) c = some (h.push (block.set n (some c))).2 := by
  simp only [Heap.push, Heap.top, Heap.store, Option.bind_eq_bind, Ptr.add_block, Ptr.add_off, Nat.zero_add]
  rw [List.getElem?_append_right le_rfl, Nat.sub_self, List.getElem?_cons_zero, Option.bind_some, if_pos hn,
    List.set_append_right _ _ le_rfl, Nat.sub_self, List.set_cons_zero]

theorem push_store_next (h : Heap) (u : Str) {tail : List (Option UInt8)} (hlen : 0 < tail.length) (c : UInt8) :
    (h.push (u.map some ++ tail)).2.store (h.top + u.length) c =
      some (h.push ((u ++ [c]).map some ++ tail.drop 1)).2 := by
  obtain ⟨b, tail, rfl⟩ := List.exists_cons_of_ne_nil (List.length_pos_iff.mp hlen)
  rw [push_store h (by simp) c, List.set_append_right _ _ (by simp), List.length_map, Nat.sub_self,
    List.set_cons_zero]
  simp

/-- strcpy behind the characters that were written before. -/
theorem push_strcpy (h : Heap) (u v : Str) {tail : List (Option UInt8)} (hlen : v.length < tail.length) :
    (h.push (u.map some ++ tail)).2.strcpy (h.top + u.length) v =
      some (h.push ((u ++ v).map some ++ some 0 :: tail.drop (v.length + 1))).2 := by
  induction v generalizing u tail with
  | nil =>
    rw [Heap.strcpy, push_store_next h u hlen]
    simp
  | cons c v ih =>
    rw [List.length_cons] at hlen
    rw [Heap.strcpy, push_store_next h u (by omega) c, Option.bind_some]
    have hp : h.top + u.length + 1 = h.top + (u ++ [c]).length := by
      rw [Ptr.add_add, List.length_append, List.length_singleton]
    rw [hp, ih (u ++ [c]) (by rw [List.length_drop]; omega), List.drop_drop, List.append_assoc, List.length_cons,
      List.singleton_append, Nat.add_comm 1]

theorem free_some (hs : h.str p = some s) (ho : p.off = 0) : ∃ h', h.free p = some h' := by
  rw [Heap.str] at hs
  obtain ⟨block, hb, hc⟩ := Option.bind_eq_some_iff.mp hs
  refine ⟨⟨h.blocks.set p.block []⟩, ?_⟩
  have hne : block ≠ [] := by
    intro hnil
    rw [hnil, List.drop_nil] at hc
    cases hc
  rw [Heap.free, hb, Option.bind_eq_bind, Option.bind_some, if_pos ⟨ho, hne⟩]

theorem free_within (hf : h.free p = some h') : ∃ n, Within h h' ⟨p.block, 0⟩ n := by
  rw [Heap.free] at hf
  obtain ⟨block, hb, hf⟩ := Option.bind_eq_some_iff.mp hf
  split at hf
  · obtain ⟨hlt, hget⟩ := List.getElem?_eq_some_iff.mp hb
    rw [Option.some.injEq] at hf
    rw [← hf]
    refine ⟨block.length, by simp, fun q hq hout => ?_⟩
    by_cases hqb : q.block = p.block
    · have hoff : block.length ≤ q.off := by
        by_contra hno
        exact hout ⟨hqb, Nat.zero_le _, by omega⟩
      simp [Heap.load, hqb, hlt, hget, hoff]
    · simp [Heap.load, Ne.symm hqb]
  · cases hf

/-! ## strstr -/

theorem strstr_zero {needle : Str} : strstr s needle = some 0 ↔ needle <+: s := by
  cases s with
  | nil => simp [strstr]
  | cons c s =>
    rw [strstr]
    split
    · next h => simp [h]
    · next h =>
      rw [Option.map_eq_some_iff]
      constructor
      · intro hno
        obtain ⟨n, -, hn⟩ := hno
        cases hn
      · intro hp
        exact absurd hp h

theorem strstr_isSome {needle : Str} : (strstr s needle).isSome = true ↔ needle <:+: s := by
  induction s with
  | nil => simp [strstr]
  | cons c s ih =>
    rw [strstr, List.infix_cons_iff]
    split
    · next h => simp [h]
    · next h =>
      rw [Option.isSome_map, ih]
      exact ⟨.inr, fun hor => hor.resolve_left h⟩

/-! ## Tokens -/

section
variable (hds : ∀ c ∈ ds, c ∈ delim)
include hds

theorem strtokR_none (hs : h.str p = some ds) : h.strtokR p delim = some (none, p + ds.length, h) := by
  have hspan := span_append (f := (· ∈ delim)) (u := ds) (v := []) (by simpa using hds) (by simp)
  rw [List.append_nil] at hspan
  simp only [Heap.strtokR, hs, Option.bind_eq_bind, Option.bind_some, hspan.1, hspan.2, if_true]
  rfl

variable (hne : w ≠ []) (hw : ∀ c ∈ w, c ∉ delim)
include hne hw

/-- A token at the end of the text. -/
theorem strtokR_last (hs : h.str p = some (ds ++ w)) :
    h.strtokR p delim = some (some (p + ds.length), p + (ds.length + w.length), h) := by
  have hskip := skip_delims hds hne hw []
  have hspan := span_append (f := (· ∉ delim)) (u := w) (v := []) (by simpa using hw) (by simp)
  rw [List.append_nil] at hskip hspan
  simp only [Heap.strtokR, hs, Option.bind_eq_bind, Option.bind_some, hskip.1, hskip.2, if_neg hne, hspan.1,
    hspan.2, if_true, Ptr.add_add]
  rfl

/-- A token with a delimiter behind it: the delimiter becomes the NUL of the token. -/
theorem strtokR_token (hd : d ∈ delim) (hs : h.str p = some (ds ++ (w ++ d :: v))) :
    ∃ h', h.strtokR p delim = some (some (p + ds.length), p + (ds.length + w.length + 1), h') ∧
      h'.str (p + ds.length) = some w ∧ h'.str (p + (ds.length + w.length + 1)) = some v ∧
      Within h h' (p + (ds.length + w.length)) 1 := by
  have hskip := skip_delims hds hne hw (d :: v)
  have hspan := span_append (f := (· ∉ delim)) (u := w) (v := d :: v) (by simpa using hw) (by simpa using hd)
  have htok := str_append hs
  have hrest := str_append htok
  rw [Ptr.add_add] at hrest
  obtain ⟨hl, -, hv⟩ := str_cons.mp hrest
  obtain ⟨h', hst⟩ := store_some hl 0
  have hwithin := store_within hst
  refine ⟨h', ?_, ?_, ?_, hwithin⟩
  · simp only [Heap.strtokR, hs, Option.bind_eq_bind, Option.bind_some, hskip.1, hskip.2, List.append_eq_nil_iff,
      hne, false_and, if_false, hspan.1, hspan.2, reduceCtorEq, Ptr.add_add, hst]
    rfl
  · refine str_cut (n := 1) htok ?_ ?_
    · rw [Ptr.add_add]
      exact hwithin
    · rw [Ptr.add_add]
      exact store_load hst
  · rw [Ptr.add_add] at hv
    exact hwithin.str hv (.inr (.inr (by simp only [Ptr.add_off]; omega)))

end

/-- The call of strtok_r in terms of `tok`. -/
theorem strtokR_spec (hs : h.str p = some text) (delim : Str) :
    ∃ t save h', h.strtokR p delim = some (t, save, h') ∧ save.block = p.block ∧
      h'.str save = some (tok delim text).2 ∧ Within h h' p text.length ∧
      ((t = none ∧ (tok delim text).1 = none) ∨
        ∃ q w, t = some q ∧ q.block = p.block ∧ (tok delim text).1 = some w ∧ h'.str q = some w) := by
  rcases toks_cases delim text with hds | ⟨ds, w, hds, hne, hw, htext⟩
  · have hnil := str_append (v := []) (by rw [List.append_nil]; exact hs)
    rw [tok_delims hds]
    exact ⟨none, _, h, strtokR_none hds hs, rfl, hnil, .refl h p _, .inl ⟨rfl, rfl⟩⟩
  · rcases htext with rfl | ⟨d, v, hd, rfl⟩
    · have hnil := str_append (v := []) (by rw [List.append_nil]; exact hs)
      rw [List.length_append] at hnil
      rw [tok_last hds hne hw]
      exact ⟨_, _, h, strtokR_last hds hne hw hs, rfl, hnil, .refl h p _,
        .inr ⟨_, w, rfl, rfl, rfl, str_append hs⟩⟩
    · obtain ⟨h', htok, hsw, hsv, hwithin⟩ := strtokR_token hds hne hw hd hs
      rw [tok_token hds hne hw hd]
      refine ⟨_, _, h', htok, rfl, hsv, hwithin.mono rfl ?_ ?_, .inr ⟨_, w, rfl, rfl, rfl, hsw⟩⟩
      all_goals
        simp only [Ptr.add_off, List.length_append, List.length_cons]
        omega

/-! ## Loops over tokens -/

section
variable {τ : Type} {x : τ} {body : Ptr → Heap × τ → Option (Heap × τ)} {fuel : Nat} {line next q : Ptr} {h₁ : Heap}

theorem whileTok_end (htok : h.strtokR line delim = some (none, next, h₁)) :
    whileTok delim body (fuel + 1) line (h, x) = some (h₁, x) := by
  simp only [whileTok, htok, Option.bind_eq_bind, Option.bind_some]
  rfl

theorem whileTok_round (htok : h.strtokR line delim = some (some q, next, h₁)) :
    whileTok delim body (fuel + 1) line (h, x) = (body q (h₁, x)).bind (whileTok delim body fuel next) := by
  simp only [whileTok, htok, Option.bind_eq_bind, Option.bind_some]

end

section
variable {τ : Type} {x : τ} {body : Ptr → Heap × τ → Option (Heap × τ)} {I : Nat → List Str → Heap → τ → Prop}
  {b : Nat} {all : List Str} {Q : Prop}
  (hframe : ∀ o done h h' x n, I o done h x → Within h h' ⟨b, o⟩ n → I o done h' x)
  (hbody : ∀ o done w rest q h x, all = done ++ w :: rest → I o done h x → q.block = b → o ≤ q.off →
    h.str q = some w → (body q (h, x) = none ∧ Q) ∨ ∃ h' x', body q (h, x) = some (h', x') ∧
      Within h h' q w.length ∧ I (q.off + w.length + 1) (done ++ [w]) h' x')
include hframe hbody

theorem whileTok_cases (fuel : Nat) {line : Ptr} {done : List Str} (hfuel : text.length < fuel)
    (hb : line.block = b) (hall : all = done ++ toks delim text) (hs : h.str line = some text)
    (hI : I line.off done h x) : (whileTok delim body fuel line (h, x) = none ∧ Q) ∨
      ∃ h' x' o, whileTok delim body fuel line (h, x) = some (h', x') ∧ I o all h' x' ∧
        o ≤ line.off + text.length + 1 ∧ Within h h' line text.length := by
  induction fuel generalizing line done text h x with
  | zero => exact absurd hfuel (Nat.not_lt_zero _)
  | succ fuel ih =>
    rcases toks_cases delim text with hdelims | ⟨ds, w, hds, hne, hw, htext⟩
    · refine .inr ⟨h, x, line.off, whileTok_end (strtokR_none hdelims hs), ?_, by omega, .refl h line _⟩
      rw [hall, toks_delims hdelims, List.append_nil]
      exact hI
    · have hlen := List.length_pos_iff.mpr hne
      rcases htext with rfl | ⟨d, v, hd, rfl⟩
      · -- the last token; the next call finds the end of the text
        rw [toks_delims_append hds, toks_word hne hw] at hall
        obtain ⟨hnone, hQ⟩ | ⟨h₁, x₁, hb₁, hw₁, hI₁⟩ := hbody line.off done w [] (line + ds.length) h x hall hI hb
          (Nat.le_add_right _ _) (str_append hs)
        · refine .inl ⟨?_, hQ⟩
          rw [whileTok_round (strtokR_last hds hne hw hs), hnone, Option.bind_none]
        have hend : h₁.str (line + (ds.length + w.length)) = some [] := by
          have hnil := str_append (v := []) (u := ds ++ w) (by rw [List.append_nil]; exact hs)
          rw [List.length_append] at hnil
          refine hw₁.str hnil (.inr (.inr ?_))
          simp only [Ptr.add_off]
          omega
        rw [List.length_append] at hfuel ⊢
        obtain ⟨fuel, rfl⟩ : ∃ f, fuel = f + 1 := ⟨fuel - 1, by omega⟩
        have hnone := strtokR_none (by simp : ∀ c ∈ ([] : Str), c ∈ delim) hend
        refine .inr ⟨h₁, x₁, _, ?_, by rw [hall]; exact hI₁, ?_, hw₁.mono rfl ?_ ?_⟩
        · rw [whileTok_round (strtokR_last hds hne hw hs), hb₁, Option.bind_some]
          exact whileTok_end hnone
        all_goals
          simp only [Ptr.add_off]
          omega
      · rw [toks_delims_append hds, toks_append_cons hd, toks_word hne hw, List.singleton_append] at hall
        obtain ⟨h₁, htok, hsw, hsv, hw₁⟩ := strtokR_token hds hne hw hd hs
        have hI₁ : I line.off done h₁ x := by
          refine hframe _ _ h h₁ x (ds.length + w.length + 1) hI (hw₁.mono hb ?_ ?_)
          all_goals
            simp only [Ptr.add_off]
            omega
        obtain ⟨hnone, hQ⟩ | ⟨h₂, x₂, hb₂, hw₂, hI₂⟩ := hbody line.off done w _ (line + ds.length) h₁ x hall hI₁ hb
          (Nat.le_add_right _ _) hsw
        · refine .inl ⟨?_, hQ⟩
          rw [whileTok_round htok, hnone, Option.bind_none]
        have hsv₂ : h₂.str (line + (ds.length + w.length + 1)) = some v := by
          refine hw₂.str hsv (.inr (.inr ?_))
          simp only [Ptr.add_off]
          omega
        simp only [List.length_append, List.length_cons] at hfuel ⊢
        have hI₂' : I (line + (ds.length + w.length + 1)).off (done ++ [w]) h₂ x₂ := by
          have ho : (line + (ds.length + w.length + 1)).off = (line + ds.length).off + w.length + 1 := by
            simp only [Ptr.add_off]
            omega
          rw [ho]
          exact hI₂
        have hb' : (line + (ds.length + w.length + 1)).block = b := hb
        have hlt : v.length < fuel := by omega
        obtain ⟨hnone, hQ⟩ | ⟨h', x', o, hloop, hI', ho, hw'⟩ := ih hlt hb' (by rw [hall]; simp) hsv₂ hI₂'
        · refine .inl ⟨?_, hQ⟩
          rw [whileTok_round htok, hb₂, Option.bind_some]
          exact hnone
        refine .inr ⟨h', x', o, ?_, hI', ?_, ?_⟩
        · rw [whileTok_round htok, hb₂, Option.bind_some]
          exact hloop
        · simp only [Ptr.add_off] at ho
          omega
        · have hwithin₁ : Within h h₁ line (ds.length + (w.length + (v.length + 1))) := by
            refine hw₁.mono rfl ?_ ?_
            all_goals
              simp only [Ptr.add_off]
              omega
          refine (hwithin₁.trans hw₂ (.inr ⟨rfl, ?_, ?_⟩)).trans hw' (.inr ⟨rfl, ?_, ?_⟩)
          all_goals
            simp only [Ptr.add_off]
            omega

/-- `I o done` speaks of what was made of the tokens before the offset `o`; `Q` holds when a round
    is undefined. -/
theorem tokens_cases {line : Ptr} (hb : line.block = b) (hall : all = toks delim text)
    (hs : h.str line = some text) (hI : I line.off [] h x) : (tokens delim body line (h, x) = none ∧ Q) ∨
      ∃ h' x' o, tokens delim body line (h, x) = some (h', x') ∧ I o all h' x' ∧
        o ≤ line.off + text.length + 1 ∧ Within h h' line text.length := by
  have hrun : tokens delim body line (h, x) = whileTok delim body (text.length + 1) line (h, x) := by
    simp only [tokens, Heap.strlen, hs, Option.map_some, Option.bind_eq_bind, Option.bind_some]
  rw [hrun]
  exact whileTok_cases hframe hbody (text.length + 1) (Nat.lt_succ_self _) hb (by rw [hall]; rfl) hs hI

end

end EC440.Lib
