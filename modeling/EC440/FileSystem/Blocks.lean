/-
  Chains of blocks in the inode table, and what the loops of fs.c do to them.

  `nextOf table` reads a cell's `next_direct_offset` as a link (-1 is the end), so that
  `Linked (nextOf table) (some b) l` says that the file whose first block is `b` has the
  blocks `l`. One lemma for each loop: `growChain_spec` (fs_write's allocation),
  `freeChain_spec` (fs_delete), `skipChain_spec` and `cutChain_spec` (fs_truncate).
-/
import EC440.Lib.Chain
import EC440.FileSystem.Fs
import Mathlib.Data.List.Perm.Basic

namespace EC440.FileSystem

open EC440.Lib

/-- A block of the data part of a disk made by make_fs. -/
def DataBlock (b : Int) : Prop := makeSuper.dataOffset ≤ b ∧ b < diskBlocks

instance (b : Int) : Decidable (DataBlock b) := inferInstanceAs (Decidable (_ ∧ _))

theorem dataBlock_iff {b : Int} : DataBlock b ↔ 20 ≤ b ∧ b < 8192 := Iff.rfl

theorem DataBlock.inBlocks {b : Int} (h : DataBlock b) : InBlocks b := by
  rw [dataBlock_iff] at h
  exact ⟨by omega, h.2⟩

/-- The link of a cell of the inode table: -1 ends the chain. -/
def nextOf (table : Int → Inode) (b : Int) : Option Int :=
  if (table b).nextDirectOffset = -1 then none else some (table b).nextDirectOffset

theorem nextOf_eq_none {table : Int → Inode} {b : Int} :
    nextOf table b = none ↔ (table b).nextDirectOffset = -1 := by
  simp [nextOf]

theorem nextOf_eq_some {table : Int → Inode} {b c : Int} :
    nextOf table b = some c ↔ (table b).nextDirectOffset = c ∧ c ≠ -1 := by
  unfold nextOf
  split <;> simp <;> omega

theorem nextOf_congr {table table' : Int → Inode} {b : Int}
    (h : (table' b).nextDirectOffset = (table b).nextDirectOffset) :
    nextOf table' b = nextOf table b := by
  unfold nextOf; rw [h]

theorem nextOf_getD (table : Int → Inode) (b : Int) :
    (nextOf table b).getD (-1) = (table b).nextDirectOffset := by
  unfold nextOf
  split
  · next h => rw [h]; rfl
  · rfl

@[simp] theorem setNext_self (table : Int → Inode) (b v : Int) :
    (setNext table b v b).nextDirectOffset = v := by
  simp [setNext]

theorem setNext_of_ne {table : Int → Inode} {b c : Int} (h : c ≠ b) (v : Int) :
    setNext table b v c = table c := by
  simp [setNext, h]

/-- The link of a cell as long as it stays in the table. -/
def linkOf (table : Int → Inode) (b : Int) : Option Int :=
  if InBlocks (table b).nextDirectOffset then some (table b).nextDirectOffset else none

/-- The blocks of the file that starts at `b`, as far as its links lead. -/
def fileBlocks (table : Int → Inode) (b : Int) : List Int :=
  walk (linkOf table) diskBlocks.toNat (some b)

/-- A chain inside the table is met by either reading of the links. -/
theorem linked_linkOf {table : Int → Inode} : ∀ {l : List Int} {o : Option Int},
    Linked (nextOf table) o l → (∀ b ∈ l, InBlocks b) → Linked (linkOf table) o l
  | [], _, h, _ => h
  | a :: l, o, h, hl => by
      simp only [Linked, seg_cons] at h ⊢
      refine ⟨h.1, ?_⟩
      have hl' : ∀ b ∈ l, InBlocks b := fun b hb => hl b (List.mem_cons_of_mem a hb)
      have hlink : linkOf table a = nextOf table a := by
        unfold linkOf
        cases hn : nextOf table a with
        | none =>
            rw [if_neg]
            rw [nextOf_eq_none.mp hn]
            decide
        | some c =>
            have hc : InBlocks c := by
              rw [hn] at h
              exact hl' c (Linked.head_mem h.2)
            rw [(nextOf_eq_some.mp hn).1, if_pos hc]
      rw [hlink]
      exact linked_linkOf h.2 hl'

/-- A chain of different data blocks fits the walk. -/
theorem length_le_of_dataBlocks {l : List Int} (hnd : l.Nodup) (hl : ∀ b ∈ l, DataBlock b) :
    l.length ≤ diskBlocks.toNat := by
  have hsub : l.map Int.toNat ⊆ List.range diskBlocks.toNat := by
    intro k hk
    obtain ⟨b, hb, rfl⟩ := List.mem_map.mp hk
    have := dataBlock_iff.mp (hl b hb)
    exact List.mem_range.mpr (by simp only [diskBlocks]; omega)
  have hnd' : (l.map Int.toNat).Nodup := by
    refine List.Nodup.map_on (fun a ha b hb hab => ?_) hnd
    have h1 := dataBlock_iff.mp (hl a ha)
    have h2 := dataBlock_iff.mp (hl b hb)
    omega
  simpa using (List.subperm_of_subset hnd' hsub).length_le

theorem fileBlocks_eq {table : Int → Inode} {b : Int} {l : List Int}
    (h : Linked (nextOf table) (some b) l) (hnd : l.Nodup) (hl : ∀ b ∈ l, DataBlock b) :
    fileBlocks table b = l :=
  (linked_linkOf h fun b hb => (hl b hb).inBlocks).walk_eq (length_le_of_dataBlocks hnd hl)

/-! ## fs_write's allocation loop -/

/-- `s'` is `s` with the chain `l` from `head` extended by the blocks `new`, which were free. -/
structure Grow (s s' : FS) (head : Int) (l new : List Int) : Prop where
  same : s' = { s with table := s'.table, usedBlockBitmap := s'.usedBlockBitmap }
  chain : Linked (nextOf s'.table) (some head) (l ++ new)
  nodup : (l ++ new).Nodup
  fresh : ∀ b ∈ new, DataBlock b ∧ s.usedBlockBitmap b = 0
  bitmap : ∀ b, s'.usedBlockBitmap b = if b ∈ new then 1 else s.usedBlockBitmap b
  frame : ∀ b, b ∉ l → b ∉ new → s'.table b = s.table b

theorem Grow.refl {s : FS} {head : Int} {l : List Int} (h : Linked (nextOf s.table) (some head) l)
    (hnd : l.Nodup) : Grow s s head l [] where
  same := rfl
  chain := by simpa using h
  nodup := by simpa using hnd
  fresh := by simp
  bitmap := by simp
  frame := fun _ _ _ => rfl

theorem Grow.trans {s₁ s₂ s₃ : FS} {head : Int} {l m n : List Int} (h : Grow s₁ s₂ head l m)
    (h' : Grow s₂ s₃ head (l ++ m) n) : Grow s₁ s₃ head l (m ++ n) where
  same := by rw [h'.same, h.same]
  chain := by rw [← List.append_assoc]; exact h'.chain
  nodup := by rw [← List.append_assoc]; exact h'.nodup
  fresh := by
    intro b hb
    rcases List.mem_append.mp hb with hb | hb
    · exact h.fresh b hb
    · obtain ⟨h1, h2⟩ := h'.fresh b hb
      refine ⟨h1, ?_⟩
      rw [h.bitmap] at h2
      split at h2
      · simp at h2
      · exact h2
  bitmap := by
    intro b
    rw [h'.bitmap, h.bitmap]
    by_cases h1 : b ∈ n <;> by_cases h2 : b ∈ m <;> simp [h1, h2]
  frame := by
    intro b hl hmn
    rw [List.mem_append] at hmn
    push Not at hmn
    rw [h'.frame b (by rw [List.mem_append]; push Not; exact ⟨hl, hmn.1⟩) hmn.2,
      h.frame b hl hmn.1]

theorem freeBlock_eq_some {s : FS} {j : Int} (hs : s.super = makeSuper)
    (h : freeBlock s = some j) : DataBlock j ∧ s.usedBlockBitmap j = 0 := by
  unfold freeBlock at h
  rw [hs, firstIn_eq_some] at h
  obtain ⟨h1, h2, h3, _⟩ := h
  exact ⟨⟨h1, h2⟩, by simpa using h3⟩

theorem freeBlock_eq_none {s : FS} (hs : s.super = makeSuper) :
    freeBlock s = none ↔ ∀ j, DataBlock j → s.usedBlockBitmap j ≠ 0 := by
  unfold freeBlock
  rw [hs, firstIn_eq_none]
  constructor
  · intro h j hj; simpa using h j hj.1 hj.2
  · intro h j h1 h2; simpa using h j ⟨h1, h2⟩

/-- One allocation: the free block `j` linked behind the last block `a`. -/
theorem grow_one {s : FS} {head a j : Int} {pre : List Int}
    (hc : Linked (nextOf s.table) (some head) (pre ++ [a])) (hnd : (pre ++ [a]).Nodup)
    (hl : ∀ b ∈ pre ++ [a], DataBlock b ∧ s.usedBlockBitmap b ≠ 0) (hj : DataBlock j)
    (hfree : s.usedBlockBitmap j = 0) :
    Grow s { s with
        usedBlockBitmap := Function.update s.usedBlockBitmap j 1
        table := setNext (setNext s.table a j) j (-1) } head (pre ++ [a]) [j] := by
  have hjl : j ∉ pre ++ [a] := fun h => (hl j h).2 hfree
  have haj : a ≠ j := by rintro rfl; simp at hjl
  have hj' := dataBlock_iff.mp hj
  have hnext : ∀ b, nextOf (setNext (setNext s.table a j) j (-1)) b =
      Function.update (Function.update (nextOf s.table) a (some j)) j none b := by
    intro b
    by_cases hbj : b = j
    · subst hbj; rw [Function.update_self, nextOf_eq_none, setNext_self]
    · rw [Function.update_of_ne hbj]
      by_cases hba : b = a
      · subst hba
        rw [Function.update_self, nextOf_eq_some, setNext_of_ne hbj, setNext_self]
        exact ⟨rfl, by omega⟩
      · rw [Function.update_of_ne hba]
        exact nextOf_congr (by rw [setNext_of_ne hbj, setNext_of_ne hba])
  exact
    { same := rfl
      chain := (hc.snoc hnd hjl).congr fun b _ => hnext b
      nodup := by
        rw [List.nodup_append]
        refine ⟨hnd, List.nodup_singleton j, fun x hx y hy => ?_⟩
        rw [List.mem_singleton] at hy
        subst hy
        rintro rfl
        exact hjl hx
      fresh := fun b hb => by
        rw [List.mem_singleton] at hb
        subst hb
        exact ⟨hj, hfree⟩
      bitmap := fun b => by
        by_cases hb : b = j
        · subst hb; simp
        · simp [hb]
      frame := fun b hb hbj => by
        have h1 : b ≠ j := by simpa using hbj
        have h2 : b ≠ a := by rintro rfl; simp at hb
        simp only [setNext_of_ne h1, setNext_of_ne h2] }

/-- The loop started at a block `a` of the chain and run `n` times: it either brings the chain
    to `n` blocks after `a`, adding only what is missing, or stops with no free block left. -/
theorem growChain_spec {head : Int} : ∀ (n : Nat) (s : FS) (pre post : List Int) (a : Int),
    s.super = makeSuper → Linked (nextOf s.table) (some head) (pre ++ a :: post) →
    (pre ++ a :: post).Nodup → (∀ b ∈ pre ++ a :: post, DataBlock b ∧ s.usedBlockBitmap b ≠ 0) →
    ∃ ok s' new, growChain n s a = some (ok, s') ∧ Grow s s' head (pre ++ a :: post) new ∧
      (ok = true → new.length = n - post.length) ∧
      (ok = false → ∀ j, DataBlock j → s'.usedBlockBitmap j ≠ 0) ∧
      (ok = false → new.length < n - post.length) ∧ (new = [] → s' = s)
  | 0, s, pre, post, a, _, hc, hnd, _ =>
      ⟨true, s, [], rfl, Grow.refl hc hnd, by simp, by simp, by simp, fun _ => rfl⟩
  | n + 1, s, pre, post, a, hs, hc, hnd, hl => by
      have ha : InBlocks a := (hl a (by simp)).1.inBlocks
      obtain ⟨m, h1, h2⟩ := seg_append.mp hc
      rw [seg_cons] at h2
      by_cases hn : (s.table a).nextDirectOffset = -1
      · -- `a` is the last block of the chain
        have hpost : post = [] := by
          have h3 := h2.2
          rw [nextOf_eq_none.mpr hn] at h3
          cases post with
          | nil => rfl
          | cons c l => rw [seg_cons] at h3; exact absurd h3.1 (by simp)
        subst hpost
        cases hf : freeBlock s with
        | none =>
            refine ⟨false, s, [], ?_, Grow.refl hc hnd, by simp, fun _ => (freeBlock_eq_none hs).mp hf,
              by simp, fun _ => rfl⟩
            simp only [growChain, ha, not_true, if_false, hn, if_true, hf]
            rw [hs]
            rfl
        | some j =>
            obtain ⟨hj, hfree⟩ := freeBlock_eq_some hs hf
            have hg := grow_one hc hnd hl hj hfree
            have haj : a ≠ j := by rintro rfl; exact (hl a (by simp)).2 hfree
            obtain ⟨ok, s', new, hrun, hg', hlen, hfull, hshort, -⟩ := growChain_spec n
              { s with
                usedBlockBitmap := Function.update s.usedBlockBitmap j 1
                table := setNext (setNext s.table a j) j (-1) } (pre ++ [a]) [] j
              hs (by simpa using hg.chain) (by simpa using hg.nodup) (by
                intro b hb
                have hb' : b ∈ pre ++ [a] ∨ b = j := by
                  simpa [or_assoc] using hb
                rw [hg.bitmap]
                rcases hb' with hb' | rfl
                · refine ⟨(hl b hb').1, ?_⟩
                  split
                  · simp
                  · exact (hl b hb').2
                · exact ⟨hj, by simp⟩)
            refine ⟨ok, s', [j] ++ new, ?_, hg.trans (by simpa using hg'), fun h => ?_, hfull, fun h => ?_,
              by simp⟩
            · have hstep : (setNext (setNext s.table a j) j (-1) a).nextDirectOffset = j := by
                rw [setNext_of_ne haj, setNext_self]
              simp only [growChain, ha, not_true, if_false, hn, if_true, hf]
              rw [if_neg (by rw [hs]; decide), hstep]
              exact hrun
            · simp [hlen h]
            · simpa using hshort h
      · -- the chain goes on behind `a`
        cases post with
        | nil =>
            rw [seg_nil] at h2
            exact absurd (nextOf_eq_none.mp h2.2) hn
        | cons c post =>
            rw [seg_cons, nextOf_eq_some] at h2
            obtain ⟨ok, s', new, hrun, hg, hlen, hfull, hshort, hstill⟩ := growChain_spec n s (pre ++ [a]) post c hs
              (by simpa using hc) (by simpa using hnd) (by simpa using hl)
            refine ⟨ok, s', new, ?_, by simpa using hg, fun h => ?_, hfull, fun h => ?_, hstill⟩
            · simp only [growChain, ha, not_true, if_false, hn]
              rw [h2.2.1.1]
              exact hrun
            · rw [hlen h]; simp
            · rw [List.length_cons, Nat.add_sub_add_right]; exact hshort h

/-! ## fs_delete's and fs_truncate's loops -/

/-- The table with the links of the cells `l` set to -2. -/
def unlink (table : Int → Inode) (l : List Int) : Int → Inode :=
  fun b => if b ∈ l then { table b with nextDirectOffset := -2 } else table b

/-- The bitmap with the cells `l` cleared. -/
def clearBits (bitmap : Int → UInt8) (l : List Int) : Int → UInt8 :=
  fun b => if b ∈ l then 0 else bitmap b

@[simp] theorem unlink_nil (table : Int → Inode) : unlink table [] = table := by
  funext b; simp [unlink]

@[simp] theorem clearBits_nil (bitmap : Int → UInt8) : clearBits bitmap [] = bitmap := by
  funext b; simp [clearBits]

theorem unlink_of_notMem {table : Int → Inode} {l : List Int} {b : Int} (h : b ∉ l) :
    unlink table l b = table b := by
  simp [unlink, h]

theorem unlink_cons (table : Int → Inode) (a : Int) (l : List Int) :
    unlink (setNext table a (-2)) l = unlink table (a :: l) := by
  funext b
  unfold unlink setNext
  by_cases hba : b = a
  · subst hba; by_cases hl : b ∈ l <;> simp [hl]
  · by_cases hl : b ∈ l <;> simp [hba, hl]

theorem clearBits_cons (bitmap : Int → UInt8) (a : Int) (l : List Int) :
    clearBits (Function.update bitmap a 0) l = clearBits bitmap (a :: l) := by
  funext b
  unfold clearBits
  by_cases hba : b = a
  · subst hba; by_cases hl : b ∈ l <;> simp [hl]
  · by_cases hl : b ∈ l <;> simp [hba, hl]

theorem chain_tail_setNext {table : Int → Inode} {a v : Int} {o : Option Int} {l : List Int}
    (h : Linked (nextOf table) o l) (ha : a ∉ l) : Linked (nextOf (setNext table a v)) o l :=
  h.congr fun b hb => nextOf_congr (by rw [setNext_of_ne (by rintro rfl; exact ha hb)])

/-- fs_delete's loop frees exactly the blocks of the chain. -/
theorem freeChain_spec : ∀ (n : Nat) {s : FS} {a : Int} {l : List Int},
    Linked (nextOf s.table) (some a) l → l.Nodup → (∀ b ∈ l, InBlocks b) → l.length ≤ n →
    freeChain n s a =
      some { s with usedBlockBitmap := clearBits s.usedBlockBitmap l, table := unlink s.table l }
  | 0, s, a, l, hc, _, _, hn => absurd (List.length_eq_zero_iff.mp (Nat.le_zero.mp hn)) hc.ne_nil
  | n + 1, s, a, [], hc, _, _, _ => absurd rfl hc.ne_nil
  | n + 1, s, a, b :: l, hc, hnd, hl, hn => by
      simp only [Linked, seg_cons, Option.some.injEq] at hc
      obtain ⟨rfl, hc⟩ := hc
      have hal : a ∉ l := (List.nodup_cons.mp hnd).1
      have ha : InBlocks a := hl a List.mem_cons_self
      rw [List.length_cons] at hn
      simp only [freeChain, ha, not_true, if_false]
      by_cases hnx : (s.table a).nextDirectOffset = -1
      · rw [nextOf_eq_none.mpr hnx] at hc
        have : l = [] := by
          cases l with
          | nil => rfl
          | cons c l => simp at hc
        subst this
        simp only [hnx, ne_eq, not_true, if_false]
        rw [← clearBits_cons, ← unlink_cons, clearBits_nil, unlink_nil]
      · simp only [hnx, ne_eq, not_false_iff, if_true]
        have hc' : nextOf s.table a = some (s.table a).nextDirectOffset := by
          rw [nextOf_eq_some]; exact ⟨rfl, hnx⟩
        rw [hc'] at hc
        rw [freeChain_spec n (l := l) (chain_tail_setNext hc hal) (List.nodup_cons.mp hnd).2
          (fun b hb => hl b (List.mem_cons_of_mem a hb)) (by omega)]
        simp only [clearBits_cons, unlink_cons]

/-- fs_truncate's second loop unlinks exactly the blocks of the chain. -/
theorem cutChain_spec : ∀ (n : Nat) {table : Int → Inode} {o : Option Int} {l : List Int},
    Linked (nextOf table) o l → l.Nodup → (∀ b ∈ l, InBlocks b) → l.length < n →
    cutChain n table (o.getD (-1)) = some (unlink table l)
  | 0, _, _, _, _, _, _, hn => absurd hn (Nat.not_lt_zero _)
  | n + 1, table, o, [], hc, _, _, _ => by
      simp only [Linked, seg_nil] at hc
      subst hc
      simp only [cutChain, Option.getD_none, if_true]
      rfl
  | n + 1, table, o, a :: l, hc, hnd, hl, hn => by
      simp only [Linked, seg_cons] at hc
      obtain ⟨rfl, hc⟩ := hc
      have hal : a ∉ l := (List.nodup_cons.mp hnd).1
      have ha : InBlocks a := hl a List.mem_cons_self
      have hne : a ≠ -1 := by rintro rfl; exact absurd ha.1 (by decide)
      rw [List.length_cons] at hn
      simp only [cutChain, Option.getD_some, hne, if_false, ha, if_true]
      rw [← nextOf_getD, cutChain_spec n (chain_tail_setNext hc hal) (List.nodup_cons.mp hnd).2
        (fun b hb => hl b (List.mem_cons_of_mem a hb)) (by omega), unlink_cons]

/-- fs_truncate's first loop goes `n` blocks along the chain. -/
theorem skipChain_spec {table : Int → Inode} : ∀ (pre : List Int) {a c : Int} {post : List Int},
    Linked (nextOf table) (some a) (pre ++ c :: post) → (∀ b ∈ pre, InBlocks b) →
    skipChain table pre.length a = some c
  | [], a, c, post, hc, _ => by
      simp only [Linked, List.nil_append, seg_cons, Option.some.injEq] at hc
      rw [hc.1]; rfl
  | b :: pre, a, c, post, hc, hl => by
      simp only [Linked, List.cons_append, seg_cons, Option.some.injEq] at hc
      obtain ⟨rfl, hc⟩ := hc
      simp only [skipChain, List.length_cons, hl a List.mem_cons_self, if_true]
      cases hnx : nextOf table a with
      | none => rw [hnx] at hc; cases pre <;> simp at hc
      | some d =>
          rw [hnx] at hc
          rw [(nextOf_eq_some.mp hnx).1]
          exact skipChain_spec pre hc (fun b hb => hl b (List.mem_cons_of_mem a hb))

/-- A walk along a chain that ends inside the table stands on a block of the chain. -/
theorem skipChain_split {table : Int → Inode} {c : Int} (hc : InBlocks c) :
    ∀ (n : Nat) {o : Option Int} {l : List Int}, Linked (nextOf table) o l →
      skipChain table n (o.getD (-1)) = some c → ∃ pre post, l = pre ++ c :: post ∧ pre.length = n
  | n, o, [], hl, h => by
      simp only [Linked, seg_nil] at hl
      subst hl
      cases n with
      | zero =>
          simp only [skipChain, Option.getD_none, Option.some.injEq] at h
          rw [← h] at hc
          exact absurd hc.1 (by decide)
      | succ n => simp [skipChain, InBlocks] at h
  | 0, o, a :: l, hl, h => by
      simp only [Linked, seg_cons] at hl
      obtain ⟨rfl, -⟩ := hl
      simp only [skipChain, Option.getD_some, Option.some.injEq] at h
      exact ⟨[], l, by rw [h]; rfl, rfl⟩
  | n + 1, o, a :: l, hl, h => by
      simp only [Linked, seg_cons] at hl
      obtain ⟨rfl, hl⟩ := hl
      simp only [skipChain, Option.getD_some] at h
      split at h
      · rw [← nextOf_getD] at h
        obtain ⟨pre, post, rfl, hlen⟩ := skipChain_split hc n hl h
        exact ⟨a :: pre, post, rfl, by rw [List.length_cons, hlen]⟩
      · cases h

end EC440.FileSystem
