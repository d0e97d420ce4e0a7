/-
  The bytes of a file: what its blocks hold, and what the reading and writing loops of fs_read
  and fs_write do to them on an open disk.
-/
import EC440.FileSystem.Calls

namespace EC440.FileSystem

open EC440.Lib

/-- The bytes of the blocks `l`, one after the other. -/
def blockBytes (d : Disk) (l : List Int) : Buf := fun p =>
  match l[p / blockSize]? with
  | some b => d.block b (p % blockSize)
  | none => 0

/-- The bytes of the file with entry `e`. -/
def content (s : FS) (e : DirectoryEntry) : List UInt8 :=
  (List.range e.size.toNat).map (blockBytes s.disk (fileBlocks s.table e.inodeNumber))

theorem blockBytes_congr {d d' : Disk} {l : List Int}
    (h : ∀ b ∈ l, ∀ k, k < blockSize → d'.block b k = d.block b k) : blockBytes d' l = blockBytes d l := by
  funext p
  unfold blockBytes
  split
  · next b hb => exact h b (List.mem_of_getElem? hb) _ (Nat.mod_lt _ (by decide))
  · rfl

theorem blockBytes_cons_lt {d : Disk} {b : Int} {l : List Int} {p : Nat} (h : p < blockSize) :
    blockBytes d (b :: l) p = d.block b p := by
  unfold blockBytes
  rw [Nat.div_eq_of_lt h, Nat.mod_eq_of_lt h]
  rfl

theorem blockBytes_cons_ge {d : Disk} {b : Int} {l : List Int} {p : Nat} (h : blockSize ≤ p) :
    blockBytes d (b :: l) p = blockBytes d l (p - blockSize) := by
  have h1 : p / blockSize = (p - blockSize) / blockSize + 1 := by unfold blockSize at *; omega
  have h2 : p % blockSize = (p - blockSize) % blockSize := by unfold blockSize at *; omega
  unfold blockBytes
  rw [h1, h2, List.getElem?_cons_succ]

theorem blockBytes_append {d : Disk} {l l' : List Int} {p : Nat} (h : p < blockSize * l.length) :
    blockBytes d (l ++ l') p = blockBytes d l p := by
  unfold blockBytes
  rw [List.getElem?_append_left (Nat.div_lt_of_lt_mul h)]

section Loops

variable {s : FS}

/-- fs_write's reading loop, from block `i` of the buffer on. -/
theorem readAll_spec (hd : s.disk.Ready) : ∀ (n : Nat) {o : Option Int} {l : List Int} (i : Nat)
    (buffer : Buf), Linked (nextOf s.table) o l → (∀ b ∈ l, InBlocks b) → n ≤ l.length →
    ∃ buf, readAll s n (o.getD (-1)) i buffer = some buf ∧ ∀ p, buf p =
      if i * blockSize ≤ p ∧ p < (i + n) * blockSize then blockBytes s.disk l (p - i * blockSize)
      else buffer p
  | 0, o, l, i, buffer, _, _, _ => by
      refine ⟨buffer, rfl, fun p => ?_⟩
      rw [if_neg (by unfold blockSize; omega)]
  | n + 1, o, [], i, buffer, _, _, hn => by simp at hn
  | n + 1, o, b :: l, i, buffer, hl, hin, hn => by
      simp only [Linked, seg_cons] at hl
      obtain ⟨rfl, hl⟩ := hl
      obtain ⟨hb, hin⟩ := List.forall_mem_cons.mp hin
      rw [List.length_cons] at hn
      simp only [readAll, Option.getD_some, blockRead_ready hd hb.1 hb.2]
      obtain ⟨buf, hrun, hbuf⟩ := readAll_spec hd n (i + 1)
        (fun p => if i * blockSize ≤ p ∧ p < i * blockSize + blockSize then
          s.disk.block b (p - i * blockSize) else buffer p) hl hin (by omega)
      rw [nextOf_getD] at hrun
      refine ⟨buf, hrun, fun p => ?_⟩
      rw [hbuf]
      unfold blockSize
      by_cases h1 : p < (i + 1) * 4096
      · rw [if_neg (by omega)]
        by_cases h2 : i * 4096 ≤ p
        · rw [if_pos (by omega), if_pos (by omega), blockBytes_cons_lt (by unfold blockSize; omega)]
        · rw [if_neg (by omega), if_neg (by omega)]
      · by_cases h2 : p < (i + (n + 1)) * 4096
        · rw [if_pos (by omega), if_pos (by omega),
            blockBytes_cons_ge (by unfold blockSize; omega),
            show p - i * 4096 - blockSize = p - (i + 1) * 4096 by unfold blockSize; omega]
        · rw [if_neg (by omega), if_neg (by omega), if_neg (by omega)]

/-- fs_read's loop also stops at the end of the chain, which comes no earlier. -/
theorem readFile_eq_readAll (hd : s.disk.Ready) : ∀ (n : Nat) {o : Option Int} {l : List Int} (i : Nat)
    (buffer : Buf), Linked (nextOf s.table) o l → (∀ b ∈ l, InBlocks b) → n ≤ l.length →
    readFile s n (o.getD (-1)) i buffer = readAll s n (o.getD (-1)) i buffer
  | 0, _, _, _, _, _, _, _ => rfl
  | n + 1, o, [], i, buffer, _, _, hn => by simp at hn
  | n + 1, o, b :: l, i, buffer, hl, hin, hn => by
      simp only [Linked, seg_cons] at hl
      obtain ⟨rfl, hl⟩ := hl
      obtain ⟨hb, hin⟩ := List.forall_mem_cons.mp hin
      rw [List.length_cons] at hn
      simp only [readFile, readAll, Option.getD_some, blockRead_ready hd hb.1 hb.2]
      have ih := fun buf => readFile_eq_readAll hd n (i + 1) buf hl hin (by omega)
      simp only [nextOf_getD] at ih
      split
      · next hnext =>
          -- the chain ends here, so no block is left to read
          rw [nextOf_eq_none.mpr hnext] at hl
          have : l = [] := by
            cases l with
            | nil => rfl
            | cons c l => simp at hl
          subst this
          obtain rfl : n = 0 := by simpa using hn
          rfl
      · exact ih _

/-- fs_write's writing loop. -/
theorem writeAll_spec : ∀ (n : Nat) {s : FS} {o : Option Int} {l : List Int} (i : Nat) (buffer : Buf),
    s.disk.Ready → Linked (nextOf s.table) o l → (∀ b ∈ l, InBlocks b) → l.Nodup → n ≤ l.length →
    ∃ d, writeAll n s (o.getD (-1)) i buffer = (true, { s with disk := d }) ∧ d.Ready ∧
      d.handle = s.disk.handle ∧
      (∀ p, p < n * blockSize → blockBytes d l p = buffer (i * blockSize + p)) ∧
      (∀ p, n * blockSize ≤ p → blockBytes d l p = blockBytes s.disk l p) ∧
      ∀ c, InBlocks c → c ∉ l → ∀ k, k < blockSize → d.block c k = s.disk.block c k
  | 0, s, o, l, i, buffer, hd, _, _, _, _ =>
      ⟨s.disk, rfl, hd, rfl, fun p hp => by simp at hp, fun _ _ => rfl, fun _ _ _ _ _ => rfl⟩
  | n + 1, s, o, [], i, buffer, _, _, _, _, hn => by simp at hn
  | n + 1, s, o, b :: l, i, buffer, hd, hl, hin, hnd, hn => by
      simp only [Linked, seg_cons] at hl
      obtain ⟨rfl, hl⟩ := hl
      obtain ⟨hb, hin⟩ := List.forall_mem_cons.mp hin
      obtain ⟨hbl, hnd⟩ := List.nodup_cons.mp hnd
      rw [List.length_cons] at hn
      obtain ⟨d₁, hw, hr₁, hh₁, hblk⟩ := blockWrite_ready hd hb.1 hb.2 buffer (i * blockSize)
      obtain ⟨d, hrun, hr, hh, hlt, hge, hout⟩ := writeAll_spec n (s := { s with disk := d₁ }) (i + 1)
        buffer hr₁ hl hin hnd (by omega)
      dsimp only at hh hge hout
      rw [nextOf_getD] at hrun
      have hbd : ∀ k, k < blockSize → d.block b k = buffer (i * blockSize + k) := by
        intro k hk
        rw [hout b hb hbl k hk, hblk b k hb.1 hb.2 hk, if_pos rfl]
      refine ⟨d, ?_, hr, hh.trans hh₁, fun p hp => ?_, fun p hp => ?_, fun c hc hcl k hk => ?_⟩
      · simp only [writeAll, Option.getD_some, hw]
        exact hrun
      · by_cases h1 : p < blockSize
        · rw [blockBytes_cons_lt h1, hbd p h1]
        · rw [blockBytes_cons_ge (by omega), hlt (p - blockSize) (by unfold blockSize at *; omega),
            show (i + 1) * blockSize + (p - blockSize) = i * blockSize + p by
              unfold blockSize at *; omega]
      · have h1 : blockSize ≤ p := by unfold blockSize at hp ⊢; omega
        have h2 : n * blockSize ≤ p - blockSize := by
          rw [Nat.succ_mul] at hp
          exact Nat.le_sub_of_add_le hp
        rw [blockBytes_cons_ge h1, blockBytes_cons_ge h1, hge (p - blockSize) h2]
        refine congrFun (blockBytes_congr fun c hc k hk => ?_) _
        rw [hblk c k (hin c hc).1 (hin c hc).2 hk, if_neg (by rintro rfl; exact hbl hc)]
      · rw [List.mem_cons, not_or] at hcl
        rw [hout c hc hcl.2 k hk, hblk c k hc.1 hc.2 hk, if_neg hcl.1]

end Loops

end EC440.FileSystem
