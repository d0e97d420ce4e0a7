/-
  Calls that return -1. In every state a session reaches, every call that fails leaves the
  state as it was, with two exceptions.

  fs_write takes its blocks one by one and returns -1 when none is left, with the blocks it got
  on the file's chain; and it returns -1 after taking blocks when the file's size, stored from a
  negative length by fs_truncate, asks for more blocks than the chain has. fs_read returns the
  number of bytes up to the end of the file, which is -1 for an offset one behind the end, and
  moves the offset. `LeavesTrace` says when.
-/
import EC440.FileSystem.Offsets

namespace EC440.FileSystem

open EC440.Lib

variable {s s' : FS} {ch : Int → List Int} {fd i r : Int} {buf : List UInt8} {nbyte : Nat}

/-- The free data blocks. -/
def freeBlocks (s : FS) : List Int :=
  ((List.range diskBlocks.toNat).map Int.ofNat).filter fun j => decide (DataBlock j) && s.usedBlockBitmap j == 0

theorem mem_freeBlocks {j : Int} : j ∈ freeBlocks s ↔ DataBlock j ∧ s.usedBlockBitmap j = 0 := by
  unfold freeBlocks
  rw [List.mem_filter, Bool.and_eq_true, decide_eq_true_eq, beq_iff_eq, List.mem_map]
  constructor
  · intro h
    exact h.2
  · intro h
    refine ⟨⟨j.toNat, ?_, ?_⟩, h⟩
    · have := h.1.inBlocks
      unfold InBlocks at this
      exact List.mem_range.mpr (by omega)
    · exact Int.toNat_of_nonneg h.1.inBlocks.1

theorem freeBlocks_nodup (s : FS) : (freeBlocks s).Nodup :=
  (List.nodup_range.map fun _ _ h => Int.ofNat.inj h).filter _

/-- The allocation loop takes free blocks, and all of them when it stops early. -/
theorem Grow.length_le {s₁ : FS} {head : Int} {l new : List Int} (h : Grow s s₁ head l new) :
    new.length ≤ (freeBlocks s).length :=
  (List.subperm_of_subset (List.nodup_append.mp h.nodup).2.1 fun _ hb => mem_freeBlocks.mpr (h.fresh _ hb)).length_le

theorem Grow.length_eq {s₁ : FS} {head : Int} {l new : List Int} (h : Grow s s₁ head l new)
    (hfull : ∀ j, DataBlock j → s₁.usedBlockBitmap j ≠ 0) : new.length = (freeBlocks s).length := by
  refine le_antisymm h.length_le (List.subperm_of_subset (freeBlocks_nodup s) fun b hb => ?_).length_le
  obtain ⟨hd, h0⟩ := mem_freeBlocks.mp hb
  have hused := hfull b hd
  rw [h.bitmap] at hused
  by_contra hn
  rw [if_neg hn] at hused
  exact hused h0

/-- A block taken is seen in the bitmap. -/
theorem Grow.ne {s₁ : FS} {head : Int} {l new : List Int} (h : Grow s s₁ head l new) (hne : new ≠ []) : s₁ ≠ s := by
  intro he
  obtain ⟨b, rest, rfl⟩ := List.exists_cons_of_ne_nil hne
  have hb := h.bitmap b
  rw [he, if_pos List.mem_cons_self, (h.fresh b List.mem_cons_self).2] at hb
  cases hb

/-! ## fs_read -/

/-- fs_write's reading loop fails behind the end of the chain. -/
theorem readAll_short : ∀ (n : Nat) {o : Option Int} {l : List Int} (k : Nat) (buffer : Buf),
    Linked (nextOf s.table) o l → l.length < n → readAll s n (o.getD (-1)) k buffer = none := by
  intro n
  induction n with
  | zero => exact fun _ _ _ hlt => absurd hlt (Nat.not_lt_zero _)
  | succ n ih =>
      intro o l k buffer hl hlt
      unfold readAll
      split
      · rfl
      · next buf hread =>
          cases l with
          | nil =>
              rw [Linked, seg_nil] at hl
              rw [hl] at hread
              have := (blockRead_range hread).1
              exact absurd this (by decide)
          | cons b l =>
              simp only [Linked, seg_cons] at hl
              obtain ⟨rfl, hl⟩ := hl
              have := ih (k + 1) buf hl (by simpa using hlt)
              rwa [nextOf_getD] at this

/-- Behind its allocation loop fs_write fails exactly when the chain is too short for the size
    in the entry. -/
theorem Files.writeData_trace {nb : Int} (h : Files (· = 1) s ch) (hd : s.disk.Ready) (hi : Used s.directory i)
    (h0 : 0 ≤ nb) (hroom : (sizeT ((s.fdArray fd).offset + nb - 1) / blockSize).toNat < (ch i).length)
    (hc : writeData s fd i buf nb = some (r, s')) :
    (r ≠ -1 ∧ blocksOf (s.directory i).size ≤ (ch i).length) ∨
      (r = -1 ∧ s' = s ∧ (ch i).length < blocksOf (s.directory i).size) := by
  have hL : 1 ≤ (ch i).length := by omega
  have hchain := h.chains.chain i hi
  have hin : ∀ b ∈ ch i, InBlocks b := fun b hb => (h.chains.blocks i hi b hb).1.inBlocks
  have hint := (h.shape.dir.entry i hi.1).size
  -- a size that the call raises is covered by the chain, before and after
  have hgrown : sizeT (s.directory i).size < sizeT ((s.fdArray fd).offset + nb) →
      blocksOf (s.directory i).size ≤ (ch i).length ∧
        blocksOf (toInt32 ((s.fdArray fd).offset + nb)) ≤ (ch i).length := by
    intro hlt
    have h2 := toInt32_le_sizeT ((s.fdArray fd).offset + nb)
    have h3 := sizeT_nonneg ((s.fdArray fd).offset + nb - 1)
    rw [blocksOf_le hL, blocksOf_le hL]
    unfold IsInt32 at hint
    unfold sizeT at *
    unfold blockSize at *
    omega
  obtain ⟨size, n, hsize, hn, hrest⟩ := writeData_returns hc
  have hcover : blocksOf size ≤ (ch i).length → blocksOf (s.directory i).size ≤ (ch i).length := by
    intro hle
    split at hsize
    · next hlt => exact (hgrown hlt).1
    · rw [← hsize]; exact hle
  obtain ⟨-, hn31⟩ := extent_lt hn
  have hcount := extent_le_iff hn hL
  by_cases hle : blocksOf size ≤ (ch i).length
  · obtain ⟨buffer, hread, -⟩ := readAll_spec (s := setSize s i size) hd n.toNat 0 (fun _ => 0) hchain hin
      (hcount.mpr hle)
    rw [Option.getD_some] at hread
    rw [hread] at hrest
    obtain ⟨hnone, -⟩ | ⟨buffer', ok, s₁, hb, hoff, hfit, -, hw, hs⟩ := hrest
    · cases hnone
    obtain ⟨d, hwrite, -⟩ := writeAll_spec n.toNat (s := setSize s i size) 0
      (memcpy buffer' (s.fdArray fd).offset.toNat (fun k => buf.getD k 0) nb.toNat) hd hchain hin
      (h.chains.nodup i hi) (hcount.mpr hle)
    rw [Option.getD_some, hw, Prod.mk.injEq] at hwrite
    obtain ⟨hfail, -⟩ | ⟨-, hr, -⟩ := hs
    · rw [hfail] at hwrite
      exact absurd hwrite.1 (by decide)
    · rw [toInt32_of_isInt32 (by unfold IsInt32; omega)] at hr
      exact .inl ⟨by omega, hcover hle⟩
  · have hread := readAll_short (s := setSize s i size) n.toNat 0 (fun _ => 0) hchain (by omega)
    rw [Option.getD_some] at hread
    rw [hread] at hrest
    obtain ⟨-, hr, hs⟩ | ⟨buffer, ok, s₁, hsome, -⟩ := hrest
    · split at hsize
      · next hlt => rw [hsize] at hle; exact absurd (hgrown hlt).2 hle
      · refine .inr ⟨hr, ?_, by rw [← hsize]; omega⟩
        rw [hs, hsize]
        unfold setSize
        rw [Function.update_eq_self]
    · cases hsome

end EC440.FileSystem
