/-
  What the calls make of used_block_bitmap. fs_create and the allocation loop of fs_write look for a
  zero in it and ask nothing more of its bytes; fs_delete only writes it; no other call uses it.

  So a state whose bitmap does not show the blocks of the files, as mount_fs leaves it, goes through
  the same calls as the state in which these blocks are marked, as long as no call allocates.
-/
import EC440.FileSystem.Stale

namespace EC440.FileSystem

open EC440.Lib

variable {s s' t t' : FS} {ch ch' : Int → List Int} {bitmap : Int → UInt8} {fd i r : Int} {buf : List UInt8}
  {nbyte : Nat}

/-! ## The calls that do not use the bitmap -/

/-- The state with another bitmap. -/
abbrev withBitmap (s : FS) (bitmap : Int → UInt8) : FS := { s with usedBlockBitmap := bitmap }

/-- What a call returns, with another bitmap in the state. -/
def putBitmap {α : Type} (x : Option (α × FS)) (bitmap : Int → UInt8) : Option (α × FS) :=
  x.map fun p => (p.1, withBitmap p.2 bitmap)

theorem readFile_withBitmap (s : FS) (bitmap : Int → UInt8) : ∀ (n : Nat) (inode : Int) (i : Nat) (buffer : Buf),
    readFile (withBitmap s bitmap) n inode i buffer = readFile s n inode i buffer := by
  intro n
  induction n with
  | zero => intro inode i buffer; rfl
  | succ n ih =>
      intro inode i buffer
      unfold readFile
      dsimp only [withBitmap]
      split
      · rfl
      split
      · rfl
      · exact ih _ _ _

theorem readAll_withBitmap (s : FS) (bitmap : Int → UInt8) : ∀ (n : Nat) (inode : Int) (i : Nat) (buffer : Buf),
    readAll (withBitmap s bitmap) n inode i buffer = readAll s n inode i buffer := by
  intro n
  induction n with
  | zero => intro inode i buffer; rfl
  | succ n ih =>
      intro inode i buffer
      unfold readAll
      dsimp only [withBitmap]
      split
      · rfl
      · exact ih _ _ _

theorem writeAll_withBitmap (bitmap : Int → UInt8) : ∀ (n : Nat) (s : FS) (inode : Int) (i : Nat) (buffer : Buf),
    writeAll n (withBitmap s bitmap) inode i buffer =
      ((writeAll n s inode i buffer).1, withBitmap (writeAll n s inode i buffer).2 bitmap) := by
  intro n
  induction n with
  | zero => intro s inode i buffer; rfl
  | succ n ih =>
      intro s inode i buffer
      unfold writeAll
      dsimp only [withBitmap]
      split
      · rfl
      · next d _ => exact ih { s with disk := d } _ _ _

theorem fsRead_withBitmap (s : FS) (bitmap : Int → UInt8) (fildes : Int) (buf : List UInt8) (nbyte : Nat) :
    fsRead (withBitmap s bitmap) fildes buf nbyte =
      (fsRead s fildes buf nbyte).map fun p => (p.1, p.2.1, withBitmap p.2.2 bitmap) := by
  unfold fsRead
  dsimp only [withBitmap]
  split
  · rfl
  split
  · rfl
  split
  · rfl
  split
  · rfl
  split
  · rfl
  rw [readFile_withBitmap s bitmap]
  split
  · rfl
  split
  · rfl
  split
  · rw [Option.map_some]
  · rw [Option.map_some]

theorem writeData_withBitmap (s : FS) (bitmap : Int → UInt8) (fildes index : Int) (buf : List UInt8) (nbyte : Int) :
    writeData (withBitmap s bitmap) fildes index buf nbyte = putBitmap (writeData s fildes index buf nbyte) bitmap := by
  unfold writeData
  dsimp only [withBitmap, putBitmap]
  split
  · rfl
  next n _ =>
  rw [readAll_withBitmap { s with directory := Function.update s.directory index _ } bitmap]
  split
  · rfl
  split
  · rfl
  next buffer _ _ =>
  rw [writeAll_withBitmap bitmap n.toNat { s with directory := Function.update s.directory index _ }]
  generalize writeAll n.toNat _ _ _ _ = written
  obtain ⟨ok, s₁⟩ := written
  cases ok with
  | false => rfl
  | true => rfl

/-! ## The calls that look for a zero -/

/-- The states differ in the bitmap alone, and their bitmaps have the same zeros. -/
structure Alike (s t : FS) : Prop where
  same : t = withBitmap s t.usedBlockBitmap
  zero : ∀ j, t.usedBlockBitmap j = 0 ↔ s.usedBlockBitmap j = 0

/-- A cell is set in both bitmaps. -/
theorem update_zero {b b' : Int → UInt8} (h : ∀ j, b' j = 0 ↔ b j = 0) (k : Int) (v : UInt8) (j : Int) :
    Function.update b' k v j = 0 ↔ Function.update b k v j = 0 := by
  by_cases hj : j = k
  · rw [hj, Function.update_self, Function.update_self]
  · rw [Function.update_of_ne hj, Function.update_of_ne hj]
    exact h j

theorem freeBlock_withBitmap (h : ∀ j, bitmap j = 0 ↔ s.usedBlockBitmap j = 0) :
    freeBlock (withBitmap s bitmap) = freeBlock s := by
  have hp : (fun j => bitmap j == 0) = fun j => s.usedBlockBitmap j == 0 := by
    funext j
    rw [Bool.eq_iff_iff, beq_iff_eq, beq_iff_eq]
    exact h j
  unfold freeBlock
  dsimp only [withBitmap]
  rw [hp]

theorem growChain_alike : ∀ (n : Nat) (s : FS) (bitmap : Int → UInt8) (inode : Int) {ok : Bool} {s' : FS},
    (∀ j, bitmap j = 0 ↔ s.usedBlockBitmap j = 0) → growChain n s inode = some (ok, s') →
    ∃ t', growChain n (withBitmap s bitmap) inode = some (ok, t') ∧ Alike s' t' := by
  intro n
  induction n with
  | zero =>
      intro s bitmap inode ok s' hz h
      cases h
      exact ⟨_, rfl, rfl, hz⟩
  | succ n ih =>
      intro s bitmap inode ok s' hz h
      unfold growChain at h ⊢
      rw [freeBlock_withBitmap hz]
      dsimp only [withBitmap]
      split at h
      · cases h
      next hin =>
      rw [if_neg hin]
      split at h
      · next hlast =>
        rw [if_pos hlast]
        split at h
        · cases h
        next hoff =>
        rw [if_neg hoff]
        split at h
        · next j _ =>
            exact ih { s with
              usedBlockBitmap := Function.update s.usedBlockBitmap j 1
              table := setNext (setNext s.table inode j) j (-1) } (Function.update bitmap j 1) _
              (update_zero hz j 1) h
        · split at h
          · next hlt =>
              cases h
              exact ⟨_, if_pos hlt, rfl, hz⟩
          · next hge =>
              rw [if_neg hge]
              exact ih s bitmap _ hz h
      · next hlast =>
        rw [if_neg hlast]
        exact ih s bitmap _ hz h

theorem fsCreate_alike {name : CString} (hz : ∀ j, bitmap j = 0 ↔ s.usedBlockBitmap j = 0)
    (h : fsCreate s name = some (r, s')) :
    ∃ t', fsCreate (withBitmap s bitmap) name = some (r, t') ∧ Alike s' t' := by
  unfold fsCreate at h ⊢
  rw [freeBlock_withBitmap hz]
  dsimp only [withBitmap]
  split at h
  · next hlen =>
    cases h
    exact ⟨_, if_pos hlen, rfl, hz⟩
  next hlen =>
  rw [if_neg hlen]
  split at h
  · next hused =>
    cases h
    exact ⟨_, if_pos hused, rfl, hz⟩
  next hused =>
  rw [if_neg hused]
  split at h
  · next hcount =>
    cases h
    exact ⟨_, if_pos hcount, rfl, hz⟩
  next hcount =>
  rw [if_neg hcount]
  split at h
  · cases h
  next hoff =>
  rw [if_neg hoff]
  split at h
  · cases h
    exact ⟨_, rfl, rfl, hz⟩
  next inode _ =>
  split at h
  · cases h
  · cases h
    exact ⟨_, rfl, rfl, update_zero hz inode 1⟩

theorem fsWrite_alike (hz : ∀ j, bitmap j = 0 ↔ s.usedBlockBitmap j = 0) (h : fsWrite s fd buf nbyte = some (r, s')) :
    ∃ t', fsWrite (withBitmap s bitmap) fd buf nbyte = some (r, t') ∧ Alike s' t' := by
  unfold fsWrite at h ⊢
  dsimp only [withBitmap] at h ⊢
  split at h
  · next hneg =>
    cases h
    exact ⟨_, if_pos hneg, rfl, hz⟩
  next hneg =>
  rw [if_neg hneg]
  split at h
  · cases h
  next hmax =>
  rw [if_neg hmax]
  split at h
  · next hused =>
    cases h
    exact ⟨_, if_pos hused, rfl, hz⟩
  next hused =>
  rw [if_neg hused]
  split at h
  · cases h
  next i _ =>
  split at h
  · cases h
  · next s₁ hgrow =>
    obtain ⟨t₁, hgrow', halike⟩ := growChain_alike _ s bitmap _ hz hgrow
    cases h
    exact ⟨t₁, by rw [hgrow'], halike⟩
  · next s₁ hgrow =>
    obtain ⟨t₁, hgrow', hsame, hzero⟩ := growChain_alike _ s bitmap _ hz hgrow
    refine ⟨withBitmap s' t₁.usedBlockBitmap, ?_, rfl, ?_⟩
    · rw [hgrow']
      dsimp only
      rw [hsame, writeData_withBitmap, h]
      rfl
    · obtain ⟨size, d, fds, hs', -⟩ := writeData_cases h
      rw [hs']
      exact hzero

/-! ## fs_write inside the blocks of the file, and fs_delete -/

/-- The allocation loop of fs_write does nothing on a chain that is long enough. -/
theorem growChain_long : ∀ (n : Nat) {a : Int} {l : List Int}, Linked (nextOf s.table) (some a) l →
    (∀ b ∈ l, InBlocks b) → n < l.length → growChain n s a = some (true, s) := by
  intro n
  induction n with
  | zero => intro a l _ _ _; rfl
  | succ n ih =>
      intro a l hl hin hn
      cases l with
      | nil => exact absurd rfl hl.ne_nil
      | cons b l =>
          simp only [Linked, seg_cons, Option.some.injEq] at hl
          obtain ⟨rfl, hl⟩ := hl
          obtain ⟨ha, hin⟩ := List.forall_mem_cons.mp hin
          rw [List.length_cons] at hn
          have hnext : (s.table a).nextDirectOffset ≠ -1 := by
            intro he
            rw [nextOf_eq_none.mpr he] at hl
            cases l with
            | nil => exact absurd hn (by simp)
            | cons c l => simp at hl
          unfold growChain
          rw [if_neg (not_not.mpr ha), if_neg hnext]
          refine ih (l := l) ?_ hin (by omega)
          rwa [nextOf_eq_some.mpr ⟨rfl, hnext⟩] at hl

/-- What fs_write is to write lies inside the blocks of its file. -/
def Fits (s : FS) (fd : Int) (nbyte : Nat) : Prop :=
  ∀ i, dirIndex s.directory (s.fdArray fd).inodeNumber = some i →
    (s.fdArray fd).offset + nbyte ≤ blockSize * (fileBlocks s.table (s.directory i).inodeNumber).length

theorem Live.growChain_fits (h : Live (withBitmap s bitmap) ch) (hfd : IsFd fd) (hpos : 1 ≤ nbyte)
    (hn : nbyte < 2 ^ 63) (hfit : Fits s fd nbyte) (hu : (s.fdArray fd).used = true)
    (hidx : dirIndex s.directory (s.fdArray fd).inodeNumber = some i) (bitmap' : Int → UInt8) :
    growChain (sizeT ((s.fdArray fd).offset + cappedLength (s.fdArray fd).offset nbyte - 1) / blockSize).toNat
      (withBitmap s bitmap') (s.directory i).inodeNumber = some (true, withBitmap s bitmap') := by
  obtain ⟨hi, he⟩ := dirIndex_eq_some hidx
  obtain ⟨j, hj, hje, h0, h1⟩ := h.bounds.offset fd hfd hu
  obtain rfl := h.files.inj hi j hj (hje.trans he.symm)
  have hs1 := (h.bounds.size j hi).2
  have hroom := hfit j hidx
  rw [h.files.chains.fileBlocks_eq hi] at hroom
  refine growChain_long _ (h.files.chains.chain j hi) (fun b hb => (h.files.chains.blocks j hi b hb).1.inBlocks) ?_
  dsimp only [withBitmap] at h0 h1 hs1
  rw [cappedLength_eq nbyte h0 (h1.trans hs1) hn]
  unfold maxFilesize at *
  rw [sizeT_of_lt (by omega) (by omega)]
  unfold blockSize at *
  omega

theorem Live.write_withBitmap (h : Live (withBitmap s bitmap) ch) (hfd : IsFd fd) (hpos : 1 ≤ nbyte)
    (hn : nbyte < 2 ^ 63) (hfit : Fits s fd nbyte) :
    fsWrite (withBitmap s bitmap) fd buf nbyte = putBitmap (fsWrite s fd buf nbyte) bitmap := by
  unfold fsWrite
  dsimp only [withBitmap]
  split
  · rfl
  split
  · rfl
  split
  · rfl
  next hu =>
  split
  · rfl
  next i hidx =>
  have hrun := h.growChain_fits hfd hpos hn hfit (by simpa using hu) hidx
  unfold cappedLength at hrun
  rw [hrun bitmap, show growChain _ s _ = _ from hrun s.usedBlockBitmap]
  exact writeData_withBitmap s bitmap fd i buf _

theorem freeChain_withBitmap : ∀ (n : Nat) (s : FS) (bitmap : Int → UInt8) (inode : Int) {t : FS},
    freeChain n (withBitmap s bitmap) inode = some t →
    ∃ s', freeChain n s inode = some s' ∧ t = withBitmap s' t.usedBlockBitmap := by
  intro n
  induction n with
  | zero => intro s bitmap inode t h; cases h
  | succ n ih =>
      intro s bitmap inode t h
      unfold freeChain at h ⊢
      dsimp only [withBitmap] at h ⊢
      split at h
      · cases h
      next hin =>
      rw [if_neg hin]
      split at h
      · next hnext =>
        rw [if_pos hnext]
        exact ih { s with
          usedBlockBitmap := Function.update s.usedBlockBitmap inode 0
          table := setNext s.table inode (-2) } (Function.update bitmap inode 0) _ h
      · next hnext =>
        cases h
        rw [if_neg hnext]
        exact ⟨_, rfl, rfl⟩

theorem fsDelete_withBitmap {name : CString} (h : fsDelete (withBitmap s bitmap) name = some (r, t)) :
    ∃ s', fsDelete s name = some (r, s') ∧ t = withBitmap s' t.usedBlockBitmap := by
  unfold fsDelete at h ⊢
  dsimp only [withBitmap] at h ⊢
  split at h
  · cases h
    exact ⟨s, rfl, rfl⟩
  next i _ =>
  split at h
  · next hcount =>
    cases h
    exact ⟨s, if_pos hcount, rfl⟩
  next hcount =>
  rw [if_neg hcount]
  split at h
  · cases h
  next t₁ hfree =>
  obtain ⟨s₁, hfree', hsame⟩ := freeChain_withBitmap _ s bitmap _ hfree
  cases h
  rw [hfree']
  refine ⟨_, rfl, ?_⟩
  rw [hsame]

end EC440.FileSystem
