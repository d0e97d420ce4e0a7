/-
  mount_fs of an arbitrary file: which superblocks it can load, and what its failing exits leave.

  All offsets and counts come from the image. Where block_read refuses one of them, mount_fs returns
  -1 with the disk still open. More than 16 inode blocks run over Table, and a bitmap count outside
  0..4096 runs over the buffer or over used_block_bitmap.
-/
import EC440.FileSystem.Session

namespace EC440.FileSystem

variable {s s' : FS} {d : Disk} {r : Int} {img : Image} {buffer heap : Buf}

/-! ## What the stages leave -/

/-- What a stage of mount_fs does to the disk, to `mounted` and to the descriptors. -/
structure MountStage (s : FS) (r : Int) (s' : FS) : Prop where
  disk : s'.disk = s.disk
  outcome : (r = 0 ∧ s'.mounted = true ∧ s'.fdArray = fun i => { s.fdArray i with used := false }) ∨
    (r = -1 ∧ s'.mounted = s.mounted ∧ s'.fdArray = s.fdArray)

/-- A failing exit. -/
theorem mountStage_fail {t : FS} (hc : some ((-1 : Int), t) = some (r, s')) (hd : t.disk = s.disk)
    (hm : t.mounted = s.mounted) (hf : t.fdArray = s.fdArray) : MountStage s r s' := by
  rw [Option.some.injEq, Prod.mk.injEq] at hc
  rw [← hc.1, ← hc.2]
  exact ⟨hd, .inr ⟨rfl, hm, hf⟩⟩

/-- The arrays a stage fills play no part. -/
theorem MountStage.of_filled {t : FS} (h : MountStage t r s') (hd : t.disk = s.disk)
    (hm : t.mounted = s.mounted) (hf : t.fdArray = s.fdArray) : MountStage s r s' := by
  refine ⟨h.disk.trans hd, ?_⟩
  rw [← hm, ← hf]
  exact h.outcome

theorem mountBitmap_stage (hc : mountBitmap s buffer heap = some (r, s')) : MountStage s r s' := by
  unfold mountBitmap at hc
  split at hc
  · exact mountStage_fail hc rfl rfl rfl
  split at hc
  · cases hc
  · rw [Option.some.injEq, Prod.mk.injEq] at hc
    rw [← hc.1, ← hc.2]
    exact ⟨rfl, .inl ⟨rfl, rfl, rfl⟩⟩

theorem mountInodes_stage (hc : mountInodes s buffer heap = some (r, s')) : MountStage s r s' := by
  unfold mountInodes at hc
  split at hc
  · cases hc
  · exact mountStage_fail hc rfl rfl rfl
  · exact (mountBitmap_stage hc).of_filled rfl rfl rfl

theorem mountDirectory_stage (hc : mountDirectory s buffer heap = some (r, s')) : MountStage s r s' := by
  unfold mountDirectory at hc
  split at hc
  · exact mountStage_fail hc rfl rfl rfl
  · exact (mountInodes_stage hc).of_filled rfl rfl rfl

theorem mountSuper_stage (hc : mountSuper s heap = some (r, s')) : MountStage s r s' := by
  unfold mountSuper at hc
  split at hc
  · exact mountStage_fail hc rfl rfl rfl
  · exact (mountDirectory_stage hc).of_filled rfl rfl rfl

/-! ## When the stages succeed -/

/-- The inode blocks are on the disk and fit into Table. -/
def TableFits (sb : Superblock) : Prop :=
  0 < sb.inodeMetadataBlocks → 0 ≤ sb.inodeMetadataOffset ∧
    sb.inodeMetadataOffset + sb.inodeMetadataBlocks ≤ diskBlocks ∧ sb.inodeMetadataBlocks ≤ 16

/-- The bitmap block is on the disk, and the count is that of bytes of one block. -/
def BitmapFits (sb : Superblock) : Prop :=
  InBlocks sb.usedBlockBitmapOffset ∧ 0 ≤ sb.usedBlockBitmapCount ∧ sb.usedBlockBitmapCount ≤ blockSize

/-- The superblocks that mount_fs can load. -/
def Loadable (sb : Superblock) : Prop := InBlocks sb.dOffset ∧ TableFits sb ∧ BitmapFits sb

instance (sb : Superblock) : Decidable (Loadable sb) :=
  inferInstanceAs (Decidable (_ ∧ (_ → _) ∧ _ ∧ _ ∧ _))

/-- The superblock mount_fs reads from an image. -/
def Image.super (img : Image) : Superblock := superblockAt (img.read 0 (fun _ => 0) 0)

theorem blockRead_open (hd : d.image = some img) (b : Int) (buf : Buf) (off : Nat) :
    blockRead d b buf off = if InBlocks b then some (img.read (b.toNat * blockSize) buf off) else none := by
  unfold blockRead
  rw [hd]
  dsimp only
  split
  · next h =>
      rw [if_neg]
      intro hb
      have := hb.1
      have := hb.2
      omega
  · next h => rw [if_pos (show InBlocks b from ⟨by omega, by omega⟩)]

/-- A failing exit is no success, -/
theorem mount_failed (t : FS) : ¬ ∃ s', some ((-1 : Int), t) = some (0, s') := by
  intro h
  obtain ⟨s', h⟩ := h
  rw [Option.some.injEq, Prod.mk.injEq] at h
  exact absurd h.1 (by decide)

/-- nor is a copy that leaves its array. -/
theorem mount_overrun : ¬ ∃ s', (none : Option (Int × FS)) = some (0, s') := by
  intro h
  obtain ⟨s', h⟩ := h
  cases h

theorem mountBitmap_zero_iff (hd : s.disk.image = some img) (buffer heap : Buf) :
    (∃ s', mountBitmap s buffer heap = some (0, s')) ↔ BitmapFits s.super := by
  unfold mountBitmap BitmapFits
  rw [blockRead_open hd]
  by_cases hb : InBlocks s.super.usedBlockBitmapOffset
  · rw [if_pos hb]
    dsimp only
    by_cases hcount : s.super.usedBlockBitmapCount < 0 ∨ (blockSize : Int) < s.super.usedBlockBitmapCount
    · rw [if_pos hcount]
      apply iff_of_false mount_overrun
      omega
    · rw [if_neg hcount]
      exact iff_of_true ⟨_, rfl⟩ ⟨hb, by omega, by omega⟩
  · rw [if_neg hb]
    exact iff_of_false (mount_failed _) fun h => hb h.1

/-- The loop over the inode blocks ends without a failed read and inside Table. -/
theorem mountTable_true_iff (hd : d.image = some img) (offset : Int) (n i : Nat) (buffer table : Buf) :
    (∃ p, mountTable d offset n i buffer table = some (true, p)) ↔
      (0 < n → 0 ≤ offset + i ∧ offset + i + n ≤ diskBlocks ∧ i + n ≤ 16) := by
  induction n generalizing i buffer table with
  | zero => exact iff_of_true ⟨(buffer, table), rfl⟩ fun h => absurd h (lt_irrefl 0)
  | succ n ih =>
    unfold mountTable
    rw [blockRead_open hd]
    by_cases hb : InBlocks (offset + i)
    · rw [if_pos hb]
      dsimp only
      unfold InBlocks diskBlocks at *
      by_cases hi : 16 ≤ i
      · rw [if_pos hi]
        apply iff_of_false
        · intro h
          obtain ⟨p, h⟩ := h
          cases h
        · omega
      · rw [if_neg hi, ih (i + 1)]
        push_cast
        omega
    · rw [if_neg hb]
      apply iff_of_false
      · intro h
        obtain ⟨p, h⟩ := h
        rw [Option.some.injEq, Prod.mk.injEq] at h
        exact absurd h.1 (by decide)
      · unfold InBlocks diskBlocks at *
        push_cast
        omega

theorem mountInodes_zero_iff (hd : s.disk.image = some img) :
    (∃ s', mountInodes s buffer heap = some (0, s')) ↔ TableFits s.super ∧ BitmapFits s.super := by
  have hfits : TableFits s.super ↔ ∃ p, mountTable s.disk s.super.inodeMetadataOffset
      s.super.inodeMetadataBlocks.toNat 0 buffer (fun _ => 0) = some (true, p) := by
    rw [mountTable_true_iff hd]
    unfold TableFits
    omega
  rw [hfits]
  unfold mountInodes
  split
  · next hnone =>
      apply iff_of_false mount_overrun
      rw [hnone]
      simp
  · next hfalse =>
      apply iff_of_false (mount_failed _)
      rw [hfalse]
      simp
  · next buf tab htrue =>
      rw [mountBitmap_zero_iff (s := { s with table := fun b => inodeAt tab (b.toNat * 8) }) hd buf heap]
      exact ⟨fun h => ⟨⟨_, htrue⟩, h⟩, fun h => h.2⟩

theorem mountDirectory_zero_iff (hd : s.disk.image = some img) :
    (∃ s', mountDirectory s buffer heap = some (0, s')) ↔ Loadable s.super := by
  unfold mountDirectory Loadable
  rw [blockRead_open hd]
  by_cases hb : InBlocks s.super.dOffset
  · rw [if_pos hb]
    dsimp only
    rw [mountInodes_zero_iff (by exact hd)]
    exact ⟨fun h => ⟨hb, h⟩, fun h => h.2⟩
  · rw [if_neg hb]
    exact iff_of_false (mount_failed _) fun h => hb h.1

theorem mountSuper_zero_iff (hd : s.disk.image = some img) (heap : Buf) :
    (∃ s', mountSuper s heap = some (0, s')) ↔ Loadable img.super := by
  unfold mountSuper
  rw [blockRead_open hd, if_pos (by decide)]
  dsimp only
  rw [mountDirectory_zero_iff (by exact hd)]
  exact Iff.rfl

/-! ## Failing mounts -/

/-- The file `name` holds a file system as make_fs and umount_fs write it. -/
def ValidDisk (files : String → Option Image) (name : String) : Prop :=
  ∃ dir table, Holds ⟨files, some name⟩ dir table ∧ DirShape dir ∧ TableShape table

/-- mount_fs succeeds, or it returns -1 with nothing mounted and the disk closed, so that a
    following mount_fs of a valid disk succeeds. -/
def MountsCleanly (s : FS) (diskName : Option String) (heap : Buf) : Prop :=
  (∃ s', mountFs s diskName heap = some (0, s')) ∨
    ∃ s', mountFs s diskName heap = some (-1, s') ∧ s'.mounted = false ∧ s'.disk.handle = none ∧
      ∀ name heap', ValidDisk s'.disk.files name → ∃ s'', mountFs s' (some name) heap' = some (0, s'')

theorem openDisk_of_closed {name : String} (hh : d.handle = none) :
    openDisk d (some name) = if (d.files name).isNone then (-1, d) else (0, ⟨d.files, some name⟩) := by
  unfold openDisk
  dsimp only
  rw [hh, if_neg (by decide)]

/-- An exit before the disk is opened is a clean one. -/
theorem mountsCleanly_of_refused {diskName : Option String} (hm : s.mounted = false) (hh : s.disk.handle = none)
    (hc : mountFs s diskName heap = some (-1, s)) : MountsCleanly s diskName heap := by
  refine .inr ⟨s, hc, hm, hh, fun name heap' ⟨dir, table, hholds, hdir, htable⟩ => ?_⟩
  obtain ⟨s'', hs'', -⟩ := mountFs_ready hm hh hholds hdir htable heap'
  exact ⟨s'', hs''⟩

/-- Once the disk is open, mount_fs has no exit that closes it again. -/
theorem mountsCleanly_of_file {name : String} (hm : s.mounted = false) (hh : s.disk.handle = none)
    (hf : s.disk.files name = some img) : MountsCleanly s (some name) heap ↔ Loadable img.super := by
  have heq : mountFs s (some name) heap = mountSuper { s with disk := ⟨s.disk.files, some name⟩ } heap := by
    unfold mountFs
    rw [if_neg (by simp), if_neg (by rw [hm]; decide), openDisk_of_closed hh, hf]
    rfl
  have hopen : Disk.image ⟨s.disk.files, some name⟩ = some img := hf
  have hzero := mountSuper_zero_iff (s := { s with disk := ⟨s.disk.files, some name⟩ }) hopen heap
  unfold MountsCleanly
  rw [heq, hzero]
  refine ⟨fun h => ?_, .inl⟩
  obtain h | ⟨s', hs', -, hclosed, -⟩ := h
  · exact h
  · have := (mountSuper_stage hs').disk
    rw [this] at hclosed
    cases hclosed

/-- mount_fs from a state with no disk open, for every file and every superblock: a mount that
    fails leaves the disk open unless it fails before it is opened. -/
theorem mountFs_cleanly_iff (s : FS) (diskName : Option String) (heap : Buf) (hh : s.disk.handle = none) :
    MountsCleanly s diskName heap ↔ s.mounted = false ∧
      ∀ name img, diskName = some name → s.disk.files name = some img → Loadable img.super := by
  by_cases hm : s.mounted = true
  · refine ⟨fun h => ?_, fun h => absurd (hm.symm.trans h.1) (by decide)⟩
    have hfail : mountFs s diskName heap = some (-1, s) := by
      unfold mountFs
      rw [hm]
      split
      · rfl
      · rfl
    obtain ⟨s', h⟩ | ⟨s', h, hm', -⟩ := h
    · rw [hfail, Option.some.injEq, Prod.mk.injEq] at h
      exact absurd h.1 (by decide)
    · rw [hfail, Option.some.injEq, Prod.mk.injEq] at h
      rw [← h.2] at hm'
      exact absurd (hm.symm.trans hm') (by decide)
  have hm : s.mounted = false := Bool.not_eq_true _ ▸ hm
  match diskName with
  | none => exact ⟨fun _ => ⟨hm, fun _ _ h => (by cases h)⟩, fun _ => mountsCleanly_of_refused hm hh rfl⟩
  | some name =>
      match hf : s.disk.files name with
      | none =>
          refine ⟨fun _ => ⟨hm, fun _ _ hn h => ?_⟩, fun _ => mountsCleanly_of_refused hm hh ?_⟩
          · cases hn
            rw [hf] at h
            cases h
          · unfold mountFs
            rw [if_neg (by simp), if_neg (by rw [hm]; decide), openDisk_of_closed hh, hf]
            rfl
      | some img =>
          rw [mountsCleanly_of_file hm hh hf]
          refine ⟨fun h => ⟨hm, fun _ _ hn h' => ?_⟩, fun h => h.2 name img rfl hf⟩
          cases hn
          rw [hf] at h'
          cases h'
          exact h

/-- The file that make_fs writes is loaded. -/
theorem mountFs_cleanly_iff_make : ∃ files', makeFs ⟨fun _ => none, none⟩ (some "disk") zeroJunk = (0, ⟨files', none⟩) ∧
    (boot files').disk.handle = none ∧ MountsCleanly (boot files') (some "disk") (fun _ => 0) := by
  obtain ⟨files', hmake, hholds⟩ := makeFs_ready (fun _ => none) "disk" zeroJunk
  obtain ⟨s', hmount, -⟩ := mountFs_ready (s := boot files') rfl rfl hholds (emptyDir_shape zeroJunk)
    (emptyInode_shape zeroJunk) (fun _ => 0)
  refine ⟨files', hmake, rfl, (mountFs_cleanly_iff _ _ _ rfl).mpr ⟨rfl, fun name img hn hf => ?_⟩⟩
  cases hn
  exact (mountsCleanly_of_file rfl rfl hf).mp (.inl ⟨s', hmount⟩)

/-- A superblock whose d_offset is -1: mount_fs returns -1 and leaves the disk open. -/
theorem mount_failure_leaves_disk_open :
    ¬ MountsCleanly (boot fun _ => some ⟨28, (⟨0, 0, 0, 0, -1, 0, 0⟩ : Superblock).byte⟩) (some "disk")
      (fun _ => 0) := by
  rw [mountsCleanly_of_file rfl rfl rfl]
  decide

end EC440.FileSystem
