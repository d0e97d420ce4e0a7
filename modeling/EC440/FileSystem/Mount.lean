/-
  make_fs, mount_fs and umount_fs on a disk whose file is complete: what the metadata blocks
  hold after they are written (`Holds`), and what mount_fs loads from them (`Loaded`).

  mount_fs loads the first 16 of the 64 directory entries, two bytes of the bitmap and the
  whole inode table. The rest of the directory is what `calloc` returned, the rest of the
  bitmap what `malloc` returned.
-/
import EC440.FileSystem.Shape

namespace EC440.FileSystem

open EC440.Lib

/-- The metadata blocks of `d` hold the superblock of make_fs, `dir` and `table`. -/
structure Holds (d : Disk) (dir : Int → DirectoryEntry) (table : Int → Inode) : Prop where
  ready : d.Ready
  super : ∀ k, k < 28 → d.block 0 k = makeSuper.byte k
  dir : ∀ k, k < 2048 → d.block 1 k = directoryBytes dir k
  table : ∀ i : Nat, i < 16 → ∀ k, k < blockSize → d.block (4 + i) k = tableBytes table (i * blockSize + k)

/-- A directory entry of zero bytes. -/
def noEntry : DirectoryEntry :=
  { used := false, inodeNumber := 0, name := List.replicate 16 0, size := 0, count := 0 }

/-- `s` is the state mount_fs leaves, with the disk `d` that holds `dir` and `table` and with
    `heap` behind the bitmap. -/
structure Loaded (s : FS) (d : Disk) (dir : Int → DirectoryEntry) (table : Int → Inode) (heap : Buf) :
    Prop where
  super : s.super = makeSuper
  disk : s.disk = d
  mounted : s.mounted = true
  dir : ∀ i, IsSlot i → s.directory i = if i < 16 then dir i else noEntry
  table : ∀ b, InBlocks b → s.table b = table b
  bitmap : ∀ b, DataBlock b → s.usedBlockBitmap b = heap b.toNat
  fds : ∀ fd, (s.fdArray fd).used = false

/-! ## Writing the metadata -/

theorem writeBlocks_ready : ∀ (l : List (Int × Buf)) {d : Disk}, d.Ready →
    (∀ p ∈ l, InBlocks p.1) → (l.map Prod.fst).Nodup →
    ∃ d', writeBlocks d l = (true, d') ∧ d'.Ready ∧ d'.handle = d.handle ∧
      (∀ p ∈ l, ∀ k, k < blockSize → d'.block p.1 k = p.2 k) ∧
      (∀ c, InBlocks c → c ∉ l.map Prod.fst → ∀ k, k < blockSize → d'.block c k = d.block c k)
  | [], d, hd, _, _ => ⟨d, rfl, hd, rfl, by simp, fun _ _ _ _ _ => rfl⟩
  | (b, buf) :: l, d, hd, hl, hnd => by
      obtain ⟨hb, hl⟩ := List.forall_mem_cons.mp hl
      rw [List.map_cons, List.nodup_cons] at hnd
      obtain ⟨d₁, hw, hr, hh, hblk⟩ := blockWrite_ready hd hb.1 hb.2 buf 0
      obtain ⟨d', hws, hr', hh', hin, hout⟩ := writeBlocks_ready l hr hl hnd.2
      refine ⟨d', ?_, hr', hh'.trans hh, ?_, ?_⟩
      · simp only [writeBlocks, hw]; exact hws
      · intro p hp k hk
        rcases List.mem_cons.mp hp with rfl | hp
        · rw [hout b hb hnd.1 k hk, hblk b k hb.1 hb.2 hk, if_pos rfl, Nat.zero_add]
        · exact hin p hp k hk
      · intro c hc hcl k hk
        rw [List.map_cons, List.mem_cons, not_or] at hcl
        rw [hout c hc hcl.2 k hk, hblk c k hc.1 hc.2 hk, if_neg hcl.1]

/-- The block numbers of the metadata. -/
theorem metadata_nodup : ((0 : Int) :: 1 :: (List.range 16).map (fun i : Nat => 4 + (i : Int))).Nodup := by
  decide

theorem memcpy_of_lt (dst src : Buf) {n p : Nat} (h : p < n) : memcpy dst 0 src n p = src p := by
  simp [memcpy, h]

theorem memcpy_of_ge (dst src : Buf) {n p : Nat} (h : n ≤ p) : memcpy dst 0 src n p = dst p := by
  simp [memcpy, Nat.not_lt.mpr h]

theorem umountBlocks_fst {s : FS} (hs : s.super = makeSuper) : (umountBlocks s).map Prod.fst =
    0 :: 1 :: (List.range 16).map (fun i : Nat => 4 + (i : Int)) := by
  unfold umountBlocks
  rw [hs]
  simp only [List.map_append, List.map_cons, List.map_nil, List.map_map]
  rfl

theorem metadata_inBlocks {c : Int} (h : c ∈ (0 : Int) :: 1 :: (List.range 16).map (fun i : Nat => 4 + (i : Int))) :
    InBlocks c ∧ ¬ DataBlock c := by
  rw [dataBlock_iff]
  unfold InBlocks diskBlocks
  simp only [List.mem_cons, List.mem_map, List.mem_range] at h
  obtain rfl | rfl | ⟨i, hi, rfl⟩ := h
  · omega
  · omega
  · omega

/-- umount_fs of a mounted file system on a ready disk. -/
theorem umountFs_ready {s : FS} {d : String} (name : String) (hsuper : s.super = makeSuper)
    (hm : s.mounted = true) (hr : s.disk.Ready) (hh : s.disk.handle = some d) :
    ∃ files, umountFs s (some name) = some (0, { s with
        fdArray := fun i => closedFd (s.fdArray i), disk := ⟨files, none⟩, mounted := false }) ∧
      Holds ⟨files, some d⟩ s.directory s.table ∧
      ∀ b, DataBlock b → ∀ k, k < blockSize → Disk.block ⟨files, some d⟩ b k = s.disk.block b k := by
  have hfst := umountBlocks_fst hsuper
  have hrange : ∀ p ∈ umountBlocks s, InBlocks p.1 := fun p hp =>
    (metadata_inBlocks (hfst ▸ List.mem_map_of_mem hp)).1
  obtain ⟨d', hw, hr', hh', hin, hout⟩ := writeBlocks_ready (umountBlocks s) hr hrange
    (by rw [hfst]; exact metadata_nodup)
  have hd' : d' = ⟨d'.files, some d⟩ := by rw [← hh, ← hh']
  refine ⟨d'.files, ?_, ⟨hd' ▸ hr', ?_, ?_, ?_⟩, ?_⟩
  · unfold umountFs closeDisk
    simp only [Option.isNone_some, hm, Bool.not_true, Bool.false_eq_true, if_false, hw, hh', hh]
    rw [if_neg (by rw [hsuper]; decide)]
    simp
  · intro k hk
    have := hin (0, memcpy (fun _ => 0) 0 s.super.byte 28) (by simp [umountBlocks]) k
      (by unfold blockSize; omega)
    rw [hsuper] at this
    rw [← hd']
    exact this.trans (memcpy_of_lt (fun _ => 0) makeSuper.byte hk)
  · intro k hk
    have := hin (s.super.dOffset, memcpy (memcpy (fun _ => 0) 0 s.super.byte 28) 0
      (directoryBytes s.directory) (32 * 64)) (by simp [umountBlocks]) k (by unfold blockSize; omega)
    rw [hsuper] at this
    rw [← hd']
    exact this.trans (memcpy_of_lt _ _ hk)
  · intro i hi k hk
    have := hin (s.super.inodeMetadataOffset + i, fun k => tableBytes s.table (i * blockSize + k)) (by
      unfold umountBlocks
      refine List.mem_append_right _ (List.mem_map.mpr ⟨i, List.mem_range.mpr ?_, rfl⟩)
      rw [hsuper]
      exact hi) k hk
    rw [hsuper] at this
    rw [← hd']
    exact this
  · intro b hb k hk
    rw [← hd']
    refine hout b hb.inBlocks (fun hm => ?_) k hk
    rw [hfst] at hm
    exact (metadata_inBlocks hm).2 hb

theorem makeBlocks_fst (junk : Junk) : (makeBlocks junk).map Prod.fst =
    0 :: 1 :: (List.range 16).map (fun i : Nat => 4 + (i : Int)) ++ [2] := by
  unfold makeBlocks
  simp only [List.map_append, List.map_cons, List.map_nil, List.map_map]
  rfl

theorem makeBlocks_nodup : (0 :: 1 :: (List.range 16).map (fun i : Nat => 4 + (i : Int)) ++ [2]).Nodup := by
  decide

theorem makeDisk_ready (files : String → Option Image) (d : String) :
    ∃ files', makeDisk ⟨files, none⟩ (some d) = (0, ⟨files', none⟩) ∧
      openDisk ⟨files', none⟩ (some d) = (0, ⟨files', some d⟩) ∧ Disk.Ready ⟨files', some d⟩ :=
  ⟨Function.update files d (some ⟨diskBlocks.toNat * blockSize, fun _ => 0⟩), rfl,
    by simp [openDisk], ⟨diskBlocks.toNat * blockSize, fun _ => 0⟩, by simp [Disk.image], Nat.le_refl _⟩

/-- make_fs in a process with no open disk: an empty directory and a table of free cells. -/
theorem makeFs_ready (files : String → Option Image) (d : String) (junk : Junk) :
    ∃ files', makeFs ⟨files, none⟩ (some d) junk = (0, ⟨files', none⟩) ∧
      Holds ⟨files', some d⟩ (fun _ => emptyDir junk) (fun _ => emptyInode junk) := by
  obtain ⟨files₁, hmake, hopen, hr⟩ := makeDisk_ready files d
  have hfst := makeBlocks_fst junk
  have hrange : ∀ p ∈ makeBlocks junk, InBlocks p.1 := by
    intro p hp
    have hm : p.1 ∈ (makeBlocks junk).map Prod.fst := List.mem_map_of_mem hp
    rw [hfst] at hm
    rcases List.mem_append.mp hm with hm | hm
    · exact (metadata_inBlocks hm).1
    · rw [List.mem_singleton.mp hm]; decide
  obtain ⟨d', hw, hr', hh', hin, -⟩ := writeBlocks_ready (makeBlocks junk) hr hrange
    (by rw [hfst]; exact makeBlocks_nodup)
  have hd' : d' = ⟨d'.files, some d⟩ := by
    have : d'.handle = some d := hh'
    rw [← this]
  let superBuf : Buf := memcpy (fun _ => 0) 0 makeSuper.byte 28
  let dirBuf : Buf := memcpy superBuf 0 (directoryBytes (fun _ => emptyDir junk)) (32 * 64)
  let inodeBuf : Buf := memcpy dirBuf 0 (tableBytes (fun _ => emptyInode junk)) blockSize
  refine ⟨d'.files, ?_, hd' ▸ hr', fun k hk => ?_, fun k hk => ?_, fun i hi k hk => ?_⟩
  · simp only [makeFs, hmake, hopen, hw, closeDisk, hh']
    simp
  · have := hin (0, superBuf) (by simp [makeBlocks, superBuf]) k (by unfold blockSize; omega)
    rw [← hd']
    exact this.trans (memcpy_of_lt (fun _ => 0) makeSuper.byte hk)
  · have := hin (1, dirBuf) (by simp [makeBlocks, dirBuf, superBuf]; exact .inl rfl) k
      (by unfold blockSize; omega)
    rw [← hd']
    exact this.trans (memcpy_of_lt _ _ hk)
  · have := hin (4 + i, inodeBuf) (by
      unfold makeBlocks
      exact List.mem_append_left _ (List.mem_append_right _
        (List.mem_map.mpr ⟨i, List.mem_range.mpr hi, rfl⟩))) k hk
    rw [← hd']
    refine (this.trans (memcpy_of_lt _ _ hk)).trans ?_
    unfold tableBytes
    rw [show (i * blockSize + k) % 8 = k % 8 by unfold blockSize; omega]

/-! ## Loading the metadata -/

theorem mountTable_ready {d : Disk} (hd : d.Ready) : ∀ (n i : Nat) (buffer table : Buf), i + n ≤ 16 →
    ∃ buffer', mountTable d 4 n i buffer table = some (true, buffer', fun p =>
      if i * blockSize ≤ p ∧ p < (i + n) * blockSize then
        d.block (4 + (p / blockSize : Nat)) (p % blockSize) else table p)
  | 0, i, buffer, table, _ => by
      refine ⟨buffer, ?_⟩
      simp only [mountTable, Option.some.injEq, Prod.mk.injEq, true_and]
      funext p
      rw [if_neg (by unfold blockSize; omega)]
  | n + 1, i, buffer, table, hi => by
      have hread := blockRead_ready hd (b := 4 + (i : Int)) (by omega)
        (by unfold diskBlocks; omega) buffer 0
      simp only [mountTable, hread]
      rw [if_neg (by omega)]
      obtain ⟨buffer', ih⟩ := mountTable_ready hd n (i + 1)
        (fun p => if 0 ≤ p ∧ p < 0 + blockSize then d.block (4 + (i : Int)) (p - 0) else buffer p)
        (memcpy table (i * blockSize) (fun p => if 0 ≤ p ∧ p < 0 + blockSize then
          d.block (4 + (i : Int)) (p - 0) else buffer p) blockSize) (by omega)
      refine ⟨buffer', ?_⟩
      rw [ih]
      simp only [Option.some.injEq, Prod.mk.injEq, true_and]
      funext p
      unfold memcpy blockSize
      by_cases h1 : p < (i + 1) * 4096
      · rw [if_neg (by omega)]
        by_cases h2 : i * 4096 ≤ p
        · rw [if_pos (show i * 4096 ≤ p ∧ p < i * 4096 + 4096 by omega)]
          beta_reduce
          rw [if_pos (show 0 ≤ p - i * 4096 ∧ p - i * 4096 < 0 + 4096 by omega), if_pos (by omega),
            show p / 4096 = i by omega, show p - i * 4096 - 0 = p % 4096 by omega]
        · rw [if_neg (by omega), if_neg (by omega)]
      · by_cases h2 : p < (i + (n + 1)) * 4096
        · rw [if_pos (by omega), if_pos (by omega)]
        · rw [if_neg (by omega), if_neg (by omega), if_neg (by omega)]

/-- One block read to the start of a buffer. -/
theorem blockRead_block {d : Disk} (h : d.Ready) {b : Int} (hb : InBlocks b) (buf : Buf) :
    ∃ buf', blockRead d b buf 0 = some buf' ∧ ∀ k, k < blockSize → buf' k = d.block b k := by
  refine ⟨_, blockRead_ready h hb.1 hb.2 buf 0, fun k hk => ?_⟩
  rw [if_pos (by omega), Nat.sub_zero]

theorem superblockAt_makeSuper {f : Buf} (h : ∀ k, k < 28 → f k = makeSuper.byte k) :
    superblockAt f = makeSuper :=
  (superblockAt_congr h).trans (superblockAt_byte (by decide))

theorem entryAt_congr {f g : Buf} {off : Nat} (h : ∀ k, k < 32 → f (off + k) = g (off + k)) :
    entryAt f off = entryAt g off := by
  unfold entryAt
  rw [DirectoryEntry.mk.injEq]
  refine ⟨by rw [show f off = g off from h 0 (by omega)], ?_, ?_, ?_, ?_⟩
  · exact intAt_congr fun k hk => by rw [Nat.add_assoc]; exact h _ (by omega)
  · refine List.map_congr_left fun k hk => ?_
    rw [Nat.add_assoc]
    exact h _ (by have := List.mem_range.mp hk; omega)
  · exact intAt_congr fun k hk => by rw [Nat.add_assoc]; exact h _ (by omega)
  · exact intAt_congr fun k hk => by rw [Nat.add_assoc]; exact h _ (by omega)

theorem inodeAt_congr {f g : Buf} {off : Nat} (h : ∀ k, k < 8 → f (off + k) = g (off + k)) :
    inodeAt f off = inodeAt g off := by
  unfold inodeAt
  rw [Inode.mk.injEq]
  refine ⟨h 0 (by omega), intAt_congr fun k hk => ?_⟩
  rw [Nat.add_assoc]
  exact h _ (by omega)

theorem intAt_zero : intAt (fun _ => 0) = 0 := by decide

theorem entryAt_zero (off : Nat) : entryAt (fun _ => 0) off = noEntry := by
  unfold entryAt noEntry
  rw [DirectoryEntry.mk.injEq]
  exact ⟨by simp, intAt_zero, by simp, intAt_zero, intAt_zero⟩

/-- What mount_fs loads into the directory: 512 bytes, 16 entries. -/
theorem loadedEntry {buf : Buf} {dir : Int → DirectoryEntry}
    (h : ∀ k, k < 2048 → buf k = directoryBytes dir k) (hst : ∀ i, IsSlot i → (dir i).Storable)
    {i : Int} (hi : IsSlot i) :
    entryAt (memcpy (fun _ => 0) 0 buf (8 * 64)) (i.toNat * 32) =
      if i < 16 then dir i else noEntry := by
  have hi' := hi
  unfold IsSlot maxNumOfFiles at hi'
  split
  · next hlt =>
      rw [← entryAt_directoryBytes dir hi.1 (hst i hi)]
      refine entryAt_congr fun k hk => ?_
      rw [memcpy_of_lt _ _ (by omega), h _ (by omega)]
  · next hge =>
      rw [← entryAt_zero (i.toNat * 32)]
      refine entryAt_congr fun k hk => ?_
      unfold memcpy
      rw [if_neg (by omega)]

theorem TableShape.isInt32 {table : Int → Inode} (h : TableShape table) {b : Int} (hb : InBlocks b) :
    IsInt32 (table b).nextDirectOffset := by
  rcases h b hb with h1 | ⟨_, h1 | h1⟩
  · rw [h1]; decide
  · rw [h1]; decide
  · exact isInt32_dataBlock h1

/-- What mount_fs loads into the table. -/
theorem loadedInode {d : Disk} {dir : Int → DirectoryEntry} {table : Int → Inode} (h : Holds d dir table)
    (ht : TableShape table) {buf : Buf}
    (hbuf : ∀ p, p < 16 * blockSize → buf p = d.block (4 + (p / blockSize : Nat)) (p % blockSize))
    {b : Int} (hb : InBlocks b) : inodeAt buf (b.toNat * 8) = table b := by
  rw [← inodeAt_tableBytes table hb.1 (ht.isInt32 hb)]
  refine inodeAt_congr fun k hk => ?_
  have hb' := hb
  unfold InBlocks diskBlocks at hb'
  unfold blockSize at hbuf
  have htab := h.table ((b.toNat * 8 + k) / 4096) (by omega) ((b.toNat * 8 + k) % 4096)
    (Nat.mod_lt _ (by decide))
  rw [hbuf _ (by omega), htab]
  congr 1
  unfold blockSize
  omega

/-- mount_fs of a disk that holds `dir` and `table`. -/
theorem mountFs_ready {s : FS} {d : String} {dir : Int → DirectoryEntry} {table : Int → Inode}
    (hm : s.mounted = false) (hh : s.disk.handle = none) (h : Holds ⟨s.disk.files, some d⟩ dir table)
    (hdir : DirShape dir) (htable : TableShape table) (heap : Buf) :
    ∃ s', mountFs s (some d) heap = some (0, s') ∧ Loaded s' ⟨s.disk.files, some d⟩ dir table heap ∧
      s'.fdArray = fun i => { s.fdArray i with used := false } := by
  obtain ⟨name, img, hname, hfile, -, -⟩ := h.ready.image_eq
  cases hname
  have hopen : openDisk s.disk (some d) = (0, ⟨s.disk.files, some d⟩) := by
    simp only [openDisk, hh]
    dsimp only at hfile
    simp [hfile]
  obtain ⟨buf₀, hread₀, hbuf₀⟩ := blockRead_block h.ready (b := 0) (by decide) (fun _ => 0)
  have hsuper := superblockAt_makeSuper fun k hk =>
    (hbuf₀ k (by unfold blockSize; omega)).trans (h.super k hk)
  obtain ⟨buf₁, hread₁, hbuf₁⟩ := blockRead_block h.ready (b := makeSuper.dOffset) (by decide) buf₀
  obtain ⟨buf₂, hread₂⟩ := mountTable_ready h.ready 16 0 buf₁ (fun _ => 0) (by omega)
  generalize htab : (fun p => if 0 * blockSize ≤ p ∧ p < (0 + 16) * blockSize then
    Disk.block ⟨s.disk.files, some d⟩ (4 + (p / blockSize : Nat)) (p % blockSize) else 0) = tab at hread₂
  have htab' : ∀ p, p < 16 * blockSize →
      tab p = Disk.block ⟨s.disk.files, some d⟩ (4 + (p / blockSize : Nat)) (p % blockSize) := by
    intro p hp
    rw [← htab]
    exact if_pos ⟨by rw [Nat.zero_mul]; exact Nat.zero_le p, by rw [Nat.zero_add]; exact hp⟩
  obtain ⟨buf₃, hread₃, -⟩ :=
    blockRead_block h.ready (b := makeSuper.usedBlockBitmapOffset) (by decide) buf₂
  let s₁ : FS := { s with
    disk := ⟨s.disk.files, some d⟩
    super := makeSuper
    directory := fun i => entryAt (memcpy (fun _ => 0) 0 buf₁ (8 * 64)) (i.toNat * 32) }
  let s₂ : FS := { s₁ with
    table := fun b => inodeAt tab (b.toNat * 8)
    usedBlockBitmap := fun j => memcpy heap 0 buf₃ makeSuper.usedBlockBitmapCount.toNat j.toNat
    fdArray := fun i => { s.fdArray i with used := false }
    mounted := true }
  refine ⟨s₂, ?_, ⟨rfl, rfl, rfl, fun i hi => ?_, fun b hb => ?_, fun b hb => ?_, fun fd => rfl⟩, rfl⟩
  · have h4 : mountBitmap { s₁ with table := fun b => inodeAt tab (b.toNat * 8) } buf₂ heap =
        some (0, s₂) := by
      simp only [mountBitmap, s₁, hread₃]
      rw [if_neg (by decide)]
    have h3 : mountInodes s₁ buf₁ heap = some (0, s₂) := by
      have hn : mountTable s₁.disk s₁.super.inodeMetadataOffset s₁.super.inodeMetadataBlocks.toNat 0
          buf₁ (fun _ => 0) = some (true, buf₂, tab) := hread₂
      simp only [mountInodes, hn]
      exact h4
    have h2 : mountDirectory { s with disk := ⟨s.disk.files, some d⟩, super := makeSuper } buf₀ heap =
        some (0, s₂) := by
      simp only [mountDirectory, hread₁]
      exact h3
    have h1 : mountSuper { s with disk := ⟨s.disk.files, some d⟩ } heap = some (0, s₂) := by
      simp only [mountSuper, hread₀, hsuper]
      exact h2
    unfold mountFs
    rw [if_neg (by simp), if_neg (by simp [hm]), hopen, if_neg (by simp)]
    exact h1
  · exact loadedEntry (fun k hk => (hbuf₁ k (by unfold blockSize; omega)).trans (h.dir k hk))
      hdir.entry hi
  · exact loadedInode h htable htab' hb
  · have hb' := dataBlock_iff.mp hb
    exact memcpy_of_ge _ _ (show 2 ≤ b.toNat by omega)

/-! ## Reading the metadata off the disk -/

/-- The directory on the disk. -/
def storedDir (d : Disk) : Int → DirectoryEntry := fun i => entryAt (d.block 1) (i.toNat * 32)

/-- The inode table on the disk. -/
def storedTable (d : Disk) : Int → Inode := fun b =>
  inodeAt (fun p => d.block (4 + (p / blockSize : Nat)) (p % blockSize)) (b.toNat * 8)

section Stored

variable {d : Disk} {dir : Int → DirectoryEntry} {table : Int → Inode}

theorem Holds.storedDir_eq (h : Holds d dir table) (hd : DirShape dir) {i : Int} (hi : IsSlot i) :
    storedDir d i = dir i := by
  rw [← entryAt_directoryBytes dir hi.1 (hd.entry i hi)]
  refine entryAt_congr fun k hk => h.dir _ ?_
  unfold IsSlot maxNumOfFiles at hi
  omega

theorem Holds.storedTable_eq (h : Holds d dir table) (ht : TableShape table) {b : Int}
    (hb : InBlocks b) : storedTable d b = table b :=
  loadedInode h ht (fun _ _ => rfl) hb

/-- The disk holds what can be read off it. -/
theorem Holds.stored (h : Holds d dir table) (hd : DirShape dir) (ht : TableShape table) :
    Holds d (storedDir d) (storedTable d) where
  ready := h.ready
  super := h.super
  dir := fun k hk => by
    rw [h.dir k hk]
    unfold directoryBytes
    rw [h.storedDir_eq hd (i := ((k / 32 : Nat) : Int)) ⟨by omega, by unfold maxNumOfFiles; omega⟩]
  table := fun i hi k hk => by
    rw [h.table i hi k hk]
    unfold tableBytes
    unfold blockSize at *
    rw [h.storedTable_eq ht (b := (((i * 4096 + k) / 8 : Nat) : Int))
      ⟨by omega, by unfold diskBlocks; omega⟩]

theorem Holds.storedDir_shape (h : Holds d dir table) (hd : DirShape dir) : DirShape (storedDir d) := by
  have hs : ∀ i, IsSlot i → storedDir d i = dir i := fun i hi => h.storedDir_eq hd hi
  have hu : ∀ i, Used (storedDir d) i → Used dir i := fun i hi =>
    ⟨hi.1, by rw [← hs i hi.1]; exact hi.2⟩
  refine ⟨fun i hi => ?_, fun i hi => ?_, fun i hi => ?_, fun i j hi hj => ?_⟩
  · rw [hs i hi]; exact hd.entry i hi
  · rw [hs i hi]; exact hd.inode i hi
  · rw [hs i hi]; exact hd.emptyName i hi
  · rw [hs i hi.1, hs j hj.1]; exact hd.names i j (hu i hi) (hu j hj)

theorem Holds.storedTable_shape (h : Holds d dir table) (ht : TableShape table) :
    TableShape (storedTable d) :=
  fun b hb => by rw [h.storedTable_eq ht hb]; exact ht b hb

end Stored

/-! ## The loaded state -/

theorem noEntry_storable : noEntry.Storable :=
  ⟨isInt32_zero, by decide, isInt32_zero, isInt32_zero⟩

section Loaded

variable {s : FS} {d : Disk} {dir : Int → DirectoryEntry} {table : Int → Inode} {heap : Buf}

theorem Loaded.of_used (h : Loaded s d dir table heap) {i : Int} (hi : Used s.directory i) :
    i < 16 ∧ s.directory i = dir i ∧ Used dir i := by
  have hd := h.dir i hi.1
  split at hd
  · next hlt => exact ⟨hlt, hd, hi.1, by rw [← hd]; exact hi.2⟩
  · have hu := hi.2
    rw [hd] at hu
    cases hu

theorem Loaded.used (h : Loaded s d dir table heap) {i : Int} (hi : Used dir i) (hlt : i < 16) :
    Used s.directory i ∧ s.directory i = dir i := by
  have hd := h.dir i hi.1
  rw [if_pos hlt] at hd
  exact ⟨⟨hi.1, by rw [hd]; exact hi.2⟩, hd⟩

theorem Loaded.shape (h : Loaded s d dir table heap) (hdir : DirShape dir) (ht : TableShape table) :
    Shape s := by
  refine ⟨h.super, fun b hb => ?_, fun i hi => ?_, fun i hi => ?_, fun i hi hu => ?_,
    fun i j hi hj he => ?_⟩
  · rw [h.table b hb]; exact ht b hb
  · rw [h.dir i hi]
    split
    · exact hdir.entry i hi
    · exact noEntry_storable
  · rw [h.dir i hi]
    split
    · exact hdir.inode i hi
    · simp [noEntry, dataBlock_iff]
  · rw [h.dir i hi] at hu ⊢
    split at hu
    · next hlt => rw [if_pos hlt]; exact hdir.emptyName i hi hu
    · next hge => rw [if_neg hge]; decide
  · obtain ⟨-, hdi, hui⟩ := h.of_used hi
    obtain ⟨-, hdj, huj⟩ := h.of_used hj
    rw [hdi, hdj] at he
    exact hdir.names i j hui huj he

end Loaded

theorem emptyDir_shape (junk : Junk) : DirShape (fun _ => emptyDir junk) where
  entry := fun _ _ => ⟨isInt32_neg_one, by simp [emptyDir, junk.length_name], isInt32_zero, isInt32_zero⟩
  inode := fun _ _ => by simp [emptyDir, dataBlock_iff]
  emptyName := fun _ _ _ => by simp [emptyDir, cstr]
  names := fun _ _ hi => by simp [Used, emptyDir] at hi

theorem emptyInode_shape (junk : Junk) : TableShape (fun _ => emptyInode junk) :=
  fun _ _ => .inl rfl

/-- make_fs and mount_fs in a fresh process succeed. -/
theorem session_ready (files : String → Option Image) (d : String) (junk : Junk) (heap : Buf) :
    ∃ s files', session files d junk heap = some (0, s) ∧ Disk.Ready ⟨files', some d⟩ ∧
      Loaded s ⟨files', some d⟩ (fun _ => emptyDir junk) (fun _ => emptyInode junk) heap ∧
      ∀ fd, s.fdArray fd = ⟨false, 0, 0⟩ := by
  obtain ⟨files', hmake, hholds⟩ := makeFs_ready files d junk
  obtain ⟨s, hs, hl, hfd⟩ := mountFs_ready (s := { boot files with disk := ⟨files', none⟩ }) rfl rfl hholds
    (emptyDir_shape junk) (emptyInode_shape junk) heap
  refine ⟨s, files', ?_, hholds.ready, hl, fun fd => by rw [hfd]; rfl⟩
  unfold session
  rw [hmake]
  exact hs

end EC440.FileSystem
