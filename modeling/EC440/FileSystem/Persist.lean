/-
  Unmounting and mounting again: which files and which part of the free-space map survive.

  umount_fs writes all 64 directory entries and the inode table but not the bitmap. mount_fs
  copies `sizeof(Directory) * MAX_NUM_OF_FILES` bytes of the directory, where `Directory` is a
  pointer, so only the first 16 entries come back; and it fills only
  `used_block_bitmap_count` = 2 bytes of the bitmap.
-/
import EC440.FileSystem.Data
import EC440.FileSystem.Session

namespace EC440.FileSystem

open EC440.Lib

/-- The calls of a process that uses the one disk `d`. -/
def Call.OnDisk (d : String) : Call → Prop
  | .mount diskName _ => diskName = some d
  | _ => True

instance (d : String) : DecidablePred (Call.OnDisk d)
  | .mount diskName _ => inferInstanceAs (Decidable (diskName = some d))
  | .create _ | .open _ | .close _ | .delete _ | .read _ _ _ | .write _ _ _ | .getFilesize _
  | .listfiles | .lseek _ _ | .truncate _ _ | .umount _ => isTrue trivial

theorem Call.InSession.onDisk {c : Call} (h : c.InSession) (d : String) : c.OnDisk d := by
  cases c with
  | mount _ _ => exact h.elim
  | _ => trivial

/-- The disk holds a file system. -/
structure OnImage (d : Disk) : Prop where
  holds : Holds d (storedDir d) (storedTable d)
  dir : DirShape (storedDir d)
  table : TableShape (storedTable d)

theorem Holds.onImage {d : Disk} {dir : Int → DirectoryEntry} {table : Int → Inode} (h : Holds d dir table)
    (hd : DirShape dir) (ht : TableShape table) : OnImage d :=
  ⟨h.stored hd ht, h.storedDir_shape hd, h.storedTable_shape ht⟩

/-- The disk is open under a mounted file system, or closed and holds one. -/
structure Attached (d : String) (s : FS) : Prop where
  shape : Shape s
  opened : s.mounted = true → s.disk.Ready ∧ s.disk.handle = some d
  closed : s.mounted = false → s.disk.handle = none ∧ OnImage ⟨s.disk.files, some d⟩

theorem Fresh.attached {s : FS} {d : String} (h : Fresh s d) : Attached d s where
  shape := h.shape
  opened := fun _ => ⟨h.ready, h.handle⟩
  closed := fun hm => by rw [h.mounted] at hm; cases hm

/-- umount_fs and mount_fs after each other, from a mounted state. -/
theorem Attached.remount {d : String} {s : FS} (h : Attached d s) (hm : s.mounted = true) (heap : Buf) :
    ∃ s₁ s₂, umountFs s (some d) = some (0, s₁) ∧ mountFs s₁ (some d) heap = some (0, s₂) ∧
      Loaded s₂ s₂.disk s.directory s.table heap ∧
      ∀ b, DataBlock b → ∀ k, k < blockSize → s₂.disk.block b k = s.disk.block b k := by
  obtain ⟨hr, hh⟩ := h.opened hm
  obtain ⟨files, hu, hholds, hdata⟩ := umountFs_ready d h.shape.super hm hr hh
  obtain ⟨s₂, hs₂, hl, -⟩ := mountFs_ready (s := { s with
      fdArray := fun i => closedFd (s.fdArray i), disk := ⟨files, none⟩, mounted := false })
    rfl rfl hholds h.shape.dir h.shape.table heap
  have hdisk : s₂.disk = ⟨files, some d⟩ := hl.disk
  exact ⟨_, s₂, hu, hs₂, by rw [hdisk]; exact hl, by rw [hdisk]; exact hdata⟩

/-- What umount_fs can do to a state in order. -/
theorem Attached.umount {d : String} {s s' : FS} {name : Option String} {r : Int} (h : Attached d s)
    (hc : umountFs s name = some (r, s')) :
    (r = -1 ∧ s' = s) ∨ (r = 0 ∧ s.mounted = true ∧ s'.mounted = false ∧ s'.disk.handle = none ∧
      s'.super = s.super ∧ s'.directory = s.directory ∧ s'.table = s.table ∧
      s'.usedBlockBitmap = s.usedBlockBitmap ∧ s'.fdArray = (fun i => closedFd (s.fdArray i)) ∧
      Holds ⟨s'.disk.files, some d⟩ s.directory s.table) := by
  cases name with
  | none =>
      simp only [umountFs, Option.isNone_none, if_true, Option.some.injEq, Prod.mk.injEq] at hc
      exact .inl ⟨hc.1.symm, hc.2.symm⟩
  | some name =>
      cases hm : s.mounted with
      | false =>
          simp only [umountFs, Option.isNone_some, Bool.false_eq_true, if_false, hm, Bool.not_false,
            if_true, Option.some.injEq, Prod.mk.injEq] at hc
          exact .inl ⟨hc.1.symm, hc.2.symm⟩
      | true =>
          obtain ⟨hr, hh⟩ := h.opened hm
          obtain ⟨files, hu, hholds, -⟩ := umountFs_ready name h.shape.super hm hr hh
          rw [hu, Option.some.injEq, Prod.mk.injEq] at hc
          obtain ⟨rfl, rfl⟩ := hc
          exact .inr ⟨rfl, rfl, rfl, rfl, rfl, rfl, rfl, rfl, rfl, hholds⟩

/-- What mount_fs can do to a state in order. -/
theorem Attached.mount {d : String} {s s' : FS} {heap : Buf} {r : Int} (h : Attached d s)
    (hc : mountFs s (some d) heap = some (r, s')) :
    (r = -1 ∧ s' = s ∧ s.mounted = true) ∨
    (r = 0 ∧ s.mounted = false ∧ OnImage ⟨s.disk.files, some d⟩ ∧ Loaded s' ⟨s.disk.files, some d⟩
      (storedDir ⟨s.disk.files, some d⟩) (storedTable ⟨s.disk.files, some d⟩) heap) := by
  cases hm : s.mounted with
  | true =>
      simp only [mountFs, Option.isNone_some, Bool.false_eq_true, if_false, hm, if_true,
        Option.some.injEq, Prod.mk.injEq] at hc
      exact .inl ⟨hc.1.symm, hc.2.symm, rfl⟩
  | false =>
      obtain ⟨hh, hon⟩ := h.closed hm
      obtain ⟨s₂, hs₂, hl, -⟩ := mountFs_ready hm hh hon.holds hon.dir hon.table heap
      rw [hs₂, Option.some.injEq, Prod.mk.injEq] at hc
      obtain ⟨rfl, rfl⟩ := hc
      exact .inr ⟨rfl, rfl, hon, hl⟩

/-- A call is an fs_* call, umount_fs or mount_fs. -/
theorem Call.isFs_or (c : Call) : c.IsFs ∨ (∃ name, c = .umount name) ∨ ∃ name heap, c = .mount name heap := by
  cases c
  case mount name heap => exact .inr (.inr ⟨name, heap, rfl⟩)
  case umount name => exact .inr (.inl ⟨name, rfl⟩)
  all_goals exact .inl trivial

/-- Every call on the one disk keeps the state in order. -/
theorem Attached.step {d : String} {s s' : FS} {c : Call} {r : Ret} (hc : c.OnDisk d)
    (h : Attached d s) (hs : s.step c = some (r, s')) : Attached d s' := by
  obtain hfs | ⟨name, rfl⟩ | ⟨name, heap, rfl⟩ := c.isFs_or
  · obtain ⟨hm, hk⟩ := h.shape.step_disk hfs hs
    refine ⟨h.shape.step hfs hs, fun hm' => ?_, fun hm' => ?_⟩
    · obtain ⟨hr, hh⟩ := h.opened (hm ▸ hm')
      exact ⟨hk.ready hr, hk.handle.trans hh⟩
    · obtain ⟨hh, hrest⟩ := h.closed (hm ▸ hm')
      rw [hk.closed hh]
      exact ⟨hh, hrest⟩
  · obtain ⟨-, rfl⟩ | ⟨-, -, hm, hh, hsup, hdir, htab, -, -, hholds⟩ := h.umount (codeOnly_eq_some hs).1
    · exact h
    · refine ⟨⟨hsup.trans h.shape.super, by rw [htab]; exact h.shape.table,
        by rw [hdir]; exact h.shape.dir⟩, fun hm' => absurd (hm.symm.trans hm') (by decide), fun _ => ?_⟩
      exact ⟨hh, hholds.onImage h.shape.dir h.shape.table⟩
  · cases hc
    obtain ⟨-, rfl, -⟩ | ⟨-, -, hon, hl⟩ := h.mount (codeOnly_eq_some hs).1
    · exact h
    · refine ⟨hl.shape hon.dir hon.table, fun _ => ?_,
        fun hm' => absurd (hl.mounted.symm.trans hm') (by decide)⟩
      rw [hl.disk]
      exact ⟨hon.holds.ready, rfl⟩

theorem attached_of_run {files : String → Option Image} {d : String} {junk : Junk} {heap : Buf} {r : Int}
    {s₀ s : FS} {es : List (Call × Ret)} (h : session files d junk heap = some (r, s₀))
    (hrun : Run (Guarded FS.step fun _ c => c.OnDisk d) s₀ es s) : Attached d s :=
  hrun.invariant (I := Attached d) (session_fresh h).attached fun _ _ _ ha hs => ha.step hs.1 hs.2

/-! ## Files -/

/-- There is a file of that name, size and content. -/
def HasFile (s : FS) (name : List UInt8) (size : Int) (bytes : List UInt8) : Prop :=
  ∃ i, Used s.directory i ∧ cstr (s.directory i).name = name ∧ (s.directory i).size = size ∧
    content s (s.directory i) = bytes

/-- The same files exist, with the same sizes and bytes. -/
def SameFiles (s s' : FS) : Prop :=
  ∀ name size bytes, HasFile s' name size bytes ↔ HasFile s name size bytes

/-- Links inside the table lead to the same blocks after loading. -/
theorem Loaded.fileBlocks_eq {s : FS} {d : Disk} {dir : Int → DirectoryEntry} {table : Int → Inode}
    {heap : Buf} (h : Loaded s d dir table heap) {b : Int} (hb : InBlocks b) :
    fileBlocks s.table b = fileBlocks table b := by
  refine walk_congr (P := InBlocks) (fun a ha => ?_) (fun a c _ hc => ?_) _ _ ?_
  · unfold linkOf; rw [h.table a ha]
  · unfold linkOf at hc
    split at hc
    · cases hc; assumption
    · cases hc
  · rintro a ⟨⟩; exact hb

/-- The blocks of a file, as far as its links lead, are data blocks. -/
theorem walk_dataBlock {table : Int → Inode} (ht : TableShape table) : ∀ (n : Nat) (o : Option Int),
    (∀ a, o = some a → DataBlock a) → ∀ b ∈ walk (linkOf table) n o, DataBlock b
  | 0, _, _, b, hb => by simp [walk] at hb
  | n + 1, none, _, b, hb => by simp [walk] at hb
  | n + 1, some a, ha, b, hb => by
      rw [walk, List.mem_cons] at hb
      rcases hb with rfl | hb
      · exact ha b rfl
      · refine walk_dataBlock ht n _ (fun c hc => ?_) b hb
        unfold linkOf at hc
        split at hc
        · next hin => cases hc; exact ht.next (ha a rfl).inBlocks hin
        · cases hc

theorem Shape.fileBlocks_data {s : FS} (h : Shape s) {i : Int} (hi : Used s.directory i) :
    ∀ b ∈ fileBlocks s.table (s.directory i).inodeNumber, DataBlock b :=
  walk_dataBlock h.table _ _ (by rintro a ⟨⟩; exact (h.dir.inode i hi.1).mp hi.2)

/-- umount_fs followed by mount_fs keeps the files exactly when all of them are in the first 16
    directory entries. -/
theorem Attached.sameFiles_iff {d : String} {s s₂ : FS} {heap : Buf} (h : Attached d s)
    (hl : Loaded s₂ s₂.disk s.directory s.table heap)
    (hdata : ∀ b, DataBlock b → ∀ k, k < blockSize → s₂.disk.block b k = s.disk.block b k) :
    SameFiles s s₂ ↔ ∀ i, Used s.directory i → i < 16 := by
  have hcontent : ∀ i, Used s.directory i → s₂.directory i = s.directory i →
      content s₂ (s₂.directory i) = content s (s.directory i) := by
    intro i hi he
    unfold content
    rw [he, hl.fileBlocks_eq ((h.shape.dir.inode i hi.1).mp hi.2).inBlocks,
      blockBytes_congr fun b hb => hdata b (h.shape.fileBlocks_data hi b hb)]
  constructor
  · intro hsame i hi
    obtain ⟨j, hj, hname, -, -⟩ := (hsame _ _ _).mpr ⟨i, hi, rfl, rfl, rfl⟩
    obtain ⟨hlt, he, hj'⟩ := hl.of_used hj
    rw [he] at hname
    rw [← h.shape.dir.names j i hj' hi hname]
    exact hlt
  · intro hall name size bytes
    constructor
    · rintro ⟨i, hi, rfl, rfl, rfl⟩
      obtain ⟨-, he, hi'⟩ := hl.of_used hi
      exact ⟨i, hi', by rw [he], by rw [he], (hcontent i hi' he).symm⟩
    · rintro ⟨i, hi, rfl, rfl, rfl⟩
      obtain ⟨hi', he⟩ := hl.used hi (hall i hi)
      exact ⟨i, hi', by rw [he], by rw [he], hcontent i hi he⟩

/-- Persistence: in every mounted state that calls on the disk lead to, umount_fs and mount_fs
    succeed, and they keep the names, sizes and bytes of the files exactly when no file is in a
    directory entry from the 17th on. -/
theorem remount_sameFiles_iff {files : String → Option Image} {d : String} {junk : Junk}
    {heap heap' : Buf} {r : Int} {s₀ s : FS} {es : List (Call × Ret)}
    (h : session files d junk heap = some (r, s₀))
    (hrun : Run (Guarded FS.step fun _ c => c.OnDisk d) s₀ es s) (hm : s.mounted = true) :
    ∃ s₁ s₂, umountFs s (some d) = some (0, s₁) ∧ mountFs s₁ (some d) heap' = some (0, s₂) ∧
      (SameFiles s s₂ ↔ ∀ i, Used s.directory i → i < 16) := by
  have ha := attached_of_run h hrun
  obtain ⟨s₁, s₂, hu, hmt, hl, hdata⟩ := ha.remount hm heap'
  exact ⟨s₁, s₂, hu, hmt, ha.sameFiles_iff hl hdata⟩

/-- One file with some bytes survives. -/
theorem remount_sameFiles_one : ∃ r s₀ es s,
    session (fun _ => none) "disk" zeroJunk (fun _ => 0) = some (r, s₀) ∧
      Run (Guarded FS.step fun _ c => c.OnDisk "disk") s₀ es s ∧ s.mounted = true ∧
      Used s.directory 0 ∧
      ∃ s₁ s₂, umountFs s (some "disk") = some (0, s₁) ∧
        mountFs s₁ (some "disk") (fun _ => 0) = some (0, s₂) ∧
        (SameFiles s s₂ ↔ ∀ i, Used s.directory i → i < 16) := by
  obtain ⟨r, s₀, es, s, hs, hrun, hp⟩ := session_exec (fun _ c => c.OnDisk "disk")
    (fun _ c => decide (c.OnDisk "disk"))
    [.create nameA, .open nameA, .write 0 [1, 2, 3] 3, .close 0]
    (fun s => decide (s.mounted = true ∧ Used s.directory 0))
    (fun s c _ h => of_decide_eq_true h)
    (show (session (fun _ => none) "disk" zeroJunk (fun _ => 0)).bind _ = some true by decide +kernel)
  obtain ⟨hm, hu⟩ := of_decide_eq_true hp
  exact ⟨r, s₀, es, s, hs, hrun, hm, hu, remount_sameFiles_iff hs hrun hm⟩

/-- The names "A", "B", ... of `n` files. -/
def letters (n : Nat) : List CString :=
  (List.range n).filterMap fun k =>
    if h : (0 : UInt8) ∉ [UInt8.ofNat (65 + k)] then some ⟨[UInt8.ofNat (65 + k)], h⟩ else none

/-- With 17 files the last one is gone after umount_fs and mount_fs. -/
theorem remount_loses_file_seventeen :
    ¬ ∀ (files : String → Option Image) (d : String) (junk : Junk) (heap heap' : Buf) (r : Int)
      (s₀ s s₁ s₂ : FS) (es : List (Call × Ret)), session files d junk heap = some (r, s₀) →
      Run (Guarded FS.step fun _ c => c.InSession) s₀ es s → umountFs s (some d) = some (0, s₁) →
      mountFs s₁ (some d) heap' = some (0, s₂) → SameFiles s s₂ := by
  intro hall
  obtain ⟨r, s₀, es, s, hs, hrun, hp⟩ := session_exec (fun _ c => c.InSession)
    (fun _ c => decide c.InSession) ((letters 17).map Call.create)
    (fun s => decide (s.mounted = true ∧ Used s.directory 16)) (fun s c _ h => of_decide_eq_true h)
    (show (session (fun _ => none) "disk" zeroJunk (fun _ => 0)).bind _ = some true by decide +kernel)
  obtain ⟨hm, hused⟩ := of_decide_eq_true hp
  have ha : Attached "disk" s := attached_of_run hs (hrun.mono fun s e s' hstep =>
    ⟨hstep.1.onDisk "disk", hstep.2⟩)
  obtain ⟨s₁, s₂, hu, hmt, hl, hdata⟩ := ha.remount hm (fun _ => 0)
  have hsame := hall _ _ _ _ _ _ _ _ _ _ _ hs hrun hu hmt
  exact absurd ((ha.sameFiles_iff hl hdata).mp hsame 16 hused) (by decide)

/-! ## The free-space map -/

/-- The bitmap marks exactly the data blocks that files have. -/
def BitmapOk (s : FS) : Prop :=
  ∀ j, s.super.dataOffset ≤ j → j < diskBlocks → (s.usedBlockBitmap j ≠ 0 ↔
    ∃ i, Used s.directory i ∧ j ∈ fileBlocks s.table (s.directory i).inodeNumber)

/-- `heap` is nonzero exactly at the blocks of the files in the first 16 entries. -/
def HeapMarks (heap : Buf) (dir : Int → DirectoryEntry) (table : Int → Inode) : Prop :=
  ∀ j, DataBlock j → (heap j.toNat ≠ 0 ↔
    ∃ i, Used dir i ∧ i < 16 ∧ j ∈ fileBlocks table (dir i).inodeNumber)

theorem Loaded.bitmapOk_iff {s : FS} {d : Disk} {dir : Int → DirectoryEntry} {table : Int → Inode}
    {heap : Buf} (h : Loaded s d dir table heap) (hdir : DirShape dir) :
    BitmapOk s ↔ HeapMarks heap dir table := by
  have hfiles : ∀ j, (∃ i, Used s.directory i ∧ j ∈ fileBlocks s.table (s.directory i).inodeNumber) ↔
      ∃ i, Used dir i ∧ i < 16 ∧ j ∈ fileBlocks table (dir i).inodeNumber := by
    intro j
    constructor
    · rintro ⟨i, hi, hj⟩
      obtain ⟨hlt, he, hi'⟩ := h.of_used hi
      rw [he, h.fileBlocks_eq ((hdir.inode i hi'.1).mp hi'.2).inBlocks] at hj
      exact ⟨i, hi', hlt, hj⟩
    · rintro ⟨i, hi, hlt, hj⟩
      obtain ⟨hi', he⟩ := h.used hi hlt
      refine ⟨i, hi', ?_⟩
      rw [he, h.fileBlocks_eq ((hdir.inode i hi.1).mp hi.2).inBlocks]
      exact hj
  unfold BitmapOk HeapMarks
  rw [h.super]
  constructor
  · intro hb j hj
    rw [← h.bitmap j hj, ← hfiles j]
    exact hb j hj.1 hj.2
  · intro hb j h1 h2
    rw [h.bitmap j ⟨h1, h2⟩, hfiles j]
    exact hb j ⟨h1, h2⟩

end EC440.FileSystem
