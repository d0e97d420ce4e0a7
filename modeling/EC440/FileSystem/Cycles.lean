/-
  Runs with any number of umount_fs and mount_fs calls.

  The files stay in order over a mount_fs when the memory `malloc` returned for the bitmap is
  nonzero at their blocks, since mount_fs leaves all of the data part of the bitmap as it was.
  The open counts stay right when in addition umount_fs is called with no open descriptor: it
  closes the descriptors but leaves the counts, and writes them to the disk.
-/
import EC440.FileSystem.Persist

namespace EC440.FileSystem

open EC440.Lib

/-- `heap` is nonzero at the blocks of the files in the first 16 entries on the disk. -/
def MarksStored (d : Disk) (heap : Buf) : Prop :=
  ∀ i, Used (storedDir d) i → i < 16 →
    ∀ j ∈ fileBlocks (storedTable d) (storedDir d i).inodeNumber, heap j.toNat ≠ 0

/-- mount_fs gets memory for the bitmap that marks the files on the disk. -/
def MarkedMount (d : String) (s : FS) : Call → Prop
  | .mount diskName heap =>
      diskName = some d ∧ (s.mounted = false → MarksStored ⟨s.disk.files, some d⟩ heap)
  | _ => True

theorem MarkedMount.onDisk {d : String} {s : FS} {c : Call} (h : MarkedMount d s c) : c.OnDisk d := by
  cases c with
  | mount _ _ => exact h.1
  | _ => trivial

/-- The files in memory, or on the closed disk, have chains of their own. -/
structure Cycled (d : String) (s : FS) : Prop where
  attached : Attached d s
  files : ∃ ch, Files (· ≠ 0) s ch
  stored : s.mounted = false → ∃ ch, Chains (fun _ => True) (storedTable ⟨s.disk.files, some d⟩)
    (fun _ => 0) (storedDir ⟨s.disk.files, some d⟩) ch

theorem Loaded.chains {s : FS} {d : Disk} {heap : Buf} {bitmap : Int → UInt8} {ch : Int → List Int}
    (h : Loaded s d (storedDir d) (storedTable d) heap)
    (hc : Chains (fun _ => True) (storedTable d) bitmap (storedDir d) ch) (hm : MarksStored d heap) :
    Chains (· ≠ 0) s.table s.usedBlockBitmap s.directory ch := by
  refine hc.transfer (fun i hi => ?_) h.table fun i hi b hb => ?_
  · obtain ⟨-, he, hu⟩ := h.of_used hi
    exact ⟨hu, he⟩
  · obtain ⟨hlt, -, hu⟩ := h.of_used hi
    rw [h.bitmap b (hc.blocks i hu b hb).1]
    exact hm i hu hlt b (by rw [hc.fileBlocks_eq hu]; exact hb)

/-- What an unmounted file system has on its disk. -/
theorem Holds.chains {d : Disk} {s : FS} {P : UInt8 → Prop} {ch : Int → List Int}
    (h : Holds d s.directory s.table) (hf : Files P s ch) :
    Chains (fun _ => True) (storedTable d) (fun _ => 0) (storedDir d) ch := by
  refine hf.chains.transfer (fun i hi => ?_) (fun b hb => h.storedTable_eq hf.shape.table hb)
    fun _ _ _ _ => trivial
  have he := h.storedDir_eq hf.shape.dir hi.1
  exact ⟨⟨hi.1, by rw [← he]; exact hi.2⟩, he⟩

theorem Cycled.step {d : String} {s s' : FS} {c : Call} {r : Ret} (hc : MarkedMount d s c)
    (h : Cycled d s) (hs : s.step c = some (r, s')) : Cycled d s' := by
  have ha := h.attached.step hc.onDisk hs
  obtain ⟨ch, hf⟩ := h.files
  obtain hfs | ⟨name, rfl⟩ | ⟨name, heap, rfl⟩ := c.isFs_or
  · obtain ⟨hm, hk⟩ := h.attached.shape.step_disk hfs hs
    obtain ⟨ch', hf', -⟩ := Files.step (P := (· ≠ 0)) (by decide) (by decide) hfs hf hs
    refine ⟨ha, ⟨ch', hf'⟩, fun hm' => ?_⟩
    rw [hk.closed (h.attached.closed (hm ▸ hm')).1]
    exact h.stored (hm ▸ hm')
  · obtain ⟨-, rfl⟩ | ⟨-, -, -, -, -, hdir, htab, hbit, -, hholds⟩ :=
      h.attached.umount (codeOnly_eq_some hs).1
    · exact h
    · refine ⟨ha, ⟨ch, ha.shape, by rw [htab, hbit, hdir]; exact hf.chains⟩, fun _ => ⟨ch, ?_⟩⟩
      exact hholds.chains hf
  · obtain ⟨rfl, hmarks⟩ := hc
    obtain ⟨-, rfl, -⟩ | ⟨-, hm, -, hl⟩ := h.attached.mount (codeOnly_eq_some hs).1
    · exact h
    · obtain ⟨ch', hch⟩ := h.stored hm
      exact ⟨ha, ⟨ch', ha.shape, hl.chains hch (hmarks hm)⟩,
        fun hm' => absurd (hl.mounted.symm.trans hm') (by decide)⟩

theorem Fresh.cycled {d : String} {s : FS} (h : Fresh s d) : Cycled d s where
  attached := h.attached
  files := ⟨fun _ => [], h.files _ _⟩
  stored := fun hm => absurd (h.mounted.symm.trans hm) (by decide)

/-! ## The free-space map -/

/-- The free-space map after mount_fs. On a new disk it is right exactly when the memory it is
    left with is zero; after umount_fs and mount_fs exactly when that memory marks the blocks of
    the loaded files. In runs in which mount_fs always gets memory that marks the files on the
    disk, no block that the bitmap shows as free belongs to a file. -/
theorem bitmap_after_mount {files : String → Option Image} {d : String} {junk : Junk} {heap : Buf} {r : Int}
    {s₀ : FS} (h : session files d junk heap = some (r, s₀)) :
    (BitmapOk s₀ ↔ ∀ j, DataBlock j → heap j.toNat = 0) ∧
    (∀ es s heap', Run (Guarded FS.step fun _ c => c.OnDisk d) s₀ es s → s.mounted = true →
      ∃ s₁ s₂, umountFs s (some d) = some (0, s₁) ∧ mountFs s₁ (some d) heap' = some (0, s₂) ∧
        (BitmapOk s₂ ↔ HeapMarks heap' s.directory s.table)) ∧
    (∀ es s, Run (Guarded FS.step (MarkedMount d)) s₀ es s → ∀ j, s.usedBlockBitmap j = 0 →
      ∀ i, Used s.directory i → j ∉ fileBlocks s.table (s.directory i).inodeNumber) := by
  refine ⟨?_, fun es s heap' hrun hm => ?_, fun es s hrun j hj i hi => ?_⟩
  · obtain ⟨s', files', hs, -, hl, -⟩ := session_ready files d junk heap
    rw [hs, Option.some.injEq, Prod.mk.injEq] at h
    obtain ⟨-, rfl⟩ := h
    rw [hl.bitmapOk_iff (emptyDir_shape junk)]
    refine forall_congr' fun j => imp_congr_right fun _ => ?_
    have hnone : ¬ ∃ i, Used (fun _ => emptyDir junk) i ∧ i < 16 ∧
        j ∈ fileBlocks (fun _ => emptyInode junk) (emptyDir junk).inodeNumber := by
      rintro ⟨i, hi, -⟩
      simp [Used, emptyDir] at hi
    rw [iff_false_right hnone, not_not]
  · have ha := attached_of_run h hrun
    obtain ⟨s₁, s₂, hu, hmt, hl, -⟩ := ha.remount hm heap'
    exact ⟨s₁, s₂, hu, hmt, hl.bitmapOk_iff ha.shape.dir⟩
  · have hc : Cycled d s := hrun.invariant (I := Cycled d) (session_fresh h).cycled
      fun _ _ _ hi hs => hi.step hs.1 hs.2
    obtain ⟨ch, hf⟩ := hc.files
    rw [hf.chains.fileBlocks_eq hi]
    exact hf.chains.notMem_of_free (P := (· ≠ 0)) (by decide) hj hi

/-- With memory of zeros the map is right on a new disk, and no longer after umount_fs and mount_fs with a
    file on it. -/
theorem bitmap_after_mount_disk : ∃ r s₀ es s s₁ s₂,
    session (fun _ => none) "disk" zeroJunk (fun _ => 0) = some (r, s₀) ∧ BitmapOk s₀ ∧
      Run (Guarded FS.step fun _ c => c.OnDisk "disk") s₀ es s ∧ Used s.directory 0 ∧
      umountFs s (some "disk") = some (0, s₁) ∧ mountFs s₁ (some "disk") (fun _ => 0) = some (0, s₂) ∧
      ¬ BitmapOk s₂ := by
  obtain ⟨r, s₀, es, s, hs, hrun, hp⟩ := session_exec (fun _ c => c.OnDisk "disk") (fun _ _ => true) [.create nameA]
    (fun s => decide (s.mounted = true ∧ Used s.directory 0 ∧
      20 ∈ fileBlocks s.table (s.directory 0).inodeNumber))
    (by
      intro s c hc _
      rw [List.mem_singleton.mp hc]
      trivial)
    (show (session (fun _ => none) "disk" zeroJunk (fun _ => 0)).bind _ = some true by decide +kernel)
  obtain ⟨hm, hused, hblock⟩ := of_decide_eq_true hp
  obtain ⟨hnew, hremount, -⟩ := bitmap_after_mount hs
  obtain ⟨s₁, s₂, hu, hmt, hiff⟩ := hremount es s (fun _ => 0) hrun hm
  refine ⟨r, s₀, es, s, s₁, s₂, hs, hnew.mpr fun _ _ => rfl, hrun, hused, hu, hmt, fun hok => ?_⟩
  exact (hiff.mp hok 20 (by decide)).mpr ⟨0, hused, by decide, hblock⟩ rfl

/-- Memory that holds a nonzero byte for block 20 marks it as taken on a new disk. -/
theorem mount_keeps_heap_bitmap :
    ¬ ∀ (files : String → Option Image) (d : String) (junk : Junk) (heap : Buf) (r : Int) (s₀ : FS),
      session files d junk heap = some (r, s₀) → BitmapOk s₀ := by
  intro hall
  obtain ⟨s, files', hs, -, hl, -⟩ := session_ready (fun _ => none) "disk" zeroJunk (fun _ => 1)
  have hb := (hl.bitmapOk_iff (emptyDir_shape zeroJunk)).mp (hall _ _ _ _ _ _ hs)
  obtain ⟨i, hi, -⟩ := (hb 20 (by decide)).mp (by decide)
  simp [Used, emptyDir] at hi

/-! ## Open counts -/

/-- Every file's count is the number of descriptors open on it. -/
def CountsOk (s : FS) : Prop :=
  ∀ i, Used s.directory i → (s.directory i).count = openCount s.fdArray (s.directory i).inodeNumber

/-- fs_delete of an existing file returns, and fails exactly when a descriptor is open on it. -/
def DeletesClosed (s : FS) : Prop :=
  ∀ (name : CString) i, name.chars ≠ [] → Used s.directory i → name.chars = cstr (s.directory i).name →
    ∃ r s', fsDelete s name = some (r, s') ∧ (r = 0 ∨ r = -1) ∧
      (r = -1 ↔ ∃ fd, IsFd fd ∧ (s.fdArray fd).used = true ∧
        (s.fdArray fd).inodeNumber = (s.directory i).inodeNumber)

/-- Calls with non-empty names; umount_fs only with no open descriptor; mount_fs with memory for
    the bitmap that marks the files on the disk. -/
def CountCall (d : String) (s : FS) : Call → Prop
  | .umount diskName => diskName.isSome = true → s.mounted = true →
      ∀ fd, IsFd fd → (s.fdArray fd).used = false
  | .mount diskName heap =>
      diskName = some d ∧ (s.mounted = false → MarksStored ⟨s.disk.files, some d⟩ heap)
  | c => c.Named

theorem CountCall.markedMount {d : String} {s : FS} {c : Call} (h : CountCall d s c) :
    MarkedMount d s c := by
  cases c with
  | mount _ _ => exact h
  | _ => trivial

theorem CountCall.named {d : String} {s : FS} {c : Call} (h : CountCall d s c) : c.Named := by
  cases c with
  | create _ => exact h
  | «open» _ => exact h
  | delete _ => exact h
  | _ => trivial

/-- In memory the counts are right; on the closed disk they are 0. -/
structure Counted (d : String) (s : FS) : Prop where
  cycled : Cycled d s
  fds : Fds s.directory s.fdArray
  stored : s.mounted = false → ∀ i, Used (storedDir ⟨s.disk.files, some d⟩) i →
    (storedDir ⟨s.disk.files, some d⟩ i).count = 0

theorem fds_of_closed {dir : Int → DirectoryEntry} {fds : Int → FileDescriptor}
    (hfd : ∀ fd, IsFd fd → (fds fd).used = false) (hc : ∀ i, Used dir i → (dir i).count = 0) :
    Fds dir fds where
  count := fun i hi => by
    rw [hc i hi, openCount_eq_zero.mpr fun fd h hu => by rw [hfd fd h] at hu; cases hu]
    rfl
  linked := fun fd h hu => by rw [hfd fd h] at hu; cases hu

theorem Counted.step {d : String} {s s' : FS} {c : Call} {r : Ret} (hc : CountCall d s c)
    (h : Counted d s) (hs : s.step c = some (r, s')) : Counted d s' := by
  have hcy := h.cycled.step hc.markedMount hs
  obtain ⟨ch, hf⟩ := h.cycled.files
  obtain hfs | ⟨name, rfl⟩ | ⟨name, heap, rfl⟩ := c.isFs_or
  · obtain ⟨hm, hk⟩ := h.cycled.attached.shape.step_disk hfs hs
    refine ⟨hcy, Fds.step (P := (· ≠ 0)) (by decide) hfs hc.named hf h.fds hs, fun hm' => ?_⟩
    rw [hk.closed (h.cycled.attached.closed (hm ▸ hm')).1]
    exact h.stored (hm ▸ hm')
  · have hx := (codeOnly_eq_some hs).1
    obtain ⟨-, rfl⟩ | ⟨hr, hm, -, -, -, hdir, -, -, hfd, hholds⟩ := h.cycled.attached.umount hx
    · exact h
    · have hname : name.isSome = true := by
        cases name with
        | none =>
            simp only [umountFs, Option.isNone_none, if_true, Option.some.injEq, Prod.mk.injEq] at hx
            rw [hr] at hx
            exact absurd hx.1 (by decide)
        | some _ => rfl
      have hclosed := hc hname hm
      have hcount : ∀ i, Used s.directory i → (s.directory i).count = 0 := by
        intro i hi
        rw [h.fds.count i hi, openCount_eq_zero.mpr fun fd h hu => by rw [hclosed fd h] at hu; cases hu]
        rfl
      refine ⟨hcy, ?_, fun _ i hi => ?_⟩
      · rw [hdir, hfd]
        exact fds_of_closed (fun fd hfd => by simp [closedFd, hclosed fd hfd]) hcount
      · have he := hholds.storedDir_eq hf.shape.dir hi.1
        rw [he]
        exact hcount i ⟨hi.1, by rw [← he]; exact hi.2⟩
  · obtain ⟨rfl, -⟩ := hc
    obtain ⟨-, rfl, -⟩ | ⟨-, hm, -, hl⟩ := h.cycled.attached.mount (codeOnly_eq_some hs).1
    · exact h
    · refine ⟨hcy, fds_of_closed (fun fd _ => hl.fds fd) fun i hi => ?_,
        fun hm' => absurd (hl.mounted.symm.trans hm') (by decide)⟩
      obtain ⟨-, he, hu⟩ := hl.of_used hi
      rw [he]
      exact h.stored hm i hu

theorem Counted.deletesClosed {d : String} {s : FS} (h : Counted d s) : DeletesClosed s := by
  intro name i hn hi hname
  obtain ⟨ch, hf⟩ := h.cycled.files
  have hshape := hf.shape
  have hfind : firstIn (fun i => name.chars == cstr (s.directory i).name) 0 maxNumOfFiles = some i := by
    refine firstIn_unique hi.1.1 hi.1.2 (by simpa using hname) fun k h1 h2 hk => ?_
    have hk' : name.chars = cstr (s.directory k).name := by simpa using hk
    exact hshape.dir.names k i (hshape.used_of_name hn ⟨h1, h2⟩ hk') hi (hk'.symm.trans hname)
  have hopen : (0 < (s.directory i).count) ↔ ∃ fd, IsFd fd ∧ (s.fdArray fd).used = true ∧
      (s.fdArray fd).inodeNumber = (s.directory i).inodeNumber := by
    rw [h.fds.count i hi]
    have hz : openCount s.fdArray (s.directory i).inodeNumber = 0 ↔ _ := openCount_eq_zero
    constructor
    · intro hpos
      by_contra hno
      push Not at hno
      have := hz.mpr fun fd h1 h2 => hno fd h1 h2
      omega
    · rintro ⟨fd, h1, h2, h3⟩
      by_contra hle
      exact hz.mp (by omega) fd h1 h2 h3
  unfold fsDelete
  rw [hfind]
  dsimp only
  by_cases hc : 0 < (s.directory i).count
  · exact ⟨-1, s, by rw [if_pos hc], .inr rfl, fun _ => hopen.mp hc, fun _ => rfl⟩
  · rw [if_neg hc, hf.freeChain_eq hi]
    exact ⟨0, _, rfl, .inl rfl, fun h0 => absurd h0 (by decide), fun he => absurd (hopen.mpr he) hc⟩

/-- In every run in which umount_fs is called with no open descriptor and mount_fs gets memory
    that marks the files on the disk, the counts are right, and fs_delete fails exactly for files
    with an open descriptor. -/
theorem run_counts {files : String → Option Image} {d : String} {junk : Junk} {heap : Buf} {r : Int}
    {s₀ s : FS} {es : List (Call × Ret)} (h : session files d junk heap = some (r, s₀))
    (hrun : Run (Guarded FS.step (CountCall d)) s₀ es s) : CountsOk s ∧ DeletesClosed s := by
  have hf := session_fresh h
  have hc : Counted d s := hrun.invariant (I := Counted d)
    ⟨hf.cycled, hf.fds, fun hm => absurd (hf.mounted.symm.trans hm) (by decide)⟩
    fun _ _ _ hi hs => hi.step hs.1 hs.2
  exact ⟨hc.fds.count, hc.deletesClosed⟩

/-- The test on umount_fs for runs on given calls. -/
def noOpenFd (s : FS) : Bool := (List.range 32).all fun fd => !(s.fdArray fd).used

theorem noOpenFd_spec {s : FS} (h : noOpenFd s = true) : ∀ fd, IsFd fd → (s.fdArray fd).used = false := by
  intro fd hfd
  unfold IsFd maxFileDescriptor at hfd
  have := List.all_eq_true.mp h fd.toNat (List.mem_range.mpr (by omega))
  rw [Int.toNat_of_nonneg hfd.1] at this
  simpa using this

/-- Created, opened, closed, unmounted, mounted again and opened twice. -/
theorem run_counts_remount : ∃ r s₀ es s,
    session (fun _ => none) "disk" zeroJunk (fun _ => 0) = some (r, s₀) ∧
      Run (Guarded FS.step (CountCall "disk")) s₀ es s ∧ (CountsOk s ∧ DeletesClosed s) ∧
      (s.directory 0).count = 2 := by
  obtain ⟨r, s₀, es, s, hs, hrun, hp⟩ := session_exec (CountCall "disk")
    (fun s c => match c with | .umount _ => noOpenFd s | _ => true)
    [.create nameA, .open nameA, .close 0, .umount (some "disk"), .mount (some "disk") (fun _ => 1),
      .open nameA, .open nameA] (fun s => (s.directory 0).count == 2)
    (by
      intro s c hc hok
      simp only [List.mem_cons, List.not_mem_nil, or_false] at hc
      rcases hc with rfl | rfl | rfl | rfl | rfl | rfl | rfl
      · exact List.cons_ne_nil _ _
      · exact List.cons_ne_nil _ _
      · trivial
      · exact fun _ _ => noOpenFd_spec hok
      · exact ⟨rfl, fun _ _ _ _ _ _ => (by decide : (1 : UInt8) ≠ 0)⟩
      · exact List.cons_ne_nil _ _
      · exact List.cons_ne_nil _ _)
    (show (session (fun _ => none) "disk" zeroJunk (fun _ => 0)).bind _ = some true by decide +kernel)
  exact ⟨r, s₀, es, s, hs, hrun, run_counts hs hrun, by simpa using hp⟩

/-- umount_fs with an open descriptor leaves the count at 1. -/
theorem umount_keeps_count :
    ¬ ∀ (files : String → Option Image) (d : String) (junk : Junk) (heap : Buf) (r : Int) (s₀ s : FS)
      (es : List (Call × Ret)), session files d junk heap = some (r, s₀) →
      Run (Guarded FS.step fun _ c => c.InSession ∨ c = .umount (some d) ∨
        ∃ heap, c = .mount (some d) heap) s₀ es s → CountsOk s := by
  intro hall
  obtain ⟨r, s₀, es, s, hs, hrun, hp⟩ := session_exec
    (fun _ c => c.InSession ∨ c = .umount (some "disk") ∨ ∃ heap, c = .mount (some "disk") heap)
    (fun _ _ => true)
    [.create nameA, .open nameA, .umount (some "disk"), .mount (some "disk") (fun _ => 1)]
    (fun s => decide (Used s.directory 0 ∧ (s.directory 0).count = 1) && noOpenFd s)
    (by
      intro s c hc _
      simp only [List.mem_cons, List.not_mem_nil, or_false] at hc
      rcases hc with rfl | rfl | rfl | rfl
      · exact .inl (List.cons_ne_nil _ _)
      · exact .inl (List.cons_ne_nil _ _)
      · exact .inr (.inl rfl)
      · exact .inr (.inr ⟨_, rfl⟩))
    (show (session (fun _ => none) "disk" zeroJunk (fun _ => 0)).bind _ = some true by decide +kernel)
  obtain ⟨h1, hno⟩ := (Bool.and_eq_true _ _).mp hp
  obtain ⟨hu, hcount⟩ := of_decide_eq_true h1
  have hok := hall _ _ _ _ _ _ _ _ hs hrun 0 hu
  rw [hcount, openCount_eq_zero.mpr fun fd hfd hused => by
    rw [noOpenFd_spec hno fd hfd] at hused; cases hused] at hok
  exact absurd hok (by decide)

end EC440.FileSystem
