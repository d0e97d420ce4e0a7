/-
  The checks at the head of the calls: which descriptors they accept, and which names they find.

  fs_close and fs_get_filesize look the descriptor up in fd_array without a test of its range, as soon
  as there is a file, and the others let 32 pass. In 0..31 the calls rely on a descriptor that is not
  open leading to no file. fs_open and fs_delete compare names without a look at the use of the entry,
  and an entry that is not in use has the empty name.
-/
import EC440.FileSystem.Truncation
import EC440.FileSystem.Images

namespace EC440.FileSystem

open EC440.Lib

variable {s s' : FS} {ch : Int → List Int} {fd i r : Int} {name : CString}

/-! ## Descriptors over umount_fs and mount_fs -/

/-- mount_fs leaves the descriptors, or marks all of them as not in use. -/
def FdsMounted (s s' : FS) : Prop :=
  s'.fdArray = s.fdArray ∨ s'.fdArray = fun i => { s.fdArray i with used := false }

theorem mountFs_fds {diskName : Option String} {heap : Buf} (hc : mountFs s diskName heap = some (r, s')) :
    FdsMounted s s' := by
  have keep : ∀ {t : FS}, some ((-1 : Int), t) = some (r, s') → t.fdArray = s.fdArray → FdsMounted s s' := by
    intro t ht he
    rw [Option.some.injEq, Prod.mk.injEq] at ht
    rw [← ht.2]
    exact .inl he
  unfold mountFs at hc
  split at hc
  · exact keep hc rfl
  split at hc
  · exact keep hc rfl
  split at hc
  · exact keep hc rfl
  obtain ⟨-, -, he⟩ | ⟨-, -, he⟩ := (mountSuper_stage hc).outcome
  · exact .inr he
  · exact .inl he

/-- The calls of runs in which fs_open is called on a mounted file system only, and mount_fs gets
    memory for the bitmap that marks the files on the disk. -/
def MountedCall (d : String) (s : FS) (c : Call) : Prop :=
  MarkedMount d s c ∧ ∀ name, c = .open name → s.mounted = true

/-- The files have chains of their own, a descriptor not in use leads to no block, and without a
    mounted file system none is in use. -/
structure Tidy (d : String) (s : FS) : Prop where
  cycled : Cycled d s
  idle : Idle s.fdArray
  closed : s.mounted = false → ∀ fd, (s.fdArray fd).used = false

theorem Tidy.step {d : String} {c : Call} {ret : Ret} (h : Tidy d s) (hc : MountedCall d s c)
    (hs : s.step c = some (ret, s')) : Tidy d s' := by
  have hcy := h.cycled.step hc.1 hs
  obtain hfs | ⟨diskName, rfl⟩ | ⟨diskName, heap, rfl⟩ := c.isFs_or
  · have hshape := h.cycled.attached.shape
    refine ⟨hcy, h.idle.step hshape hfs hs, fun hm x => ?_⟩
    have hm' : s.mounted = false := (hshape.step_disk hfs hs).1 ▸ hm
    obtain he | ⟨fd, off, hu, -, -⟩ | ⟨name, fd, i, rfl, -, -⟩ | ⟨fd, -, he⟩ := hshape.step_fds hfs hs
    · rw [he]; exact h.closed hm' x
    · exact absurd ((h.closed hm' fd).symm.trans hu) (by decide)
    · exact absurd (hm'.symm.trans (hc.2 name rfl)) (by decide)
    · rw [he]
      by_cases hx : x = fd
      · rw [hx, Function.update_self]
      · rw [Function.update_of_ne hx]; exact h.closed hm' x
  · obtain ⟨-, rfl⟩ | ⟨-, -, -, -, -, -, -, -, hfd, -⟩ := h.cycled.attached.umount (codeOnly_eq_some hs).1
    · exact h
    have hused : ∀ x, (s'.fdArray x).used = false := by
      intro x
      rw [hfd]
      dsimp only
      unfold closedFd
      split
      · rfl
      · next hu => exact Bool.not_eq_true _ ▸ hu
    refine ⟨hcy, fun x hx => ?_, fun _ => hused⟩
    rw [hfd]
    dsimp only
    unfold closedFd
    split
    · decide
    · next hu => exact h.idle x (by simpa using hu)
  · have hx := (codeOnly_eq_some hs).1
    obtain ⟨rfl, -⟩ := hc.1
    obtain ⟨-, rfl, -⟩ | ⟨-, hm, -, hl⟩ := h.cycled.attached.mount hx
    · exact h
    refine ⟨hcy, fun x _ => ?_, fun _ => hl.fds⟩
    have hold := h.idle x (h.closed hm x)
    obtain he | he := mountFs_fds hx
    · rw [he]; exact hold
    · rw [he]; exact hold

theorem run_tidy {files : String → Option Image} {d : String} {junk : Junk} {heap : Buf} {s₀ : FS}
    {es : List (Call × Ret)} (h : session files d junk heap = some (r, s₀))
    (hrun : Run (Guarded FS.step (MountedCall d)) s₀ es s) : Tidy d s := by
  refine hrun.invariant (I := Tidy d) ⟨(session_fresh h).cycled, (session_sound h).idle, ?_⟩
    fun _ _ _ hi hg => hi.step hg.1 hg.2
  exact fun hm => absurd ((session_fresh h).mounted.symm.trans hm) (by decide)

/-! ## Which descriptors the calls accept -/

/-- fs_read, fs_write, fs_lseek and fs_truncate return -1 and change nothing. -/
structure RefusesMoves (s : FS) (fd : Int) : Prop where
  read : ∀ buf nbyte, fsRead s fd buf nbyte = some (-1, buf, s)
  write : ∀ buf nbyte, fsWrite s fd buf nbyte = some (-1, s)
  lseek : ∀ offset, fsLseek s fd offset = some (-1, s)
  truncate : ∀ length, fsTruncate s fd length = some (-1, s)

/-- The two calls without a test of the descriptor's range do so too. -/
structure Refuses (s : FS) (fd : Int) : Prop extends RefusesMoves s fd where
  close : fsClose s fd = some (-1, s)
  getFilesize : fsGetFilesize s fd = some (-1, s)

/-- `fd` is in 0..31 and in use. -/
def IsOpen (s : FS) (fd : Int) : Prop := IsFd fd ∧ (s.fdArray fd).used = true

/-- A descriptor that is not open is refused, and one that is open on a file leads to that file. -/
structure DescriptorChecked (s : FS) (fd : Int) : Prop where
  refused : ¬ IsOpen s fd → Refuses s fd
  found : IsOpen s fd → ∀ i, Used s.directory i → (s.directory i).inodeNumber = (s.fdArray fd).inodeNumber →
    dirIndex s.directory (s.fdArray fd).inodeNumber = some i

theorem refusesMoves_iff : (¬ IsOpen s fd → RefusesMoves s fd) ↔ fd ≠ maxFileDescriptor := by
  constructor
  · intro hall he
    have hno : ¬ IsOpen s fd := by
      intro ho
      have := ho.1.2
      omega
    have hread := (hall hno).lseek 0
    unfold fsLseek at hread
    rw [if_neg (by unfold maxFileDescriptor at *; omega), if_pos (by omega)] at hread
    cases hread
  · intro hne hno
    by_cases hout : fd < 0 ∨ maxFileDescriptor < fd
    · constructor
      · intro buf nbyte
        unfold fsRead
        rw [if_pos hout]
      · intro buf nbyte
        unfold fsWrite
        rw [if_pos hout]
      · intro offset
        unfold fsLseek
        rw [if_pos hout]
      · intro length
        unfold fsTruncate
        rw [if_pos hout]
    · have hlt : ¬ maxFileDescriptor ≤ fd := by omega
      have hun : (!(s.fdArray fd).used) = true := by
        rw [Bool.not_eq_true', ← Bool.not_eq_true]
        exact fun hu => hno ⟨⟨by omega, by omega⟩, hu⟩
      constructor
      · intro buf nbyte
        unfold fsRead
        rw [if_neg hout, if_neg hlt, if_pos (.inl hun)]
      · intro buf nbyte
        unfold fsWrite
        rw [if_neg hout, if_neg hlt, if_pos hun]
      · intro offset
        unfold fsLseek
        rw [if_neg hout, if_neg hlt, if_pos hun]
      · intro length
        unfold fsTruncate
        rw [if_neg hout, if_neg hlt, if_pos hun]

/-- A descriptor that is not in use has no file. -/
theorem Idle.dirIndex_eq (hi : Idle s.fdArray) (h : Shape s) (hu : (s.fdArray fd).used = false) :
    dirIndex s.directory (s.fdArray fd).inodeNumber = none := by
  rw [dirIndex_eq_none]
  intro i hused he
  exact hi fd hu (he ▸ (h.dir.inode i hused.1).mp hused.2)

/-- Without a file, a descriptor outside fd_array is refused by all calls but for 32. -/
theorem refuses_outside (hno : ¬ IsFd fd) (hne : fd ≠ maxFileDescriptor) (hnone : ∀ i, ¬ Used s.directory i) :
    Refuses s fd := by
  have hout : fd < 0 ∨ maxFileDescriptor ≤ fd := by
    unfold IsFd at hno
    omega
  refine ⟨refusesMoves_iff.mpr hne fun ho => hno ho.1, ?_, ?_⟩
  · unfold fsClose
    rw [if_pos hout, outsideFds_eq hnone]
  · unfold fsGetFilesize
    rw [if_pos hout, outsideFds_eq hnone]

theorem Tidy.checked_iff {d : String} (h : Tidy d s) :
    DescriptorChecked s fd ↔ IsFd fd ∨ fd ≠ maxFileDescriptor ∧ ∀ i, ¬ Used s.directory i := by
  constructor
  · intro hc
    by_cases hfd : IsFd fd
    · exact .inl hfd
    have hrefuses := hc.refused fun ho => hfd ho.1
    refine .inr ⟨refusesMoves_iff.mp fun _ => hrefuses.toRefusesMoves, ?_⟩
    have hclose := hrefuses.close
    unfold IsFd at hfd
    unfold fsClose at hclose
    rw [if_pos (by omega)] at hclose
    exact (outsideFds_cases hclose).2.2
  · intro hwhen
    by_cases hout : ¬ IsFd fd
    · obtain ⟨hne, hnone⟩ := hwhen.resolve_left hout
      exact ⟨fun _ => refuses_outside hout hne hnone, fun ho => absurd ho.1 hout⟩
    have hfd := not_not.mp hout
    have hfd' := hfd
    unfold IsFd at hfd'
    refine ⟨fun hno => ?_, fun _ i hi he => ?_⟩
    · have hun : (s.fdArray fd).used = false := Bool.eq_false_iff.mpr fun hu => hno ⟨hfd, hu⟩
      have hidx := h.idle.dirIndex_eq h.cycled.attached.shape hun
      refine ⟨refusesMoves_iff.mpr (by omega) hno, ?_, ?_⟩
      · unfold fsClose
        rw [if_neg (by omega), hidx]
      · unfold fsGetFilesize
        rw [if_neg (by omega), hidx]
    · obtain ⟨ch, hf⟩ := h.cycled.files
      rw [← he]
      exact hf.chains.dirIndex_eq hi

/-- In every state that a run of calls on the one disk reaches, over any number of umount_fs and mount_fs
    calls: a descriptor is checked as it should be by all six calls exactly when it is in 0..31, or there is
    no file and it is not 32; and the four that test its range refuse every descriptor that is not open
    but 32. -/
theorem descriptor_checked_iff {files : String → Option Image} {d : String} {junk : Junk} {heap : Buf} {s₀ : FS}
    {es : List (Call × Ret)} (h : session files d junk heap = some (r, s₀))
    (hrun : Run (Guarded FS.step (MountedCall d)) s₀ es s) (fd : Int) :
    (DescriptorChecked s fd ↔ IsFd fd ∨ fd ≠ maxFileDescriptor ∧ ∀ i, ¬ Used s.directory i) ∧
      ((¬ IsOpen s fd → RefusesMoves s fd) ↔ fd ≠ maxFileDescriptor) :=
  ⟨(run_tidy h hrun).checked_iff, refusesMoves_iff⟩

/-- A descriptor that umount_fs closed is refused after the next mount_fs. -/
theorem descriptor_checked_iff_remount : ∃ r s₀ es s,
    session (fun _ => none) "disk" zeroJunk (fun _ => 0) = some (r, s₀) ∧
      Run (Guarded FS.step (MountedCall "disk")) s₀ es s ∧ ¬ IsOpen s 0 ∧ DescriptorChecked s 0 := by
  obtain ⟨r, s₀, es, s, hs, hrun, hp⟩ := session_exec (MountedCall "disk")
    (fun s c => match c with | .open _ => s.mounted | _ => true)
    [.create nameA, .open nameA, .umount (some "disk"), .mount (some "disk") (fun _ => 1)]
    (fun s => (s.fdArray 0).used == false)
    (by
      intro s c hc hok
      simp only [List.mem_cons, List.not_mem_nil, or_false] at hc
      obtain rfl | rfl | rfl | rfl := hc
      · exact ⟨trivial, fun _ he => by cases he⟩
      · exact ⟨trivial, fun _ _ => hok⟩
      · exact ⟨trivial, fun _ he => by cases he⟩
      · exact ⟨⟨rfl, fun _ _ _ _ _ _ => (by decide : (1 : UInt8) ≠ 0)⟩, fun _ he => by cases he⟩)
    (show (session (fun _ => none) "disk" zeroJunk (fun _ => 0)).bind _ = some true by decide +kernel)
  have hun : (s.fdArray 0).used = false := by simpa using hp
  refine ⟨r, s₀, es, s, hs, hrun, fun ho => ?_, (descriptor_checked_iff hs hrun 0).1.mpr (.inl (by decide))⟩
  exact absurd (hun.symm.trans ho.2) (by decide)

/-- fs_lseek(32, 0) reads behind fd_array. -/
theorem lseek_reads_past_fds :
    ¬ ∀ (files : String → Option Image) (d : String) (junk : Junk) (heap : Buf) (r : Int) (s₀ s : FS)
      (es : List (Call × Ret)) (fd : Int), session files d junk heap = some (r, s₀) →
      Run (Guarded FS.step fun _ c => c.InSession) s₀ es s → DescriptorChecked s fd := by
  intro hall
  obtain ⟨s, files', hs, -⟩ := session_ready (fun _ => none) "disk" zeroJunk (fun _ => 0)
  have hlseek := ((hall _ _ _ _ _ _ _ _ 32 hs .start).refused fun ho => absurd ho.1 (by decide)).lseek 0
  unfold fsLseek at hlseek
  rw [if_neg (by decide), if_pos (by decide)] at hlseek
  cases hlseek

/-! ## Which names the calls find -/

/-- fs_open gives a descriptor on the file with that name, or returns -1. -/
structure OpenLooksUp (s : FS) (name : CString) : Prop where
  opens : ∀ i, Used s.directory i → name.chars = cstr (s.directory i).name →
    (∃ fd, IsFd fd ∧ (s.fdArray fd).used = false) → ∃ fd s', fsOpen s name = some (fd, s') ∧ IsOpen s' fd ∧
      (s'.fdArray fd).inodeNumber = (s.directory i).inodeNumber
  fails : ((∀ i, Used s.directory i → name.chars ≠ cstr (s.directory i).name) ∨
    ∀ fd, IsFd fd → (s.fdArray fd).used = true) → fsOpen s name = some (-1, s)

/-- fs_delete deletes the file with that name when it is not open, or returns -1. -/
structure DeleteLooksUp (s : FS) (name : CString) : Prop where
  deletes : ∀ i, Used s.directory i → name.chars = cstr (s.directory i).name → Unopened s i →
    ∃ s', fsDelete s name = some (0, s')
  fails : (∀ i, Used s.directory i → name.chars = cstr (s.directory i).name → ¬ Unopened s i) →
    fsDelete s name = some (-1, s)

/-- The entry that fs_open and fs_delete find for a name. -/
def nameIndex (s : FS) (name : CString) : Option Int :=
  firstIn (fun i => name.chars == cstr (s.directory i).name) 0 maxNumOfFiles

/-- The name is not empty, or the first entry with the empty name is in use; else no descriptor is free,
    that entry has been opened, and so has the file with the empty name. -/
def NameServed (s : FS) (name : CString) : Prop :=
  name.chars ≠ [] ∨ ∀ j, nameIndex s name = some j → Used s.directory j ∨
    ((∀ fd, IsFd fd → (s.fdArray fd).used = true) ∧ 0 < (s.directory j).count ∧
      ∀ i, Used s.directory i → name.chars = cstr (s.directory i).name → ¬ Unopened s i)

section Names

variable (h : Sound s ch) (hserved : ∀ j, nameIndex s name = some j → Used s.directory j)
include h hserved

/-- The search finds the file with that name. -/
theorem Sound.nameIndex_eq (hi : Used s.directory i) (hname : name.chars = cstr (s.directory i).name) :
    nameIndex s name = some i := by
  cases hj : nameIndex s name with
  | none => exact absurd hname (nameIndex_eq_none.mp hj i hi.1)
  | some j =>
      have hfound := (nameIndex_eq_some hj).2
      rw [h.files.shape.dir.names j i (hserved j hj) hi (hfound.symm.trans hname)]

theorem Sound.openLooksUp : OpenLooksUp s name := by
  constructor
  · intro i hi hname hfree
    obtain ⟨x, hx, hun⟩ := hfree
    have hidx := h.nameIndex_eq hserved hi hname
    unfold nameIndex at hidx
    have hcount : (s.directory i).count + 1 ≠ 2147483648 := by
      rw [h.fds.count i hi]
      have := openCount_le (filed s.fdArray) (s.directory i).inodeNumber
      omega
    cases hfd : firstIn (fun fildes => !(s.fdArray fildes).used) 0 maxFileDescriptor with
    | none =>
        have := firstIn_eq_none.mp hfd x hx.1 hx.2
        rw [hun] at this
        cases this
    | some fildes =>
        obtain ⟨f1, f2, -⟩ := firstIn_eq_some.mp hfd
        unfold fsOpen
        rw [hfd]
        dsimp only
        rw [hidx]
        dsimp only
        rw [if_neg hcount]
        refine ⟨fildes, _, rfl, ⟨⟨f1, f2⟩, ?_⟩, ?_⟩
        · simp only [Function.update_self]
        · simp only [Function.update_self]
  · intro hwhy
    unfold fsOpen
    split
    · rfl
    next fildes hfd =>
    obtain ⟨f1, f2, hun, -⟩ := firstIn_eq_some.mp hfd
    split
    · rfl
    next j hj =>
    exfalso
    obtain hno | hall := hwhy
    · exact hno j (hserved j hj) (nameIndex_eq_some hj).2
    · rw [hall fildes ⟨f1, f2⟩] at hun
      cases hun

theorem Sound.deleteLooksUp : DeleteLooksUp s name := by
  constructor
  · intro i hi hname hclosed
    have hidx := h.nameIndex_eq hserved hi hname
    have hcount := (h.count_eq_zero hi).mpr hclosed
    unfold nameIndex at hidx
    unfold fsDelete
    rw [hidx]
    dsimp only
    rw [if_neg (by omega), h.files.freeChain_eq hi]
    exact ⟨_, rfl⟩
  · intro hopen
    unfold fsDelete
    split
    · rfl
    next j hj =>
    have hj' := hserved j hj
    have hcount := mt (h.count_eq_zero hj').mp (hopen j hj' (nameIndex_eq_some hj).2)
    rw [if_pos (by omega)]

end Names

/-- An entry that is not in use leads out of the inode table. -/
theorem Sound.unused_entry {j : Int} (h : Sound s ch) (hj : nameIndex s name = some j) (hun : ¬ Used s.directory j) :
    ¬ DataBlock (s.directory j).inodeNumber := by
  have hslot := (nameIndex_eq_some hj).1
  intro hd
  exact hun ⟨hslot, (h.files.shape.dir.inode j hslot).mpr hd⟩

/-- The descriptor that fs_open returns leads where the entry it found does. -/
theorem fsOpen_inode (hc : fsOpen s name = some (fd, s')) (hfd : fd ≠ -1) :
    ∃ j, nameIndex s name = some j ∧ (s'.fdArray fd).inodeNumber = (s.directory j).inodeNumber := by
  unfold fsOpen at hc
  split at hc
  · cases hc
    exact absurd rfl hfd
  split at hc
  · cases hc
    exact absurd rfl hfd
  next j hj =>
  dsimp only at hc
  split at hc
  · cases hc
  rw [Option.some.injEq, Prod.mk.injEq] at hc
  refine ⟨j, hj, ?_⟩
  rw [← hc.2, ← hc.1]
  simp only [Function.update_self]

/-- A search that ends at an entry not in use: both calls go by that entry. -/
theorem Sound.served_of_unused {j : Int} (h : Sound s ch) (hj : nameIndex s name = some j)
    (hun : ¬ Used s.directory j) (ho : OpenLooksUp s name) (hd : DeleteLooksUp s name) :
    (∀ fd, IsFd fd → (s.fdArray fd).used = true) ∧ 0 < (s.directory j).count ∧
      ∀ i, Used s.directory i → name.chars = cstr (s.directory i).name → ¬ Unopened s i := by
  have hnot := h.unused_entry hj hun
  have hpos : 0 < (s.directory j).count := by
    by_contra hle
    have hnone : fsDelete s name = none := by
      unfold nameIndex at hj
      unfold fsDelete
      rw [hj]
      dsimp only
      rw [if_neg hle, freeChain_notData h.files.shape.table hnot]
    by_cases hex : ∃ i, Used s.directory i ∧ name.chars = cstr (s.directory i).name ∧ Unopened s i
    · obtain ⟨i, hi, hname, hclosed⟩ := hex
      obtain ⟨s', hret⟩ := hd.deletes i hi hname hclosed
      rw [hnone] at hret
      cases hret
    · have hret := hd.fails fun i hi hname hclosed => hex ⟨i, hi, hname, hclosed⟩
      rw [hnone] at hret
      cases hret
  refine ⟨fun x hx => ?_, hpos, fun i hi hname hclosed => ?_⟩
  · by_contra hux
    have hux' : (s.fdArray x).used = false := Bool.eq_false_iff.mpr hux
    by_cases hex : ∃ i, Used s.directory i ∧ name.chars = cstr (s.directory i).name
    · obtain ⟨i, hi, hname⟩ := hex
      obtain ⟨fd, s', hret, hopen, hino⟩ := ho.opens i hi hname ⟨x, hx, hux'⟩
      obtain ⟨k, hk, he⟩ := fsOpen_inode hret fun hneg => absurd hopen.1.1 (by rw [hneg]; decide)
      rw [hj, Option.some.injEq] at hk
      rw [he, ← hk] at hino
      exact hnot (hino ▸ (h.files.shape.dir.inode i hi.1).mp hi.2)
    · have hret := ho.fails (.inl fun i hi hname => hex ⟨i, hi, hname⟩)
      obtain ⟨-, -, hall | hnone⟩ | ⟨_, _, hisFd, -, -, -, -, -, hr, -⟩ := fsOpen_cases hret
      · exact hux (hall x hx)
      · exact hnone j (nameIndex_eq_some hj).1 (nameIndex_eq_some hj).2
      · have := hisFd.1
        omega
  · obtain ⟨s', hret⟩ := hd.deletes i hi hname hclosed
    unfold nameIndex at hj
    unfold fsDelete at hret
    rw [hj] at hret
    dsimp only at hret
    rw [if_pos hpos, Option.some.injEq, Prod.mk.injEq] at hret
    exact absurd hret.1 (by decide)

/-- In every state of a session, fs_open and fs_delete look a name up as they should exactly when it is
    not empty, or the first entry with the empty name is in use, or both calls fail for another reason. -/
theorem name_lookup_iff {files : String → Option Image} {d : String} {junk : Junk} {heap : Buf} {s₀ : FS}
    {es : List (Call × Ret)} (h : session files d junk heap = some (r, s₀))
    (hrun : Run (Guarded FS.step fun _ c => c.IsFs) s₀ es s) (name : CString) :
    (OpenLooksUp s name ∧ DeleteLooksUp s name) ↔ NameServed s name := by
  obtain ⟨ch, hs⟩ := run_sound h hrun
  constructor
  · intro ⟨ho, hd⟩
    by_cases hn : name.chars = []
    · refine .inr fun j hj => ?_
      by_cases hu : Used s.directory j
      · exact .inl hu
      · exact .inr (hs.served_of_unused hj hu ho hd)
    · exact .inl hn
  · intro hserved
    by_cases hall : ∀ j, nameIndex s name = some j → Used s.directory j
    · exact ⟨hs.openLooksUp hall, hs.deleteLooksUp hall⟩
    push Not at hall
    obtain ⟨j, hj, hun⟩ := hall
    obtain hn | hwhy := hserved
    · exact absurd (hs.files.shape.used_of_name hn (nameIndex_eq_some hj).1 (nameIndex_eq_some hj).2) hun
    obtain hu | ⟨hfull, hpos, hopened⟩ := hwhy j hj
    · exact absurd hu hun
    refine ⟨⟨fun i _ _ hfree => ?_, fun _ => ?_⟩, ⟨fun i hi hname hclosed => ?_, fun _ => ?_⟩⟩
    · obtain ⟨x, hx, hux⟩ := hfree
      exact absurd ((hfull x hx).symm.trans hux) (by decide)
    · have hnone : firstIn (fun fildes => !(s.fdArray fildes).used) 0 maxFileDescriptor = none :=
        firstIn_eq_none.mpr fun x h1 h2 => by rw [hfull x ⟨h1, h2⟩]; rfl
      unfold fsOpen
      rw [hnone]
    · exact absurd hclosed (hopened i hi hname)
    · unfold nameIndex at hj
      unfold fsDelete
      rw [hj]
      dsimp only
      rw [if_pos hpos]

/-- The name of an existing file. -/
theorem name_lookup_iff_one : ∃ r s₀ es s,
    session (fun _ => none) "disk" zeroJunk (fun _ => 0) = some (r, s₀) ∧
      Run (Guarded FS.step fun _ c => c.IsFs) s₀ es s ∧ Used s.directory 0 ∧
      OpenLooksUp s nameA ∧ DeleteLooksUp s nameA := by
  obtain ⟨r, s₀, es, s, hs, hrun, hp⟩ := session_exec (fun _ c => c.IsFs) (fun _ c => decide c.IsFs)
    [.create nameA] (fun s => decide (Used s.directory 0)) (fun s c _ h => of_decide_eq_true h)
    (show (session (fun _ => none) "disk" zeroJunk (fun _ => 0)).bind _ = some true by decide +kernel)
  exact ⟨r, s₀, es, s, hs, hrun, of_decide_eq_true hp, (name_lookup_iff hs hrun nameA).mpr (.inl (by decide))⟩

/-- fs_open("") on a new file system returns a descriptor. -/
theorem open_empty_name :
    ¬ ∀ (files : String → Option Image) (d : String) (junk : Junk) (heap : Buf) (r : Int) (s₀ s : FS)
      (es : List (Call × Ret)) (name : CString), session files d junk heap = some (r, s₀) →
      Run (Guarded FS.step fun _ c => c.InSession) s₀ es s → OpenLooksUp s name ∧ DeleteLooksUp s name := by
  intro hall
  obtain ⟨r, s₀, es, s, hs, hrun, hp⟩ := session_exec (fun _ c => c.InSession) (fun _ c => decide c.InSession) []
    (fun s => (fsOpen s ⟨[], by decide⟩).map Prod.fst == some 0 && usedEntries s.directory == 0)
    (fun s c _ h => of_decide_eq_true h)
    (show (session (fun _ => none) "disk" zeroJunk (fun _ => 0)).bind _ = some true by decide +kernel)
  rw [Bool.and_eq_true, beq_iff_eq, beq_iff_eq] at hp
  have hfail := (hall _ _ _ _ _ _ _ _ ⟨[], by decide⟩ hs hrun).1.fails (.inl fun i hi => ?_)
  · rw [hfail, Option.map_some, Option.some.injEq] at hp
    exact absurd hp.1 (by dsimp only; decide)
  · have hslot := hi.1
    unfold IsSlot at hslot
    have hzero := List.countP_eq_zero.mp hp.2 i.toNat (List.mem_range.mpr (by omega))
    rw [Int.toNat_of_nonneg hi.1.1, hi.2] at hzero
    exact absurd rfl hzero

end EC440.FileSystem
