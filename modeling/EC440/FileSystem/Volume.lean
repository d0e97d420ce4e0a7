/-
  What the file system is for over many mounts: a volume holds the files, whether it is mounted or
  not, and a mounted volume is a store. umount_fs and mount_fs keep the names and the bytes.

  The volume of an unmounted file system is read off the disk image. mount_fs does not bring the
  bitmap back, so the store of a mounted one is read off the state in which the blocks of the files
  are marked; what the bitmap lacks matters to the calls that allocate, and to no other call.
-/
import EC440.FileSystem.Bitmap
import EC440.FileSystem.Cycles
import EC440.FileSystem.Truncation

namespace EC440.FileSystem

open EC440.Lib

variable {s s' t : FS} {ch ch' : Int → List Int} {bitmap : Int → UInt8} {fd i r : Int} {buf : List UInt8}
  {nbyte : Nat}

inductive Volume where
  | mounted (st : Store)
  | unmounted (files : List UInt8 → Option (List UInt8))

/-- One call on a volume. A mounted volume answers as its store does, and cuts files off. -/
inductive Volume.Step : Volume → Call × Ret → Volume → Prop
  | call {st st' : Store} {c : Call} {ret : Ret} : Store.Step st (c, ret) st' →
      Volume.Step (.mounted st) (c, ret) (.mounted st')
  | truncate {st : Store} {fd length : Int} {bytes name : List UInt8} {off : Nat} (full : Bool) :
      st.descs fd = some (name, off) → st.files name = some bytes → 0 ≤ length → length ≤ bytes.length →
      Volume.Step (.mounted st) (.truncate fd length, { code := 0 })
        (.mounted { st with
          files := Function.update st.files name (some (bytes.take length.toNat)), full := full })
  | truncateFail {st : Store} {fd length : Int} :
      (∀ name off bytes, st.descs fd = some (name, off) → st.files name = some bytes →
        (bytes.length : Int) < length) →
      Volume.Step (.mounted st) (.truncate fd length, { code := -1 }) (.mounted st)
  | umount {st : Store} {name : String} : (∀ fd, st.descs fd = none) →
      Volume.Step (.mounted st) (.umount (some name), { code := 0 }) (.unmounted st.files)
  | umountFail {v : Volume} {name : Option String} : (name = none ∨ ∃ files, v = .unmounted files) →
      Volume.Step v (.umount name, { code := -1 }) v
  | mount {files : List UInt8 → Option (List UInt8)} {name : String} {heap : Buf} (full : Bool) :
      Volume.Step (.unmounted files) (.mount (some name) heap, { code := 0 })
        (.mounted { files := files, descs := fun _ => none, full := full })
  | mountFail {v : Volume} {name : Option String} {heap : Buf} : (name = none ∨ ∃ st, v = .mounted st) →
      Volume.Step v (.mount name heap, { code := -1 }) v

/-! ## The volume of a state -/

/-- The block is marked, or it is a block of a file. -/
def taken (s : FS) (j : Int) : Bool :=
  s.usedBlockBitmap j != 0 || (List.range maxNumOfFiles.toNat).any fun i : Nat =>
    (s.directory i).used && (fileBlocks s.table (s.directory i).inodeNumber).contains j

/-- The state with the blocks of the files marked. -/
def marked (s : FS) : FS := withBitmap s fun j => if taken s j then 1 else 0

/-- What mount_fs loads from a disk; the bitmap apart. -/
def loaded (d : Disk) : FS where
  super := makeSuper
  table := storedTable d
  usedBlockBitmap := fun _ => 0
  fdArray := fun _ => ⟨false, -1, 0⟩
  directory := fun i => if i < 16 then storedDir d i else noEntry
  mounted := true
  disk := d

/-- The volume on the disk `d`. -/
def volume (d : String) (s : FS) : Volume :=
  if s.mounted then .mounted (abs (marked s)) else .unmounted (abs (loaded ⟨s.disk.files, some d⟩)).files

/-- No block of a file is shown as free. -/
def BlocksMarked (s : FS) : Prop :=
  ∀ i, Used s.directory i → ∀ j ∈ fileBlocks s.table (s.directory i).inodeNumber, s.usedBlockBitmap j ≠ 0

/-- The calls of a volume's user: fs_* calls on a mounted volume as a store allows them; fs_create, and
    fs_write behind the blocks of its file, only while no block of a file is shown as free; fs_truncate
    with no descriptor behind the new end; umount_fs with no open descriptor and all files in the
    first 16 entries; and the one disk `d`. -/
def VolumeCall (d : String) (s : FS) : Call → Prop
  | .mount name _ => name = none ∨ name = some d
  | .umount name => name.isSome = true → s.mounted = true →
      (∀ fd, IsFd fd → (s.fdArray fd).used = false) ∧ ∀ i, Used s.directory i → i < 16
  | .create name => s.mounted = true ∧ name.chars ≠ [] ∧ BlocksMarked s
  | .write fd buf nbyte => s.mounted = true ∧ (abs s).Allows (.write fd buf nbyte) ∧
      (Fits s fd nbyte ∨ BlocksMarked s)
  | .truncate fd length => s.mounted = true ∧ IsFd fd ∧ KeepsOffsets s fd length
  | c => s.mounted = true ∧ (abs s).Allows c

/-! ## The marked state -/

theorem taken_iff {j : Int} : taken s j = true ↔ s.usedBlockBitmap j ≠ 0 ∨
    ∃ i, Used s.directory i ∧ j ∈ fileBlocks s.table (s.directory i).inodeNumber := by
  unfold taken
  rw [Bool.or_eq_true, bne_iff_ne, List.any_eq_true]
  refine or_congr_right ⟨fun h => ?_, fun h => ?_⟩
  · obtain ⟨i, hi, h⟩ := h
    rw [Bool.and_eq_true, List.contains_iff_mem] at h
    have hlt := List.mem_range.mp hi
    unfold maxNumOfFiles at hlt
    exact ⟨i, ⟨⟨by omega, by unfold maxNumOfFiles; omega⟩, h.1⟩, h.2⟩
  · obtain ⟨i, hi, h⟩ := h
    have hslot := hi.1
    unfold IsSlot maxNumOfFiles at hslot
    refine ⟨i.toNat, List.mem_range.mpr (by unfold maxNumOfFiles; omega), ?_⟩
    rw [Int.toNat_of_nonneg hslot.1, hi.2, Bool.true_and, List.contains_iff_mem]
    exact h

theorem marked_zero {j : Int} : (marked s).usedBlockBitmap j = 0 ↔ taken s j = false := by
  unfold marked
  dsimp only
  cases taken s j with
  | true => decide
  | false => decide

/-- The bitmap may be another one as long as the blocks of the files are marked. -/
theorem Live.mark (h : Live (withBitmap s bitmap) ch) : Live (marked s) ch := by
  have hshape : Shape (marked s) := ⟨h.files.shape.super, h.files.shape.table, h.files.shape.dir⟩
  refine ⟨⟨hshape, h.files.chains.transfer (fun i hi => ⟨hi, rfl⟩) (fun _ _ => rfl) fun i hi b hb => ?_⟩, h.fds,
    h.sized, h.ready, h.bounds⟩
  have htaken : taken s b = true := taken_iff.mpr (.inr ⟨i, hi, by rw [h.files.chains.fileBlocks_eq hi]; exact hb⟩)
  exact if_pos htaken

/-- Bitmaps with the same zeros show the same store. -/
theorem abs_withBitmap (h : ∀ j, bitmap j = 0 ↔ s.usedBlockBitmap j = 0) : abs (withBitmap s bitmap) = abs s := by
  rw [abs_eq (s := withBitmap s bitmap) (abs s).files (abs s).descs (fun _ => rfl) fun _ => rfl]
  unfold abs
  rw [freeBlock_withBitmap h]

/-- The same state but for the bitmap has the same files and descriptors. -/
theorem abs_marked (s : FS) (bitmap : Int → UInt8) :
    abs (marked s) = { abs (withBitmap s bitmap) with full := (abs (marked s)).full } := rfl

/-- With no block of a file shown as free, marking the blocks changes nothing. -/
theorem BlocksMarked.zero (h : BlocksMarked s) (j : Int) :
    (marked s).usedBlockBitmap j = 0 ↔ s.usedBlockBitmap j = 0 := by
  rw [marked_zero, ← Bool.not_eq_true, taken_iff, not_or, not_not]
  refine and_iff_left_of_imp fun hz hfile => ?_
  obtain ⟨i, hi, hj⟩ := hfile
  exact h i hi j hj hz

/-! ## The calls that leave the bitmap alone -/

/-- The call neither allocates nor frees a block. -/
def Call.Quiet (s : FS) : Call → Prop
  | .open _ | .close _ | .read _ _ _ | .getFilesize _ | .listfiles | .lseek _ _ => True
  | .write fd _ nbyte => Fits s fd nbyte
  | _ => False

theorem Call.Quiet.isFs {c : Call} (h : c.Quiet s) : c.IsFs := by
  cases c with
  | mount _ _ | umount _ => exact h.elim
  | _ => trivial

/-- The blocks of the files and the bitmap are as they were. -/
structure KeepsBitmap (s s' : FS) : Prop where
  bitmap : s'.usedBlockBitmap = s.usedBlockBitmap
  table : s'.table = s.table
  dir : ∀ i, SameFile (s.directory i) (s'.directory i)

theorem KeepsBitmap.taken_eq (h : KeepsBitmap s s') : taken s' = taken s := by
  funext j
  rw [Bool.eq_iff_iff, taken_iff, taken_iff, h.bitmap, h.table]
  refine or_congr_right (exists_congr fun i => ?_)
  rw [used_congr h.dir, (h.dir i).2.1]

theorem KeepsBitmap.marked_eq (h : KeepsBitmap s s') : marked s' = withBitmap s' (marked s).usedBlockBitmap := by
  unfold marked
  rw [h.taken_eq]

theorem sameFile_refl (e : DirectoryEntry) : SameFile e e := ⟨rfl, rfl, rfl⟩

theorem Live.keepsBitmap {c : Call} {ret : Ret} (h : Live (marked s) ch) (hq : c.Quiet s) (ha : (abs s).Allows c)
    (hs : s.step c = some (ret, s')) : KeepsBitmap s s' := by
  have same : KeepsBitmap s s := ⟨rfl, rfl, fun i => sameFile_refl _⟩
  obtain rfl | ⟨_, rfl, hx⟩ | ⟨_, rfl, hx⟩ | ⟨_, rfl, hx⟩ | ⟨_, rfl, hx⟩ | ⟨_, _, _, rfl, hx⟩ |
    ⟨_, _, _, rfl, hx⟩ | ⟨_, _, rfl, hx⟩ | ⟨_, _, rfl, hx⟩ := FS.step_cases hq.isFs hs
  · exact same
  · exact hq.elim
  · obtain ⟨-, rfl, -⟩ | ⟨_, _, -, -, -, -, -, -, -, rfl⟩ := fsOpen_cases hx
    · exact same
    · exact ⟨rfl, rfl, sameFile_update ⟨rfl, rfl, rfl⟩⟩
  · obtain ⟨-, rfl, -⟩ | ⟨_, -, -, -, -, -, rfl⟩ := fsClose_cases hx
    · exact same
    · exact ⟨rfl, rfl, sameFile_update ⟨rfl, rfl, rfl⟩⟩
  · exact hq.elim
  · obtain rfl | ⟨_, -, -, rfl⟩ := fsRead_cases hx
    · exact same
    · exact ⟨rfl, rfl, fun i => sameFile_refl _⟩
  · obtain ⟨hfd, hpos, hlen, hbig⟩ := ha
    obtain ⟨-, rfl, -⟩ | ⟨i, ok, s₁, -, hu, hidx, hgrow, hrest⟩ := fsWrite_cases hx
    · exact same
    rw [h.growChain_fits hfd hpos (by omega) hq hu hidx s.usedBlockBitmap] at hgrow
    cases hgrow
    obtain ⟨hok, -⟩ | ⟨-, hw⟩ := hrest
    · cases hok
    obtain ⟨size, d, fds, rfl, -⟩ := writeData_cases hw
    exact ⟨rfl, rfl, sameFile_update ⟨rfl, rfl, rfl⟩⟩
  · obtain ⟨-, rfl, -⟩ | ⟨_, -, -, -, -, -, -, rfl⟩ := fsLseek_cases hx
    · exact same
    · exact ⟨rfl, rfl, fun i => sameFile_refl _⟩
  · exact hq.elim

/-- A call of this kind does to the state with other marks what it does to the state. -/
theorem FS.step_withBitmap {c : Call} {ret : Ret} (h : Live (withBitmap s bitmap) ch) (hq : c.Quiet s)
    (ha : (abs s).Allows c) (hs : (withBitmap s bitmap).step c = some (ret, t)) :
    ∃ s', s.step c = some (ret, s') ∧ t = withBitmap s' bitmap := by
  have code : ∀ {x y : Option (Int × FS)}, x = putBitmap y bitmap → codeOnly x = some (ret, t) →
      ∃ s', codeOnly y = some (ret, s') ∧ t = withBitmap s' bitmap := by
    intro x y hx hy
    rw [hx] at hy
    obtain ⟨⟨k, t₁⟩, hy, he⟩ := Option.map_eq_some_iff.mp hy
    obtain ⟨⟨k', s₁⟩, hy, he'⟩ := Option.map_eq_some_iff.mp hy
    rw [Prod.mk.injEq] at he he'
    refine ⟨s₁, ?_, by rw [← he.2, ← he'.2]⟩
    rw [hy, ← he.1, ← he'.1]
    rfl
  cases c with
  | «open» name => exact code (fsOpen_retouch (fun _ => bitmap) id s name) hs
  | close fildes => exact code (fsClose_retouch (fun _ => bitmap) id s fildes) hs
  | read fildes buf nbyte =>
      obtain ⟨⟨k, b, t₁⟩, hx, he⟩ := Option.map_eq_some_iff.mp hs
      rw [fsRead_withBitmap] at hx
      obtain ⟨⟨k', b', s₁⟩, hy, he'⟩ := Option.map_eq_some_iff.mp hx
      rw [Prod.mk.injEq] at he
      rw [Prod.mk.injEq, Prod.mk.injEq] at he'
      refine ⟨s₁, ?_, by rw [← he.2, ← he'.2.2]⟩
      rw [← he.1, ← he'.1, ← he'.2.1]
      simp only [FS.step, hy, Option.map_some]
  | write fildes buf nbyte =>
      obtain ⟨hfd, hpos, hlen, hbig⟩ := ha
      exact code (h.write_withBitmap hfd hpos (by omega) hq) hs
  | getFilesize fildes => exact code (fsGetFilesize_retouch (fun _ => bitmap) id s fildes) hs
  | listfiles =>
      cases hs
      exact ⟨s, rfl, rfl⟩
  | lseek fildes offset => exact code (fsLseek_retouch (fun _ => bitmap) id s fildes offset) hs
  | _ => exact hq.elim

/-! ## One call on a mounted file system -/

/-- The call returns and does to the store what the volume's rule says. -/
def Answers (s : FS) (c : Call) : Prop :=
  ∃ ret s' ch', s.step c = some (ret, s') ∧ Live (marked s') ch' ∧
    Volume.Step (.mounted (abs (marked s))) (c, ret) (.mounted (abs (marked s')))

theorem Live.answers_quiet (h : Live (marked s) ch) {c : Call} (hq : c.Quiet s) (ha : (abs s).Allows c) :
    Answers s c := by
  obtain ⟨ret, t, ch', hs, hl, hst⟩ := h.step (c := c) ha
  obtain ⟨s', hs', rfl⟩ := FS.step_withBitmap h hq ha hs
  have hmarked := (h.keepsBitmap hq ha hs').marked_eq
  refine ⟨ret, s', ch', hs', ?_, .call ?_⟩
  · rw [hmarked]
    exact hl
  · rw [hmarked]
    exact hst

/-- What the rule says of fs_delete leaves `full` open. -/
theorem Store.Step.delete_full {st st' : Store} {name : CString} (h : Store.Step st (.delete name, { code := 0 }) st')
    (full : Bool) : Store.Step st (.delete name, { code := 0 }) { st' with full := full } := by
  cases h with
  | delete full' hfile hclosed => exact .delete full hfile hclosed

theorem Live.answers_delete (h : Live (marked s) ch) {name : CString} (hn : name.chars ≠ []) :
    Answers s (.delete name) := by
  obtain ⟨r, t, ch', hs, hl, hst⟩ := h.delete hn
  obtain ⟨s', hs', hsame⟩ := fsDelete_withBitmap hs
  have hstep : s.step (.delete name) = some ({ code := r }, s') := by simp [FS.step, codeOnly, hs']
  rw [hsame] at hl hst
  refine ⟨_, s', ch', hstep, hl.mark, .call ?_⟩
  obtain ⟨rfl, rfl, -⟩ | ⟨_, _, -, -, -, -, rfl, -⟩ := fsDelete_cases hs'
  · obtain ⟨-, ht, -⟩ | ⟨_, _, -, -, -, -, hr, -⟩ := fsDelete_cases hs
    · rw [← hsame, ht] at hst
      exact hst
    · cases hr
  · rw [abs_marked s' t.usedBlockBitmap]
    exact hst.delete_full _

/-- The calls that allocate, while no block of a file is shown as free. -/
theorem Live.answers_alike (h : Live (marked s) ch) {c : Call} (ha : (abs s).Allows c)
    (halike : ∀ {ret : Ret} {t : FS}, (marked s).step c = some (ret, t) →
      ∃ s', s.step c = some (ret, s') ∧ Alike t s') : Answers s c := by
  obtain ⟨ret, t, ch', hs, hl, hst⟩ := h.step (c := c) ha
  obtain ⟨s', hs', hsame, hzero⟩ := halike hs
  have hl' : Live (withBitmap s' t.usedBlockBitmap) ch' := by
    rw [hsame]
    exact hl
  -- the call marks the blocks that it takes
  have hmarks : BlocksMarked s' := by
    intro i hi j hj hz
    have hone := (hl'.files.chains.blocks i hi j (by rwa [hl'.files.chains.fileBlocks_eq hi] at hj)).2
    rw [hzero] at hz
    dsimp only [withBitmap] at hone
    rw [hz] at hone
    exact absurd hone (by decide)
  have habs : abs (marked s') = abs t := by
    have hmarked : abs (marked s') = abs s' := abs_withBitmap hmarks.zero
    rw [hmarked, hsame]
    exact abs_withBitmap hzero
  exact ⟨ret, s', ch', hs', hl'.mark, by rw [habs]; exact .call hst⟩

theorem Live.answers_create (h : Live (marked s) ch) {name : CString} (hn : name.chars ≠ []) (hm : BlocksMarked s) :
    Answers s (.create name) := by
  refine h.answers_alike hn fun {ret t} hs => ?_
  obtain ⟨hx, hret⟩ := codeOnly_eq_some hs
  obtain ⟨s', hs', halike⟩ := fsCreate_alike (fun j => (hm.zero j).symm) hx
  rw [hret]
  exact ⟨s', codeOnly_of hs', halike⟩

theorem Live.answers_write (h : Live (marked s) ch) (ha : (abs s).Allows (.write fd buf nbyte))
    (hm : Fits s fd nbyte ∨ BlocksMarked s) : Answers s (.write fd buf nbyte) := by
  rcases hm with hfit | hm
  · exact h.answers_quiet hfit ha
  refine h.answers_alike ha fun {ret t} hs => ?_
  obtain ⟨hx, hret⟩ := codeOnly_eq_some hs
  obtain ⟨s', hs', halike⟩ := fsWrite_alike (fun j => (hm.zero j).symm) hx
  rw [hret]
  exact ⟨s', codeOnly_of hs', halike⟩

/-! ## fs_truncate -/

/-- The descriptors stay where they are. -/
theorem Cut.descs {length : Int} (h : Live s ch) (hc : Cut s ch i length s' ch') : (abs s').descs = (abs s).descs := by
  have hdir : s'.directory = Function.update s.directory i { s.directory i with size := length } := by
    rw [hc.same]
    rfl
  have hsame : ∀ j, SameFile (s.directory j) (s'.directory j) := by
    rw [hdir]
    exact sameFile_update ⟨rfl, rfl, rfl⟩
  funext x
  refine h.files.abs_desc_congr h.fds hc.live.files (by rw [hc.same]; rfl) fun j _ _ hj _ => ?_
  exact ⟨(used_congr hsame).mpr hj, (hsame j).2.1, (hsame j).2.2⟩

theorem Live.truncate_returns (h : Live s ch) (hfd : IsFd fd) {length : Int} (hk : KeepsOffsets s fd length) :
    ∃ r s', fsTruncate s fd length = some (r, s') := by
  unfold IsFd at hfd
  by_cases hu : (s.fdArray fd).used = true
  · obtain ⟨i, hi, he, hidx⟩ := h.files.fd_index h.fds hfd hu
    by_cases hle : length ≤ (s.directory i).size
    · obtain ⟨j, hj, hje, h0, -⟩ := h.bounds.offset fd hfd hu
      have hlen0 : 0 ≤ length := h0.trans (hk hu i hidx hle fd hfd hu rfl)
      have hsized := h.sized i hi
      have hne := List.length_pos_of_ne_nil (h.files.chains.chain i hi).ne_nil
      obtain ⟨s', hs'⟩ := h.files.truncate_returns hidx hlen0 hle hfd hu ((blocksOf_le hne).mpr (hle.trans hsized))
      exact ⟨0, s', hs'⟩
    · unfold fsTruncate
      rw [if_neg (by omega), if_neg (by omega), if_neg (by rw [hu]; decide), hidx]
      dsimp only
      rw [if_pos (by omega)]
      exact ⟨_, _, rfl⟩
  · unfold fsTruncate
    rw [if_neg (by omega), if_neg (by omega), if_pos (by simpa using hu)]
    exact ⟨_, _, rfl⟩

theorem Live.answers_truncate (h : Live (marked s) ch) (hfd : IsFd fd) {length : Int} (hk : KeepsOffsets s fd length) :
    Answers s (.truncate fd length) := by
  obtain ⟨r, t, ht⟩ := h.truncate_returns hfd hk
  have hput := (fsTruncate_retouch (fun _ => (marked s).usedBlockBitmap) id s fd length).symm.trans ht
  obtain ⟨⟨r', s'⟩, hs', he⟩ := Option.map_eq_some_iff.mp hput
  rw [Prod.mk.injEq] at he
  obtain ⟨rfl, rfl⟩ := he
  have hstep : s.step (.truncate fd length) = some ({ code := r' }, s') := by simp [FS.step, codeOnly, hs']
  obtain ⟨rfl, rfl, hwhy⟩ | ⟨i, _, _, -, hu, hidx, -, -, -, -, rfl, -⟩ := fsTruncate_cases hs'
  · refine ⟨_, s', ch, hstep, h, .truncateFail fun name off bytes hd hf => ?_⟩
    obtain ⟨i, -, hu, hi, he, hdesc, -⟩ := h.of_desc (show (abs (marked s')).descs fd ≠ none by rw [hd]; simp)
    rw [hdesc, Option.some.injEq, Prod.mk.injEq] at hd
    rw [← hd.1, h.files.shape.abs_file hi, Option.some.injEq] at hf
    rw [← hf, h.size_eq hi]
    obtain hun | ⟨j, hj, hlt⟩ := hwhy
    · exact absurd (hun hfd) (by rw [show (s'.fdArray fd).used = true from hu]; decide)
    · obtain ⟨hj, hje⟩ := dirIndex_eq_some hj
      rw [h.files.inj hj i hi (he.trans hje.symm)]
      exact hlt
  · obtain ⟨hr, -⟩ | ⟨j, ch', he, -, hcut⟩ := h.truncate ht hk
    · cases hr
    have hdesc := h.files.abs_desc hfd hu hcut.used he
    have hfile := h.files.shape.abs_file hcut.used
    refine ⟨_, s', ch', hstep, hcut.live.mark, ?_⟩
    have habs : abs (marked s') = { abs (marked s) with
        files := Function.update (abs (marked s)).files (cstr ((marked s).directory j).name)
          (some ((content (marked s) ((marked s).directory j)).take length.toNat))
        full := (abs (marked s')).full } :=
      abs_eq _ _ (fun n => congrFun (hcut.files h) n) fun x => congrFun (hcut.descs h) x
    rw [habs]
    exact .truncate _ hdesc hfile hcut.nonneg (by rw [h.size_eq hcut.used]; exact hcut.le)

/-! ## umount_fs and mount_fs -/

section Loading

variable {d : Disk} {dir : Int → DirectoryEntry} {table : Int → Inode} {heap : Buf}

theorem Holds.loaded (h : Holds d dir table) (hd : DirShape dir) (ht : TableShape table) :
    Loaded (loaded d) d dir table (fun _ => 0) where
  super := rfl
  disk := rfl
  mounted := rfl
  dir := fun i hi => by
    unfold EC440.FileSystem.loaded
    dsimp only
    rw [h.storedDir_eq hd hi]
  table := fun b hb => h.storedTable_eq ht hb
  bitmap := fun _ _ => rfl
  fds := fun _ => rfl

/-- The files of a loaded state are those of the directory and the table that it was loaded from. -/
theorem Loaded.files_eq (hl : Loaded t d dir table heap) (hd : DirShape dir) (ht : TableShape table)
    (hs : Shape s) (hdir : s.directory = dir) (htable : s.table = table) (hfront : ∀ i, Used s.directory i → i < 16)
    (hdisk : ∀ b, DataBlock b → ∀ k, k < blockSize → d.block b k = s.disk.block b k) :
    (abs t).files = (abs s).files := by
  subst hdir htable
  have hshape := hl.shape hd ht
  funext n
  refine abs_files_congr hs hshape (fun i => ⟨fun h => ?_, fun h => ?_⟩) fun i hi _ => ?_
  · obtain ⟨hi, he⟩ := hl.used h.1 (hfront i h.1)
    exact ⟨hi, by rw [he]; exact h.2⟩
  · obtain ⟨-, he, hi⟩ := hl.of_used h.1
    exact ⟨hi, by rw [← he]; exact h.2⟩
  · obtain ⟨-, he⟩ := hl.used hi (hfront i hi)
    unfold content
    rw [he, hl.disk, hl.fileBlocks_eq ((hs.dir.inode i hi.1).mp hi.2).inBlocks,
      blockBytes_congr fun b hb => hdisk b (hs.fileBlocks_data hi b hb)]

end Loading

/-- The disk holds files in order, all of them in the first 16 entries, with no open descriptor. -/
structure Stored (d : Disk) (ch : Int → List Int) : Prop where
  image : OnImage d
  chains : Chains (fun _ => True) (storedTable d) (fun _ => 0) (storedDir d) ch
  sized : Sized (storedDir d) ch
  size : ∀ i, Used (storedDir d) i → 0 ≤ (storedDir d i).size ∧ (storedDir d i).size ≤ maxFilesize
  count : ∀ i, Used (storedDir d) i → (storedDir d i).count = 0
  front : ∀ i, Used (storedDir d) i → i < 16

/-- What the directory and the table of a state in order leave on a disk. -/
theorem Holds.stored_of {d : Disk} (h : Holds d s.directory s.table) (hl : Live (marked s) ch)
    (hclosed : ∀ fd, IsFd fd → (s.fdArray fd).used = false) (hfront : ∀ i, Used s.directory i → i < 16) :
    Stored d ch := by
  have hshape : Shape s := ⟨hl.files.shape.super, hl.files.shape.table, hl.files.shape.dir⟩
  have hof : ∀ i, Used (storedDir d) i → Used s.directory i ∧ storedDir d i = s.directory i := by
    intro i hi
    have he := h.storedDir_eq hshape.dir hi.1
    exact ⟨⟨hi.1, by rw [← he]; exact hi.2⟩, he⟩
  refine ⟨h.onImage hshape.dir hshape.table, Holds.chains (s := marked s) h hl.files, fun i hi => ?_, fun i hi => ?_,
    fun i hi => ?_, fun i hi => hfront i (hof i hi).1⟩
  · rw [(hof i hi).2]
    exact hl.sized i (hof i hi).1
  · rw [(hof i hi).2]
    exact hl.bounds.size i (hof i hi).1
  · rw [(hof i hi).2]
    refine (hl.fds.count i (hof i hi).1).trans (congrArg Nat.cast (openCount_eq_zero.mpr fun fd hfd hu => ?_))
    exact absurd ((hclosed fd hfd).symm.trans hu) (by decide)

/-- The file system is unmounted, and its files are on the disk. -/
structure Parked (d : String) (s : FS) (ch : Int → List Int) : Prop where
  mounted : s.mounted = false
  handle : s.disk.handle = none
  idle : ∀ fd, IsFd fd → ¬ DataBlock (s.fdArray fd).inodeNumber
  stored : Stored ⟨s.disk.files, some d⟩ ch

theorem Live.umount {d : String} (h : Live (marked s) ch) (hm : s.mounted = true) (hh : s.disk.handle = some d)
    (name : String) (hclosed : ∀ fd, IsFd fd → (s.fdArray fd).used = false)
    (hfront : ∀ i, Used s.directory i → i < 16) :
    ∃ s', umountFs s (some name) = some (0, s') ∧ Parked d s' ch ∧
      (abs (loaded ⟨s'.disk.files, some d⟩)).files = (abs (marked s)).files := by
  have hshape : Shape s := ⟨h.files.shape.super, h.files.shape.table, h.files.shape.dir⟩
  obtain ⟨files, hu, hholds, hdata⟩ := umountFs_ready name hshape.super hm h.ready hh
  refine ⟨_, hu, ⟨rfl, rfl, fun fd hfd => ?_, hholds.stored_of h hclosed hfront⟩,
    (hholds.loaded hshape.dir hshape.table).files_eq hshape.dir hshape.table h.files.shape rfl rfl hfront hdata⟩
  dsimp only
  unfold closedFd
  rw [hclosed fd hfd, if_neg (by decide)]
  exact h.bounds.idle fd hfd (hclosed fd hfd)

/-- Two states loaded from one disk have the same files. -/
theorem Loaded.same_files {d : Disk} {dir : Int → DirectoryEntry} {table : Int → Inode} {heap heap' : Buf}
    (hs : Loaded s d dir table heap) (ht : Loaded t d dir table heap') (hd : DirShape dir) (hta : TableShape table) :
    (abs t).files = (abs s).files := by
  have hslot : ∀ i, IsSlot i → t.directory i = s.directory i := by
    intro i hi
    rw [ht.dir i hi, hs.dir i hi]
  funext n
  refine abs_files_congr (hs.shape hd hta) (ht.shape hd hta) (fun i => ?_) fun i hi _ => ?_
  · refine ⟨fun h => ?_, fun h => ?_⟩
    · have he := hslot i h.1.1
      exact ⟨⟨h.1.1, by rw [he]; exact h.1.2⟩, by rw [he]; exact h.2⟩
    · have he := hslot i h.1.1
      exact ⟨⟨h.1.1, by rw [← he]; exact h.1.2⟩, by rw [← he]; exact h.2⟩
  · have hb := (((hs.shape hd hta).dir.inode i hi.1).mp hi.2).inBlocks
    unfold content
    rw [hslot i hi.1, ht.disk, hs.disk, ht.fileBlocks_eq hb, hs.fileBlocks_eq hb]

theorem Parked.mount {d : String} (h : Parked d s ch) (heap : Buf) :
    ∃ s', mountFs s (some d) heap = some (0, s') ∧ Live (marked s') ch ∧ s'.disk.handle = some d ∧
      Loaded s' ⟨s.disk.files, some d⟩ (storedDir ⟨s.disk.files, some d⟩) (storedTable ⟨s.disk.files, some d⟩)
        heap := by
  have hst := h.stored
  obtain ⟨s', hmount, hl, hfds⟩ := mountFs_ready h.mounted h.handle hst.image.holds hst.image.dir hst.image.table heap
  have hshape' := hl.shape hst.image.dir hst.image.table
  have hof : ∀ i, Used s'.directory i → Used (storedDir ⟨s.disk.files, some d⟩) i ∧
      s'.directory i = storedDir ⟨s.disk.files, some d⟩ i := by
    intro i hi
    obtain ⟨-, he, hi⟩ := hl.of_used hi
    exact ⟨hi, he⟩
  have hunused : ∀ fd, IsFd fd → (s'.fdArray fd).used = false := fun fd _ => hl.fds fd
  have hmarks : Chains (fun b => b = 1) s'.table (fun j => if taken s' j then 1 else 0) s'.directory ch := by
    have hchains : Chains (fun _ => True) s'.table s'.usedBlockBitmap s'.directory ch :=
      hst.chains.transfer hof hl.table fun _ _ _ _ => trivial
    refine hchains.transfer (fun i hi => ⟨hi, rfl⟩) (fun _ _ => rfl) fun i hi b hb => ?_
    exact if_pos (taken_iff.mpr (.inr ⟨i, hi, by rw [hchains.fileBlocks_eq hi]; exact hb⟩))
  have hlive : Live (marked s') ch :=
    { files := ⟨⟨hshape'.super, hshape'.table, hshape'.dir⟩, hmarks⟩
      fds := fds_of_closed hunused fun i hi => by
        rw [show (marked s').directory i = s'.directory i from rfl, (hof i hi).2]
        exact hst.count i (hof i hi).1
      sized := fun i hi => by
        rw [show (marked s').directory i = s'.directory i from rfl, (hof i hi).2]
        exact hst.sized i (hof i hi).1
      ready := by
        rw [show (marked s').disk = s'.disk from rfl, hl.disk]
        exact hst.image.holds.ready
      bounds :=
        { size := fun i hi => by
            rw [show (marked s').directory i = s'.directory i from rfl, (hof i hi).2]
            exact hst.size i (hof i hi).1
          offset := fun fd hfd hu => absurd ((hunused fd hfd).symm.trans hu) (by decide)
          idle := fun fd hfd _ => by
            rw [show (marked s').fdArray = s'.fdArray from rfl, hfds]
            exact h.idle fd hfd } }
  exact ⟨s', hmount, hlive, by rw [hl.disk], hl⟩

/-- mount_fs brings the files on the disk back, with no open descriptor. -/
theorem Stored.mounted {d : Disk} {heap : Buf} (h : Stored d ch)
    (hl : Loaded t d (storedDir d) (storedTable d) heap) :
    (abs (marked t)).files = (abs (loaded d)).files ∧ (abs (marked t)).descs = fun _ => none := by
  have hsame := (h.image.holds.loaded h.image.dir h.image.table).same_files hl h.image.dir h.image.table
  refine ⟨hsame, ?_⟩
  funext fd
  exact abs_desc_none fun hx => absurd ((hl.fds fd).symm.trans hx.2) (by decide)

/-! ## Runs -/

/-- The state is mounted and in order, or unmounted. -/
def Usable (d : String) (s : FS) : Prop :=
  ∃ ch, (s.mounted = true ∧ s.disk.handle = some d ∧ Live (marked s) ch) ∨ Parked d s ch

theorem VolumeCall.answers {d : String} {c : Call} (h : Live (marked s) ch) (hc : VolumeCall d s c) (hfs : c.IsFs) :
    Answers s c := by
  cases c with
  | create name => exact h.answers_create hc.2.1 hc.2.2
  | «open» name => exact h.answers_quiet trivial hc.2
  | close fd => exact h.answers_quiet trivial hc.2
  | delete name => exact h.answers_delete hc.2
  | read fd buf nbyte => exact h.answers_quiet trivial hc.2
  | write fd buf nbyte => exact h.answers_write hc.2.1 hc.2.2
  | getFilesize fd => exact h.answers_quiet trivial hc.2
  | listfiles => exact h.answers_quiet trivial hc.2
  | lseek fd offset => exact h.answers_quiet trivial hc.2
  | truncate fd length => exact h.answers_truncate hc.2.1 hc.2.2
  | mount name heap => exact hfs.elim
  | umount name => exact hfs.elim

theorem VolumeCall.mounted {d : String} {c : Call} (hc : VolumeCall d s c) (hfs : c.IsFs) : s.mounted = true := by
  cases c with
  | mount _ _ | umount _ => exact hfs.elim
  | _ => exact hc.1

theorem volume_mounted {d : String} (hm : s.mounted = true) : volume d s = .mounted (abs (marked s)) := if_pos hm

theorem volume_unmounted {d : String} (hm : s.mounted = false) :
    volume d s = .unmounted (abs (loaded ⟨s.disk.files, some d⟩)).files := by
  unfold volume
  rw [hm, if_neg (by decide)]

/-- One call: it returns, and does to the volume what the volume's rule says. -/
theorem Usable.step {d : String} {c : Call} (h : Usable d s) (hc : VolumeCall d s c) :
    ∃ ret s', s.step c = some (ret, s') ∧ Usable d s' ∧ Volume.Step (volume d s) (c, ret) (volume d s') := by
  obtain ⟨ch, ⟨hm, hh, hl⟩ | hp⟩ := h
  · obtain hfs | ⟨name, rfl⟩ | ⟨name, heap, rfl⟩ := c.isFs_or
    · obtain ⟨ret, s', ch', hs, hl', hst⟩ := hc.answers hl hfs
      have hshape : Shape s := ⟨hl.files.shape.super, hl.files.shape.table, hl.files.shape.dir⟩
      obtain ⟨hm', hk⟩ := hshape.step_disk hfs hs
      rw [hm] at hm'
      refine ⟨ret, s', hs, ⟨ch', .inl ⟨hm', hk.handle.trans hh, hl'⟩⟩, ?_⟩
      rw [volume_mounted hm, volume_mounted hm']
      exact hst
    · cases name with
      | none => exact ⟨_, s, rfl, ⟨ch, .inl ⟨hm, hh, hl⟩⟩, .umountFail (.inl rfl)⟩
      | some name =>
          obtain ⟨hclosed, hfront⟩ := hc rfl hm
          obtain ⟨s', hu, hp, hfiles⟩ := hl.umount hm hh name hclosed hfront
          refine ⟨_, s', codeOnly_of hu, ⟨ch, .inr hp⟩, ?_⟩
          rw [volume_mounted hm, volume_unmounted hp.mounted, hfiles]
          refine .umount fun fd => abs_desc_none fun hx => ?_
          exact absurd ((hclosed fd hx.1).symm.trans hx.2) (by decide)
    · refine ⟨{ code := -1 }, s, ?_, ⟨ch, .inl ⟨hm, hh, hl⟩⟩, .mountFail (.inr ⟨_, volume_mounted hm⟩)⟩
      refine codeOnly_of ?_
      unfold mountFs
      rw [hm, if_pos rfl, ite_self]
  · have hm := hp.mounted
    have hv := volume_unmounted (d := d) hm
    obtain hfs | ⟨name, rfl⟩ | ⟨name, heap, rfl⟩ := c.isFs_or
    · exact absurd (hm.symm.trans (hc.mounted hfs)) (by decide)
    · refine ⟨{ code := -1 }, s, codeOnly_of ?_, ⟨ch, .inr hp⟩, .umountFail (.inr ⟨_, hv⟩)⟩
      unfold umountFs
      rw [hm, Bool.not_false, if_pos rfl, ite_self]
    · obtain rfl | rfl := hc
      · exact ⟨_, s, rfl, ⟨ch, .inr hp⟩, .mountFail (.inl rfl)⟩
      · obtain ⟨s', hmount, hl, hh, hload⟩ := hp.mount heap
        have hm' := hload.mounted
        obtain ⟨hfiles, hdescs⟩ := hp.stored.mounted hload
        refine ⟨_, s', codeOnly_of hmount, ⟨ch, .inl ⟨hm', hh, hl⟩⟩, ?_⟩
        rw [hv, volume_mounted hm', ← hfiles]
        have habs : abs (marked s') = ⟨(abs (marked s')).files, fun _ => none, (abs (marked s')).full⟩ :=
          abs_eq _ _ (fun _ => rfl) fun fd => congrFun hdescs fd
        rw [habs]
        exact .mount _

/-- In every run with any number of umount_fs and mount_fs calls fs.c refines the volume: it starts
    with no file, every run of allowed calls is a run of the volume with the same results, and every
    allowed call returns. The memory that mount_fs gets for the bitmap may hold any bytes. -/
theorem session_refines_volume {files : String → Option Image} {d : String} {junk : Junk} {heap : Buf} {s₀ : FS}
    (h : session files d junk heap = some (r, s₀)) :
    (∃ full, volume d s₀ = .mounted { files := fun _ => none, descs := fun _ => none, full := full }) ∧
    ∀ es s, Run (Guarded FS.step (VolumeCall d)) s₀ es s →
      Run Volume.Step (volume d s₀) es (volume d s) ∧ ∀ c, VolumeCall d s c → ∃ ret s', s.step c = some (ret, s') := by
  have hfresh := session_fresh h
  have hlive : Live (withBitmap s₀ s₀.usedBlockBitmap) (fun _ => []) := session_live h
  have husable : Usable d s₀ := ⟨_, .inl ⟨hfresh.mounted, hfresh.handle, hlive.mark⟩⟩
  have hstep : ∀ s e s', Usable d s → Guarded FS.step (VolumeCall d) s e s' →
      Usable d s' ∧ Volume.Step (volume d s) e (volume d s') := by
    intro s e s' hu hs
    obtain ⟨ret, s'', hrun, hu', hst⟩ := hu.step hs.1
    have he := hs.2
    rw [hrun, Option.some.injEq, Prod.mk.injEq] at he
    obtain ⟨hret, rfl⟩ := he
    refine ⟨hu', ?_⟩
    rw [hret] at hst
    exact hst
  refine ⟨⟨(abs (marked s₀)).full, ?_⟩, fun es s hrun => ⟨?_, fun c hc => ?_⟩⟩
  · rw [volume_mounted hfresh.mounted]
    refine congrArg Volume.mounted (abs_eq _ _ (fun n => ?_) fun fd => ?_)
    · exact abs_file_none.mpr fun i hi => absurd hi (hfresh.noFile i)
    · exact abs_desc_none fun hx => absurd ((hfresh.noFd fd).symm.trans hx.2) (by decide)
  · exact hrun.simulation (volume d) husable (fun s e s' hu hs => (hstep s e s' hu hs).1)
      fun s e s' hu hs => (hstep s e s' hu hs).2
  · obtain ⟨ret, s', hs, -⟩ := (hrun.invariant husable fun s e s' hu hs => (hstep s e s' hu hs).1).step hc
    exact ⟨ret, s', hs⟩

/-- The test on fs_write, fs_create and umount_fs for runs on given calls. -/
def volumeTest (s : FS) : Call → Bool
  | .create _ => s.mounted && (List.range 64).all fun i : Nat => !(s.directory i).used ||
      (fileBlocks s.table (s.directory i).inodeNumber).all fun j => s.usedBlockBitmap j != 0
  | .write fd _ nbyte => s.mounted && match dirIndex s.directory (s.fdArray fd).inodeNumber with
      | none => true
      | some i => (s.fdArray fd).offset + nbyte ≤
          blockSize * (fileBlocks s.table (s.directory i).inodeNumber).length
  | .umount _ => noOpenFd s && (List.range 64).all fun i : Nat => !(s.directory i).used || i < 16
  | .read fd _ nbyte => s.mounted && readFits (abs s) fd nbyte
  | .mount _ _ => true
  | _ => s.mounted

theorem volumeTest_create {name : CString} (hn : name.chars ≠ []) (h : volumeTest s (.create name) = true) :
    VolumeCall "disk" s (.create name) := by
  obtain ⟨hm, hall⟩ := Bool.and_eq_true_iff.mp h
  refine ⟨hm, hn, fun i hi j hj => ?_⟩
  obtain ⟨hslot, hu⟩ := hi
  unfold IsSlot maxNumOfFiles at hslot
  have hone := List.all_eq_true.mp hall i.toNat (List.mem_range.mpr (by omega))
  rw [Int.toNat_of_nonneg hslot.1, hu, Bool.not_true, Bool.false_or] at hone
  exact bne_iff_ne.mp (List.all_eq_true.mp hone j hj)

theorem volumeTest_write (hfd : IsFd fd) (hpos : 1 ≤ nbyte) (hlen : nbyte ≤ buf.length) (hbig : buf.length < 2 ^ 63)
    (h : volumeTest s (.write fd buf nbyte) = true) : VolumeCall "disk" s (.write fd buf nbyte) := by
  obtain ⟨hm, hfit⟩ := Bool.and_eq_true_iff.mp h
  refine ⟨hm, ⟨hfd, hpos, hlen, hbig⟩, .inl fun i hi => ?_⟩
  rw [hi] at hfit
  exact of_decide_eq_true hfit

theorem volumeTest_umount (h : volumeTest s (.umount (some "disk")) = true) :
    VolumeCall "disk" s (.umount (some "disk")) := by
  obtain ⟨hfd, hall⟩ := Bool.and_eq_true_iff.mp h
  refine fun _ _ => ⟨noOpenFd_spec hfd, fun i hi => ?_⟩
  obtain ⟨hslot, hu⟩ := hi
  unfold IsSlot maxNumOfFiles at hslot
  have hone := List.all_eq_true.mp hall i.toNat (List.mem_range.mpr (by omega))
  rw [Int.toNat_of_nonneg hslot.1, hu, Bool.not_true, Bool.false_or] at hone
  have := of_decide_eq_true hone
  omega

/-- A file is written, survives umount_fs and mount_fs with a bitmap of zeros, and is written and read. -/
theorem session_refines_volume_remount : ∃ r s₀ es s,
    session (fun _ => none) "disk" zeroJunk (fun _ => 0) = some (r, s₀) ∧
      Run (Guarded FS.step (VolumeCall "disk")) s₀ es s ∧ content s (s.directory 0) = [7, 2, 3] ∧
      Run Volume.Step (volume "disk" s₀) es (volume "disk" s) := by
  obtain ⟨r, s₀, es, s, hs, hrun, hp⟩ := session_exec (VolumeCall "disk") volumeTest
    [.create nameA, .open nameA, .write 0 [1, 2, 3] 3, .close 0, .umount (some "disk"),
      .mount (some "disk") (fun _ => 0), .open nameA, .write 0 [7] 1, .lseek 0 0, .read 0 [0, 0, 0] 3]
    (fun s => content s (s.directory 0) == [7, 2, 3])
    (by
      intro s c hc hok
      simp only [List.mem_cons, List.not_mem_nil, or_false] at hc
      rcases hc with rfl | rfl | rfl | rfl | rfl | rfl | rfl | rfl | rfl | rfl
      · exact volumeTest_create (List.cons_ne_nil _ _) hok
      · exact ⟨hok, List.cons_ne_nil _ _⟩
      · exact volumeTest_write (by decide) (by decide) (by decide) (by decide) hok
      · exact ⟨hok, (by decide : IsFd 0)⟩
      · exact volumeTest_umount hok
      · exact .inr rfl
      · exact ⟨hok, List.cons_ne_nil _ _⟩
      · exact volumeTest_write (by decide) (by decide) (by decide) (by decide) hok
      · exact ⟨hok, (by decide : IsFd 0)⟩
      · obtain ⟨hm, hfit⟩ := Bool.and_eq_true_iff.mp hok
        exact ⟨hm, by decide, by decide, by decide, readFits_spec hfit⟩)
    (show (session (fun _ => none) "disk" zeroJunk (fun _ => 0)).bind _ = some true by decide +kernel)
  exact ⟨r, s₀, es, s, hs, hrun, by simpa using hp, ((session_refines_volume hs).2 es s hrun).1⟩

end EC440.FileSystem
