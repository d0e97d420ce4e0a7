/-
  What the file system is for: a store that maps names to byte strings and descriptors to a
  file and an offset. The blocks, the inode table, the bitmap and the directory do not appear;
  `full` says that no block is left, which is all a caller can learn about them.

  `abs` reads the store off a state of fs.c.
-/
import EC440.FileSystem.Data
import EC440.FileSystem.Session
import Mathlib.Data.Set.Card

namespace EC440.FileSystem

open EC440.Lib

structure Store where
  files : List UInt8 → Option (List UInt8)
  descs : Int → Option (List UInt8 × Nat)
  full : Bool

/-- One call, its result and the store after it. -/
inductive Store.Step : Store → Call × Ret → Store → Prop
  | create {st : Store} {name : CString} (full : Bool) : name.chars.length ≤ maxFilenameLength →
      st.files name.chars = none → {n | st.files n ≠ none}.ncard < 64 → st.full = false →
      Store.Step st (.create name, { code := 0 })
        { st with files := Function.update st.files name.chars (some []), full := full }
  | createFail {st : Store} {name : CString} :
      (maxFilenameLength < name.chars.length ∨ st.files name.chars ≠ none ∨
        {n | st.files n ≠ none}.ncard = 64 ∨ st.full = true) →
      Store.Step st (.create name, { code := -1 }) st
  | open {st : Store} {name : CString} {fd : Int} : IsFd fd → st.descs fd = none →
      (∀ k, 0 ≤ k → k < fd → st.descs k ≠ none) → st.files name.chars ≠ none →
      Store.Step st (.open name, { code := fd })
        { st with descs := Function.update st.descs fd (some (name.chars, 0)) }
  | openFail {st : Store} {name : CString} :
      ((∀ fd, IsFd fd → st.descs fd ≠ none) ∨ st.files name.chars = none) →
      Store.Step st (.open name, { code := -1 }) st
  | close {st : Store} {fd : Int} : st.descs fd ≠ none →
      Store.Step st (.close fd, { code := 0 }) { st with descs := Function.update st.descs fd none }
  | closeFail {st : Store} {fd : Int} : st.descs fd = none →
      Store.Step st (.close fd, { code := -1 }) st
  | delete {st : Store} {name : CString} (full : Bool) : st.files name.chars ≠ none →
      (∀ fd off, st.descs fd ≠ some (name.chars, off)) →
      Store.Step st (.delete name, { code := 0 })
        { st with files := Function.update st.files name.chars none, full := full }
  | deleteFail {st : Store} {name : CString} :
      (st.files name.chars = none ∨ ∃ fd off, st.descs fd = some (name.chars, off)) →
      Store.Step st (.delete name, { code := -1 }) st
  | read {st : Store} {fd : Int} {buf buf' bytes name : List UInt8} {nbyte off : Nat} :
      st.descs fd = some (name, off) → st.files name = some bytes →
      buf'.take (min nbyte (bytes.length - off)) = (bytes.drop off).take (min nbyte (bytes.length - off)) →
      buf'.drop nbyte = buf.drop nbyte → buf'.length = buf.length →
      Store.Step st (.read fd buf nbyte, { code := (min nbyte (bytes.length - off) : Nat), buf := buf' })
        { st with
          descs := Function.update st.descs fd (some (name, off + min nbyte (bytes.length - off))) }
  | readFail {st : Store} {fd : Int} {buf : List UInt8} {nbyte : Nat} : st.descs fd = none →
      Store.Step st (.read fd buf nbyte, { code := -1, buf := buf }) st
  | write {st : Store} {fd : Int} {buf bytes name : List UInt8} {nbyte off n : Nat} (full : Bool) :
      st.descs fd = some (name, off) → st.files name = some bytes →
      n = min nbyte (maxFilesize.toNat - off) →
      Store.Step st (.write fd buf nbyte, { code := n })
        { files := Function.update st.files name
            (some (bytes.take off ++ buf.take n ++ bytes.drop (off + n)))
          descs := Function.update st.descs fd (some (name, off + n)), full := full }
  | writeFull {st : Store} {fd : Int} {buf : List UInt8} {nbyte : Nat} : st.descs fd ≠ none →
      Store.Step st (.write fd buf nbyte, { code := -1 }) { st with full := true }
  | writeFail {st : Store} {fd : Int} {buf : List UInt8} {nbyte : Nat} : st.descs fd = none →
      Store.Step st (.write fd buf nbyte, { code := -1 }) st
  | getFilesize {st : Store} {fd : Int} {bytes name : List UInt8} {off : Nat} :
      st.descs fd = some (name, off) → st.files name = some bytes →
      Store.Step st (.getFilesize fd, { code := bytes.length }) st
  | getFilesizeFail {st : Store} {fd : Int} : st.descs fd = none →
      Store.Step st (.getFilesize fd, { code := -1 }) st
  | listfiles {st : Store} {names : List (List UInt8)} : names.Nodup →
      (∀ n, n ∈ names ↔ st.files n ≠ none) → Store.Step st (.listfiles, { code := 0, names := names }) st
  | lseek {st : Store} {fd offset : Int} {bytes name : List UInt8} {off : Nat} :
      st.descs fd = some (name, off) → st.files name = some bytes → 0 ≤ offset →
      offset ≤ bytes.length →
      Store.Step st (.lseek fd offset, { code := 0 })
        { st with descs := Function.update st.descs fd (some (name, offset.toNat)) }
  | lseekFail {st : Store} {fd offset : Int} :
      (∀ name off bytes, st.descs fd = some (name, off) → st.files name = some bytes →
        offset < 0 ∨ (bytes.length : Int) < offset) →
      Store.Step st (.lseek fd offset, { code := -1 }) st

/-- The calls of a store's user: non-empty names, descriptors in 0..31, buffers that hold the
    bytes asked for, and no fs_read past the end of the file's last block. -/
def Store.Allows (st : Store) : Call → Prop
  | .read fd buf nbyte => IsFd fd ∧ 1 ≤ nbyte ∧ nbyte ≤ buf.length ∧
      ∀ name off bytes, st.descs fd = some (name, off) → st.files name = some bytes →
        off + nbyte ≤ blockSize * ((bytes.length - 1) / blockSize + 1)
  | .write fd buf nbyte => IsFd fd ∧ 1 ≤ nbyte ∧ nbyte ≤ buf.length ∧ buf.length < 2 ^ 63
  | .truncate _ _ => False
  | c => c.InSession

/-! ## The store of a state -/

/-- The slot of the file of that name. -/
def nameSlot (dir : Int → DirectoryEntry) (name : List UInt8) : Option Int :=
  firstIn (fun i => (dir i).used && name == cstr (dir i).name) 0 maxNumOfFiles

def abs (s : FS) : Store where
  files := fun name => (nameSlot s.directory name).map fun i => content s (s.directory i)
  descs := fun fd =>
    if IsFd fd ∧ (s.fdArray fd).used = true then
      (dirIndex s.directory (s.fdArray fd).inodeNumber).map fun i =>
        (cstr (s.directory i).name, (s.fdArray fd).offset.toNat)
    else none
  full := (freeBlock s).isNone

theorem nameSlot_eq_none {dir : Int → DirectoryEntry} {name : List UInt8} :
    nameSlot dir name = none ↔ ∀ i, Used dir i → name ≠ cstr (dir i).name := by
  unfold nameSlot
  rw [firstIn_used_eq_none]
  simp only [beq_eq_false_iff_ne]

theorem DirShape.nameSlot_eq {dir : Int → DirectoryEntry} (h : DirShape dir) {i : Int} (hi : Used dir i) :
    nameSlot dir (cstr (dir i).name) = some i := by
  refine firstIn_unique hi.1.1 hi.1.2 (by simp [hi.2]) fun k h1 h2 hk => ?_
  simp only [Bool.and_eq_true, beq_iff_eq] at hk
  exact h.names k i ⟨⟨h1, h2⟩, hk.1⟩ hi hk.2.symm

theorem Shape.abs_file {s : FS} (h : Shape s) {i : Int} (hi : Used s.directory i) :
    (abs s).files (cstr (s.directory i).name) = some (content s (s.directory i)) := by
  simp only [abs, h.dir.nameSlot_eq hi, Option.map_some]

theorem abs_file_none {s : FS} {name : List UInt8} :
    (abs s).files name = none ↔ ∀ i, Used s.directory i → name ≠ cstr (s.directory i).name := by
  simp only [abs, Option.map_eq_none_iff, nameSlot_eq_none]

/-- A name of the store is the name of a used entry. -/
theorem abs_file_used {s : FS} {name : List UInt8} (h : (abs s).files name ≠ none) :
    ∃ i, Used s.directory i ∧ name = cstr (s.directory i).name := by
  rw [ne_eq, abs_file_none] at h
  push Not at h
  exact h

/-- The files of two states agree where their entries, names and bytes do. -/
theorem abs_files_congr {s s' : FS} (hs : Shape s) (hs' : Shape s') {name : List UInt8}
    (h : ∀ i, (Used s.directory i ∧ cstr (s.directory i).name = name) ↔
      (Used s'.directory i ∧ cstr (s'.directory i).name = name))
    (hc : ∀ i, Used s.directory i → cstr (s.directory i).name = name →
      content s' (s'.directory i) = content s (s.directory i)) :
    (abs s').files name = (abs s).files name := by
  by_cases hn : (abs s).files name = none
  · rw [hn, abs_file_none]
    intro i hi he
    have := (h i).mpr ⟨hi, he.symm⟩
    exact abs_file_none.mp hn i this.1 this.2.symm
  · obtain ⟨i, hi, he⟩ := abs_file_used hn
    have := (h i).mp ⟨hi, he.symm⟩
    have hfile := hs'.abs_file this.1
    rw [this.2] at hfile
    rw [hfile, hc i hi he.symm, he, hs.abs_file hi]

theorem length_content (s : FS) (e : DirectoryEntry) : (content s e).length = e.size.toNat := by
  simp [content]

/-! ## Names -/

theorem mem_fsListfiles {s : FS} {name : List UInt8} :
    name ∈ fsListfiles s ↔ (abs s).files name ≠ none := by
  unfold fsListfiles
  simp only [List.mem_map, List.mem_filter, List.mem_range]
  constructor
  · rintro ⟨k, ⟨hk, hu⟩, rfl⟩ hn
    exact abs_file_none.mp hn k ⟨⟨by omega, by unfold maxNumOfFiles at *; omega⟩, hu⟩ rfl
  · intro h
    obtain ⟨i, hi, he⟩ := abs_file_used h
    have hr := hi.1
    unfold IsSlot maxNumOfFiles at hr
    refine ⟨i.toNat, ⟨by unfold maxNumOfFiles; omega, ?_⟩, ?_⟩
    · rw [Int.toNat_of_nonneg hr.1]; exact hi.2
    · rw [Int.toNat_of_nonneg hr.1, he]

theorem DirShape.listfiles_nodup {s : FS} (h : DirShape s.directory) : (fsListfiles s).Nodup := by
  unfold fsListfiles
  refine List.Nodup.map_on ?_ (List.nodup_range.filter _)
  intro i hi j hj he
  simp only [List.mem_filter, List.mem_range] at hi hj
  unfold maxNumOfFiles at hi hj
  have := h.names i j ⟨⟨by omega, by unfold maxNumOfFiles; omega⟩, hi.2⟩
    ⟨⟨by omega, by unfold maxNumOfFiles; omega⟩, hj.2⟩ he
  omega

/-- fs_create's count of the used entries is the number of files. -/
theorem DirShape.usedEntries_eq {s : FS} (h : DirShape s.directory) :
    usedEntries s.directory = {n | (abs s).files n ≠ none}.ncard := by
  have hset : {n | (abs s).files n ≠ none} = ((fsListfiles s).toFinset : Set (List UInt8)) := by
    ext n
    simp [mem_fsListfiles]
  rw [hset, Set.ncard_coe_finset, List.toFinset_card_of_nodup h.listfiles_nodup]
  simp [usedEntries, fsListfiles, List.countP_eq_length_filter]

theorem usedEntries_le (dir : Int → DirectoryEntry) : usedEntries dir ≤ 64 := by
  unfold usedEntries
  exact List.countP_le_length.trans (by simp)

/-- With all slots in use the count is MAX_NUM_OF_FILES. -/
theorem exists_unused {dir : Int → DirectoryEntry} (h : (usedEntries dir : Int) ≠ maxNumOfFiles) :
    ∃ i, IsSlot i ∧ (dir i).used = false := by
  by_contra hno
  push Not at hno
  refine h ?_
  unfold usedEntries
  rw [List.countP_eq_length.mpr]
  · simp
  · intro k hk
    have hk' := List.mem_range.mp hk
    unfold maxNumOfFiles at hk'
    simpa using hno k ⟨by omega, by unfold maxNumOfFiles; omega⟩

end EC440.FileSystem
