/-
  The records of fs.c and their layout in memory and on disk.

  sizeof(Superblock) = 28, sizeof(Inode) = 8 and sizeof(Directory_Entry) = 32 (`bool` and
  three bytes of padding, `int`, `char[16]`, `int`, `int`). Padding bytes are indeterminate
  in C and never read; they are 0 here. The encoders give byte `k` of a record, the decoders
  read a record from memory, and the round trips hold for records whose `int` fields are
  `int`s and whose name has its 16 bytes.
-/
import EC440.Lib.LittleEndian
import EC440.FileSystem.Disk
import Mathlib.Data.List.Basic

namespace EC440.FileSystem

open EC440.Lib

/-- MAX_FILENAME_LENGTH -/
abbrev maxFilenameLength : Nat := 15

/-- MAX_NUM_OF_FILES -/
abbrev maxNumOfFiles : Int := 64

/-- MAX_FILE_DESCRIPTOR -/
abbrev maxFileDescriptor : Int := 32

/-- MAX_FILESIZE -/
abbrev maxFilesize : Int := 16777216

structure Superblock where
  usedBlockBitmapCount : Int
  usedBlockBitmapOffset : Int
  inodeMetadataBlocks : Int
  inodeMetadataOffset : Int
  dOffset : Int
  dLength : Int
  dataOffset : Int
deriving DecidableEq

structure Inode where
  type : UInt8
  nextDirectOffset : Int
deriving DecidableEq

/-- `name` is the whole array `char name[MAX_FILENAME_LENGTH + 1]`. -/
structure DirectoryEntry where
  used : Bool
  inodeNumber : Int
  name : List UInt8
  size : Int
  count : Int
deriving DecidableEq

structure FileDescriptor where
  used : Bool
  inodeNumber : Int
  offset : Int
deriving DecidableEq

/-- A C string: its characters before the terminating NUL. -/
structure CString where
  chars : List UInt8
  noNul : (0 : UInt8) ∉ chars
deriving DecidableEq

/-! ## C strings in a name array -/

/-- The string a `char` array holds. -/
def cstr (raw : List UInt8) : List UInt8 := raw.takeWhile (· ≠ 0)

/-- `strcpy(raw, name)` -/
def strcpy (raw : List UInt8) (name : CString) : List UInt8 :=
  name.chars ++ 0 :: raw.drop (name.chars.length + 1)

/-- `memset(raw, '\0', MAX_FILENAME_LENGTH)` -/
def clearName (raw : List UInt8) : List UInt8 :=
  List.replicate maxFilenameLength 0 ++ raw.drop maxFilenameLength

theorem cstr_strcpy (raw : List UInt8) (name : CString) : cstr (strcpy raw name) = name.chars := by
  unfold cstr strcpy
  rw [List.takeWhile_append_of_pos]
  · simp
  · intro a ha
    have : a ≠ 0 := by rintro rfl; exact name.noNul ha
    simp [this]

theorem cstr_clearName (raw : List UInt8) : cstr (clearName raw) = [] := by
  unfold cstr clearName
  simp [List.replicate_succ]

theorem length_strcpy {raw : List UInt8} {name : CString} (hr : raw.length = maxFilenameLength + 1)
    (hn : name.chars.length ≤ maxFilenameLength) :
    (strcpy raw name).length = maxFilenameLength + 1 := by
  unfold strcpy
  simp only [List.length_append, List.length_cons, List.length_drop]
  omega

theorem length_clearName {raw : List UInt8} (hr : raw.length = maxFilenameLength + 1) :
    (clearName raw).length = maxFilenameLength + 1 := by
  unfold clearName
  simp only [List.length_append, List.length_replicate, List.length_drop]
  omega

/-! ## Records as bytes -/

/-- The fields of a `Superblock` in the order of the struct. -/
def Superblock.ints (sb : Superblock) : List Int :=
  [sb.usedBlockBitmapCount, sb.usedBlockBitmapOffset, sb.inodeMetadataBlocks,
    sb.inodeMetadataOffset, sb.dOffset, sb.dLength, sb.dataOffset]

/-- Byte `k` of a `Superblock`. -/
def Superblock.byte (sb : Superblock) (k : Nat) : UInt8 :=
  intByte (sb.ints.getD (k / 4) 0) (k % 4)

/-- The `Superblock` at the start of `f`. -/
def superblockAt (f : Buf) : Superblock where
  usedBlockBitmapCount := intAt f
  usedBlockBitmapOffset := intAt (fun k => f (4 + k))
  inodeMetadataBlocks := intAt (fun k => f (8 + k))
  inodeMetadataOffset := intAt (fun k => f (12 + k))
  dOffset := intAt (fun k => f (16 + k))
  dLength := intAt (fun k => f (20 + k))
  dataOffset := intAt (fun k => f (24 + k))

/-- Byte `k` of an `Inode`. -/
def Inode.byte (nd : Inode) (k : Nat) : UInt8 :=
  if k = 0 then nd.type else if k < 4 then 0 else intByte nd.nextDirectOffset (k - 4)

/-- The `Inode` at `f + off`. -/
def inodeAt (f : Buf) (off : Nat) : Inode where
  type := f off
  nextDirectOffset := intAt (fun k => f (off + 4 + k))

/-- Byte `k` of a `Directory_Entry`. -/
def DirectoryEntry.byte (e : DirectoryEntry) (k : Nat) : UInt8 :=
  if k = 0 then (if e.used then 1 else 0)
  else if k < 4 then 0
  else if k < 8 then intByte e.inodeNumber (k - 4)
  else if k < 24 then e.name.getD (k - 8) 0
  else if k < 28 then intByte e.size (k - 24)
  else intByte e.count (k - 28)

/-- The `Directory_Entry` at `f + off`. -/
def entryAt (f : Buf) (off : Nat) : DirectoryEntry where
  used := f off ≠ 0
  inodeNumber := intAt (fun k => f (off + 4 + k))
  name := (List.range 16).map (fun k => f (off + 8 + k))
  size := intAt (fun k => f (off + 24 + k))
  count := intAt (fun k => f (off + 28 + k))

/-- The array `Directory` as bytes. -/
def directoryBytes (dir : Int → DirectoryEntry) : Buf :=
  fun p => (dir ((p / 32 : Nat) : Int)).byte (p % 32)

/-- The array `Table` as bytes. -/
def tableBytes (table : Int → Inode) : Buf :=
  fun p => (table ((p / 8 : Nat) : Int)).byte (p % 8)

/-! ## Round trips -/

theorem intAt_of_bytes {f : Buf} {x : Int} (hx : IsInt32 x) (hf : ∀ k, k < 4 → f k = intByte x k) :
    intAt f = x := by
  rw [intAt_congr hf, intAt_intByte hx]

theorem superblock_byte_field (sb : Superblock) (c k : Nat) (hk : k < 4) :
    sb.byte (4 * c + k) = intByte (sb.ints.getD c 0) k := by
  unfold Superblock.byte
  rw [show (4 * c + k) / 4 = c by omega, show (4 * c + k) % 4 = k by omega]

/-- Only the first 28 bytes matter. -/
theorem superblockAt_congr {f g : Buf} (h : ∀ k, k < 28 → f k = g k) :
    superblockAt f = superblockAt g := by
  simp only [superblockAt, Superblock.mk.injEq]
  exact ⟨intAt_congr fun k hk => h _ (by omega), intAt_congr fun k hk => h _ (by omega),
    intAt_congr fun k hk => h _ (by omega), intAt_congr fun k hk => h _ (by omega),
    intAt_congr fun k hk => h _ (by omega), intAt_congr fun k hk => h _ (by omega),
    intAt_congr fun k hk => h _ (by omega)⟩

theorem superblockAt_byte {sb : Superblock} (h : ∀ x ∈ sb.ints, IsInt32 x) :
    superblockAt sb.byte = sb := by
  simp only [Superblock.ints, List.mem_cons, List.not_mem_nil, or_false, forall_eq_or_imp,
    forall_eq] at h
  obtain ⟨h1, h2, h3, h4, h5, h6, h7⟩ := h
  have field := superblock_byte_field sb
  simp only [superblockAt]
  rw [Superblock.mk.injEq]
  refine ⟨?_, ?_, ?_, ?_, ?_, ?_, ?_⟩
  · exact intAt_of_bytes h1 fun k hk => by simpa [Superblock.ints] using field 0 k hk
  · exact intAt_of_bytes h2 fun k hk => field 1 k hk
  · exact intAt_of_bytes h3 fun k hk => field 2 k hk
  · exact intAt_of_bytes h4 fun k hk => field 3 k hk
  · exact intAt_of_bytes h5 fun k hk => field 4 k hk
  · exact intAt_of_bytes h6 fun k hk => field 5 k hk
  · exact intAt_of_bytes h7 fun k hk => field 6 k hk

theorem inodeAt_tableBytes (table : Int → Inode) {b : Int} (hb : 0 ≤ b)
    (h : IsInt32 (table b).nextDirectOffset) :
    inodeAt (tableBytes table) (b.toNat * 8) = table b := by
  have hcell : ∀ k, k < 8 → tableBytes table (b.toNat * 8 + k) = (table b).byte k := by
    intro k hk
    unfold tableBytes
    rw [show (b.toNat * 8 + k) / 8 = b.toNat by omega, show (b.toNat * 8 + k) % 8 = k by omega,
      Int.toNat_of_nonneg hb]
  have htype : tableBytes table (b.toNat * 8) = (table b).type := by
    simpa [Inode.byte] using hcell 0 (by omega)
  have hnext : intAt (fun k => tableBytes table (b.toNat * 8 + 4 + k)) =
      (table b).nextDirectOffset := by
    refine intAt_of_bytes h fun k hk => ?_
    rw [Nat.add_assoc, hcell (4 + k) (by omega)]
    unfold Inode.byte
    rw [if_neg (by omega), if_neg (by omega), Nat.add_sub_cancel_left]
  unfold inodeAt
  rw [htype, hnext]

/-- A directory entry that survives being stored and loaded. -/
structure DirectoryEntry.Storable (e : DirectoryEntry) : Prop where
  inode : IsInt32 e.inodeNumber
  name : e.name.length = maxFilenameLength + 1
  size : IsInt32 e.size
  count : IsInt32 e.count

theorem entryAt_directoryBytes (dir : Int → DirectoryEntry) {i : Int} (hi : 0 ≤ i)
    (h : (dir i).Storable) : entryAt (directoryBytes dir) (i.toNat * 32) = dir i := by
  have hcell : ∀ k, k < 32 → directoryBytes dir (i.toNat * 32 + k) = (dir i).byte k := by
    intro k hk
    unfold directoryBytes
    rw [show (i.toNat * 32 + k) / 32 = i.toNat by omega, show (i.toNat * 32 + k) % 32 = k by omega,
      Int.toNat_of_nonneg hi]
  have hint : ∀ (c : Nat) (x : Int), c + 4 ≤ 32 → IsInt32 x →
      (∀ k, k < 4 → (dir i).byte (c + k) = intByte x k) →
      intAt (fun k => directoryBytes dir (i.toNat * 32 + c + k)) = x := by
    intro c x hc hx hk
    refine intAt_of_bytes hx fun k hk4 => ?_
    rw [Nat.add_assoc, hcell (c + k) (by omega), hk k hk4]
  have hused : decide (directoryBytes dir (i.toNat * 32) ≠ 0) = (dir i).used := by
    have h0 : directoryBytes dir (i.toNat * 32) = (dir i).byte 0 := by simpa using hcell 0 (by omega)
    rw [h0]
    cases hu : (dir i).used <;> simp [DirectoryEntry.byte, hu]
  have hname : (List.range 16).map (fun k => directoryBytes dir (i.toNat * 32 + 8 + k)) =
      (dir i).name := by
    have hlen := h.name
    apply List.ext_getElem
    · simpa using hlen.symm
    · intro k h1 h2
      have hk : k < 16 := by simpa using h1
      rw [List.getElem_map, List.getElem_range, Nat.add_assoc, hcell (8 + k) (by omega)]
      unfold DirectoryEntry.byte
      rw [if_neg (by omega), if_neg (by omega), if_neg (by omega), if_pos (by omega),
        Nat.add_sub_cancel_left, List.getD_eq_getElem?_getD, List.getElem?_eq_getElem h2, Option.getD_some]
  unfold entryAt
  rw [hused, hname, hint 4 _ (by omega) h.inode ?_, hint 24 _ (by omega) h.size ?_,
    hint 28 _ (by omega) h.count ?_]
  all_goals
    intro k hk
    unfold DirectoryEntry.byte
    simp only [show ¬ (4 + k = 0) by omega, show ¬ (4 + k < 4) by omega, show 4 + k < 8 by omega,
      show ¬ (24 + k = 0) by omega, show ¬ (24 + k < 4) by omega, show ¬ (24 + k < 8) by omega,
      show ¬ (24 + k < 24) by omega, show 24 + k < 28 by omega, show ¬ (28 + k = 0) by omega,
      show ¬ (28 + k < 4) by omega, show ¬ (28 + k < 8) by omega, show ¬ (28 + k < 24) by omega,
      show ¬ (28 + k < 28) by omega, if_true, if_false, Nat.add_sub_cancel_left]

end EC440.FileSystem
