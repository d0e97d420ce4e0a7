/-
  fs.c: the file system on the virtual disk, one definition for each function and loop.

  A call gives its return value and the state after it. `none` means that C gives the call no
  result: an array is indexed outside its bounds, a copy leaves its buffer, an `int` overflows,
  or a loop does not end. Arrays are functions on `int`; every index the source uses is
  checked where it is used. `calloc` and `malloc` succeed; what `malloc` returns for
  used_block_bitmap in mount_fs, and the bytes of uninitialised locals in make_fs, are
  arguments (`heap`, `Junk`).

  The functions do not test `mounted`, so they can be called after umount_fs: they then work
  on the arrays left in memory, and block_read and block_write return -1.
-/
import EC440.Lib.Search
import EC440.FileSystem.Layout

namespace EC440.FileSystem

open EC440.Lib

/-- The globals of fs.c, and the disk. -/
structure FS where
  super : Superblock
  table : Int → Inode
  usedBlockBitmap : Int → UInt8
  fdArray : Int → FileDescriptor
  directory : Int → DirectoryEntry
  mounted : Bool
  disk : Disk

/-- Conversion to `size_t`. -/
def sizeT (x : Int) : Int := x % 18446744073709551616

/-- `0 <= b && b < DISK_BLOCKS`: `b` indexes Table and used_block_bitmap. -/
def InBlocks (b : Int) : Prop := 0 ≤ b ∧ b < diskBlocks

instance (b : Int) : Decidable (InBlocks b) := inferInstanceAs (Decidable (_ ∧ _))

/-- `Table[b].next_direct_offset = v` -/
def setNext (table : Int → Inode) (b v : Int) : Int → Inode :=
  Function.update table b { table b with nextDirectOffset := v }

/-- The first entry with `Directory[i].used && Directory[i].inode_number == inode`. -/
def dirIndex (dir : Int → DirectoryEntry) (inode : Int) : Option Int :=
  firstIn (fun i => (dir i).used && (dir i).inodeNumber == inode) 0 maxNumOfFiles

/-- The first data block with `used_block_bitmap[j] == 0`. -/
def freeBlock (s : FS) : Option Int :=
  firstIn (fun j => s.usedBlockBitmap j == 0) s.super.dataOffset diskBlocks

/-! ## make_fs, mount_fs, umount_fs -/

/-- Bytes of make_fs's uninitialised locals that reach the disk. -/
structure Junk where
  name : List UInt8
  type : UInt8
  length_name : name.length = maxFilenameLength

/-- The superblock make_fs writes. -/
def makeSuper : Superblock :=
  let dLength : Int := 32 * 64 / 4096 + 1
  let bitmapOffset : Int := dLength + 1
  let bitmapCount : Int := 8192 / 4096
  let inodeOffset : Int := bitmapCount + bitmapOffset
  let inodeBlocks : Int := 8 * 8192 / 4096
  { dOffset := 1, dLength := dLength
    usedBlockBitmapOffset := bitmapOffset, usedBlockBitmapCount := bitmapCount
    inodeMetadataOffset := inodeOffset, inodeMetadataBlocks := inodeBlocks
    dataOffset := inodeBlocks + inodeOffset }

/-- `empty_dir` -/
def emptyDir (junk : Junk) : DirectoryEntry :=
  { used := false, inodeNumber := -1, name := 0 :: junk.name, size := 0, count := 0 }

/-- `empty_inode` -/
def emptyInode (junk : Junk) : Inode := { type := junk.type, nextDirectOffset := -2 }

/-- Writes the buffers to their blocks in order, up to the first `block_write` that fails. -/
def writeBlocks : Disk → List (Int × Buf) → Bool × Disk
  | d, [] => (true, d)
  | d, (b, buf) :: rest =>
      match blockWrite d b buf 0 with
      | none => (false, d)
      | some d => writeBlocks d rest

/-- The blocks make_fs writes; one buffer is filled again and again. -/
def makeBlocks (junk : Junk) : List (Int × Buf) :=
  let superBuf := memcpy (fun _ => 0) 0 makeSuper.byte 28
  let dirBuf := memcpy superBuf 0 (directoryBytes (fun _ => emptyDir junk)) (32 * 64)
  let inodeBuf := memcpy dirBuf 0 (tableBytes (fun _ => emptyInode junk)) blockSize
  let bitmapBuf := memcpy inodeBuf 0 (fun _ => 48) makeSuper.usedBlockBitmapCount.toNat
  [(0, superBuf), (makeSuper.dOffset, dirBuf)] ++
    (List.range makeSuper.inodeMetadataBlocks.toNat).map
      (fun i : Nat => (makeSuper.inodeMetadataOffset + i, inodeBuf)) ++
    [(makeSuper.usedBlockBitmapOffset, bitmapBuf)]

def makeFs (d : Disk) (diskName : Option String) (junk : Junk) : Int × Disk :=
  match makeDisk d diskName with
  | (r, d) =>
    if r = -1 then (-1, d)
    else match openDisk d diskName with
      | (r, d) =>
        if r = -1 then (-1, d)
        else match writeBlocks d (makeBlocks junk) with
          | (false, d) => (-1, d)
          | (true, d) => closeDisk d

/-- mount_fs's loop over the inode blocks, from block `i` on: `Table` is filled as bytes.
    `false` is a failed block_read. -/
def mountTable (d : Disk) (offset : Int) : Nat → Nat → Buf → Buf → Option (Bool × Buf × Buf)
  | 0, _, buffer, table => some (true, buffer, table)
  | n + 1, i, buffer, table =>
      match blockRead d (offset + i) buffer 0 with
      | none => some (false, buffer, table)
      | some buffer =>
          if 16 ≤ i then none
          else mountTable d offset n (i + 1) buffer (memcpy table (i * blockSize) buffer blockSize)

/-- mount_fs from the reading of the bitmap on; `heap` is what `malloc(DISK_BLOCKS)` returns. -/
def mountBitmap (s : FS) (buffer heap : Buf) : Option (Int × FS) :=
  match blockRead s.disk s.super.usedBlockBitmapOffset buffer 0 with
  | none => some (-1, { s with usedBlockBitmap := fun j => heap j.toNat })
  | some buffer =>
      if s.super.usedBlockBitmapCount < 0 ∨ (blockSize : Int) < s.super.usedBlockBitmapCount then none
      else some (0, { s with
        usedBlockBitmap := fun j => memcpy heap 0 buffer s.super.usedBlockBitmapCount.toNat j.toNat
        fdArray := fun i => { s.fdArray i with used := false }
        mounted := true })

/-- mount_fs from the reading of the inode table on. -/
def mountInodes (s : FS) (buffer heap : Buf) : Option (Int × FS) :=
  match mountTable s.disk s.super.inodeMetadataOffset s.super.inodeMetadataBlocks.toNat 0 buffer
    (fun _ => 0) with
  | none => none
  | some (false, _, table) => some (-1, { s with table := fun b => inodeAt table (b.toNat * 8) })
  | some (true, buffer, table) =>
      mountBitmap { s with table := fun b => inodeAt table (b.toNat * 8) } buffer heap

/-- mount_fs from the reading of the directory on. The copy is `sizeof(Directory) *
    MAX_NUM_OF_FILES` bytes, where `Directory` is a pointer. -/
def mountDirectory (s : FS) (buffer heap : Buf) : Option (Int × FS) :=
  match blockRead s.disk s.super.dOffset buffer 0 with
  | none => some (-1, { s with directory := fun i => entryAt (fun _ => 0) (i.toNat * 32) })
  | some buffer => mountInodes { s with
      directory := fun i => entryAt (memcpy (fun _ => 0) 0 buffer (8 * 64)) (i.toNat * 32) } buffer heap

/-- mount_fs once the disk is open. -/
def mountSuper (s : FS) (heap : Buf) : Option (Int × FS) :=
  match blockRead s.disk 0 (fun _ => 0) 0 with
  | none => some (-1, s)
  | some buffer => mountDirectory { s with super := superblockAt buffer } buffer heap

def mountFs (s : FS) (diskName : Option String) (heap : Buf) : Option (Int × FS) :=
  if diskName.isNone then some (-1, s)
  else if s.mounted then some (-1, s)
  else if (openDisk s.disk diskName).1 = -1 then some (-1, { s with disk := (openDisk s.disk diskName).2 })
  else mountSuper { s with disk := (openDisk s.disk diskName).2 } heap

/-- The blocks umount_fs writes. -/
def umountBlocks (s : FS) : List (Int × Buf) :=
  let superBuf := memcpy (fun _ => 0) 0 s.super.byte 28
  let dirBuf := memcpy superBuf 0 (directoryBytes s.directory) (32 * 64)
  [(0, superBuf), (s.super.dOffset, dirBuf)] ++
    (List.range s.super.inodeMetadataBlocks.toNat).map
      (fun i : Nat =>
        (s.super.inodeMetadataOffset + i, fun k => tableBytes s.table (i * blockSize + k)))

/-- A descriptor after umount_fs's loop. -/
def closedFd (fd : FileDescriptor) : FileDescriptor :=
  if fd.used then { used := false, inodeNumber := -1, offset := 0 } else fd

def umountFs (s : FS) (diskName : Option String) : Option (Int × FS) :=
  if diskName.isNone then some (-1, s)
  else if !s.mounted then some (-1, s)
  else if 16 < s.super.inodeMetadataBlocks then none
  else match writeBlocks s.disk (umountBlocks s) with
    | (false, d) => some (-1, { s with disk := d })
    | (true, d) =>
      let s := { s with fdArray := fun i => closedFd (s.fdArray i) }
      match closeDisk d with
      | (r, d) =>
        if r = -1 then some (-1, { s with disk := d })
        else some (0, { s with disk := d, mounted := false })

/-! ## fs_open, fs_close, fs_create, fs_delete -/

def fsOpen (s : FS) (name : CString) : Option (Int × FS) :=
  match firstIn (fun fildes => !(s.fdArray fildes).used) 0 maxFileDescriptor with
  | none => some (-1, s)
  | some fildes =>
    match firstIn (fun i => name.chars == cstr (s.directory i).name) 0 maxNumOfFiles with
    | none => some (-1, s)
    | some i =>
      let e := s.directory i
      if e.count + 1 = 2147483648 then none
      else some (fildes, { s with
        fdArray := Function.update s.fdArray fildes
          { used := true, inodeNumber := e.inodeNumber, offset := 0 }
        directory := Function.update s.directory i { e with count := e.count + 1 } })

/-- fs_close and fs_get_filesize of a descriptor outside fd_array. They read fd_array at the first
    entry in use; with no entry in use they return -1 and have not read it. -/
def outsideFds (s : FS) : Option (Int × FS) :=
  if (firstIn (fun i => (s.directory i).used) 0 maxNumOfFiles).isSome then none else some (-1, s)

def fsClose (s : FS) (fildes : Int) : Option (Int × FS) :=
  if fildes < 0 ∨ maxFileDescriptor ≤ fildes then outsideFds s
  else match dirIndex s.directory (s.fdArray fildes).inodeNumber with
    | none => some (-1, s)
    | some index =>
      if !(s.fdArray fildes).used then some (-1, s)
      else
        let e := s.directory index
        if e.count = -2147483648 then none
        else some (0, { s with
          fdArray := Function.update s.fdArray fildes { used := false, inodeNumber := -1, offset := 0 }
          directory := Function.update s.directory index { e with count := e.count - 1 } })

/-- fs_create's count of the used entries. -/
def usedEntries (dir : Int → DirectoryEntry) : Nat :=
  (List.range maxNumOfFiles.toNat).countP (fun i : Nat => (dir i).used)

/-- fs_create. With fewer than MAX_NUM_OF_FILES entries in use there is a free one, so the
    inner loop returns at the first free block. -/
def fsCreate (s : FS) (name : CString) : Option (Int × FS) :=
  if maxFilenameLength < name.chars.length then some (-1, s)
  else if (firstIn (fun i => (s.directory i).used && name.chars == cstr (s.directory i).name) 0
      maxNumOfFiles).isSome then some (-1, s)
  else if (usedEntries s.directory : Int) = maxNumOfFiles then some (-1, s)
  else if s.super.dataOffset < 0 then none
  else match freeBlock s with
    | none => some (-1, s)
    | some inode =>
      match firstIn (fun i => !(s.directory i).used) 0 maxNumOfFiles with
      | none => none
      | some i => some (0, { s with
          usedBlockBitmap := Function.update s.usedBlockBitmap inode 1
          table := Function.update s.table inode { type := 1, nextDirectOffset := -1 }
          directory := Function.update s.directory i
            { used := true, inodeNumber := inode, name := strcpy (s.directory i).name name,
              size := 0, count := 0 } })

/-- fs_delete's loop over the chain and the two statements after it. A cell met twice leads
    to index -2, so DISK_BLOCKS + 1 rounds are enough. -/
def freeChain : Nat → FS → Int → Option FS
  | 0, _, _ => none
  | n + 1, s, inode =>
      if ¬ InBlocks inode then none
      else
        let s' := { s with
          usedBlockBitmap := Function.update s.usedBlockBitmap inode 0
          table := setNext s.table inode (-2) }
        if (s.table inode).nextDirectOffset ≠ -1 then freeChain n s' (s.table inode).nextDirectOffset
        else some s'

def fsDelete (s : FS) (name : CString) : Option (Int × FS) :=
  match firstIn (fun i => name.chars == cstr (s.directory i).name) 0 maxNumOfFiles with
  | none => some (-1, s)
  | some index =>
    if 0 < (s.directory index).count then some (-1, s)
    else match freeChain (diskBlocks.toNat + 1) s (s.directory index).inodeNumber with
      | none => none
      | some s => some (0, { s with
          directory := Function.update s.directory index
            { used := false, inodeNumber := -1, name := clearName (s.directory index).name,
              size := 0, count := 0 } })

/-! ## fs_read, fs_write -/

/-- `(size - 1) / BLOCK_SIZE + 1`, `none` where this or its product with BLOCK_SIZE overflows. -/
def extent (size : Int) : Option Int :=
  let n := (size - 1).tdiv blockSize + 1
  if size - 1 < -2147483648 ∨ 2147483648 ≤ n * blockSize then none else some n

/-- fs_read's loop: `n` blocks from `inode` on into `buffer` at block `i`. -/
def readFile (s : FS) : Nat → Int → Nat → Buf → Option Buf
  | 0, _, _, buffer => some buffer
  | n + 1, inode, i, buffer =>
      match blockRead s.disk inode buffer (i * blockSize) with
      | none => none
      | some buffer =>
          if (s.table inode).nextDirectOffset = -1 then some buffer
          else readFile s n (s.table inode).nextDirectOffset (i + 1) buffer

/-- fs_read; gives the return value, the caller's buffer and the state. -/
def fsRead (s : FS) (fildes : Int) (buf : List UInt8) (nbyte : Nat) :
    Option (Int × List UInt8 × FS) :=
  if fildes < 0 ∨ maxFileDescriptor < fildes then some (-1, buf, s)
  else if maxFileDescriptor ≤ fildes then none
  else if !(s.fdArray fildes).used ∨ nbyte = 0 then some (-1, buf, s)
  else
    let fd := s.fdArray fildes
    match dirIndex s.directory fd.inodeNumber with
    | none => none
    | some index =>
      let e := s.directory index
      match extent e.size with
      | none => none
      | some n =>
        match readFile s n.toNat e.inodeNumber 0 (fun _ => 0) with
        | none => some (-1, buf, s)
        | some buffer =>
          if fd.offset < 0 ∨ n * blockSize < fd.offset + nbyte ∨ buf.length < nbyte then none
          else
            let buf := (List.range nbyte).map (fun k => buffer (fd.offset.toNat + k)) ++ buf.drop nbyte
            if sizeT e.size < sizeT (fd.offset + nbyte) then
              some (e.size - fd.offset, buf, { s with
                fdArray := Function.update s.fdArray fildes { fd with offset := e.size } })
            else
              some (toInt32 nbyte, buf, { s with
                fdArray := Function.update s.fdArray fildes
                  { fd with offset := toInt32 (fd.offset + nbyte) } })

/-- fs_write's allocation loop, `n` rounds from `inode` on; `false` is its `return -1`. -/
def growChain : Nat → FS → Int → Option (Bool × FS)
  | 0, s, _ => some (true, s)
  | n + 1, s, inode =>
      if ¬ InBlocks inode then none
      else if (s.table inode).nextDirectOffset = -1 then
        if s.super.dataOffset < 0 then none
        else match freeBlock s with
          | some j =>
              let s := { s with
                usedBlockBitmap := Function.update s.usedBlockBitmap j 1
                table := setNext (setNext s.table inode j) j (-1) }
              growChain n s (s.table inode).nextDirectOffset
          | none =>
              if s.super.dataOffset < diskBlocks then some (false, s)
              else growChain n s (s.table inode).nextDirectOffset
      else growChain n s (s.table inode).nextDirectOffset

/-- fs_write's reading loop; `none` is a failed block_read. -/
def readAll (s : FS) : Nat → Int → Nat → Buf → Option Buf
  | 0, _, _, buffer => some buffer
  | n + 1, inode, i, buffer =>
      match blockRead s.disk inode buffer (i * blockSize) with
      | none => none
      | some buffer => readAll s n (s.table inode).nextDirectOffset (i + 1) buffer

/-- fs_write's writing loop; `false` is a failed block_write. -/
def writeAll : Nat → FS → Int → Nat → Buf → Bool × FS
  | 0, s, _, _, _ => (true, s)
  | n + 1, s, inode, i, buffer =>
      match blockWrite s.disk inode buffer (i * blockSize) with
      | none => (false, s)
      | some d => writeAll n { s with disk := d } (s.table inode).nextDirectOffset (i + 1) buffer

/-- fs_write once the chain is long enough. -/
def writeData (s : FS) (fildes index : Int) (buf : List UInt8) (nbyte : Int) : Option (Int × FS) :=
  let fd := s.fdArray fildes
  let e := s.directory index
  let size := if sizeT e.size < sizeT (fd.offset + nbyte) then toInt32 (fd.offset + nbyte) else e.size
  let s := { s with directory := Function.update s.directory index { e with size := size } }
  match extent size with
  | none => none
  | some n =>
    match readAll s n.toNat e.inodeNumber 0 (fun _ => 0) with
    | none => some (-1, s)
    | some buffer =>
      if fd.offset < 0 ∨ n * blockSize < fd.offset + nbyte ∨ (buf.length : Int) < nbyte then none
      else match writeAll n.toNat s e.inodeNumber 0
          (memcpy buffer fd.offset.toNat (fun k => buf.getD k 0) nbyte.toNat) with
        | (false, s) => some (-1, s)
        | (true, s) => some (toInt32 nbyte, { s with
            fdArray := Function.update s.fdArray fildes
              { fd with offset := toInt32 (fd.offset + nbyte) } })

def fsWrite (s : FS) (fildes : Int) (buf : List UInt8) (nbyte : Nat) : Option (Int × FS) :=
  if fildes < 0 ∨ maxFileDescriptor < fildes then some (-1, s)
  else if maxFileDescriptor ≤ fildes then none
  else if !(s.fdArray fildes).used then some (-1, s)
  else
    let fd := s.fdArray fildes
    match dirIndex s.directory fd.inodeNumber with
    | none => none
    | some index =>
      let nbyte : Int := if maxFilesize < sizeT (fd.offset + nbyte) then sizeT (maxFilesize - fd.offset)
        else nbyte
      match growChain (sizeT (fd.offset + nbyte - 1) / blockSize).toNat s
          (s.directory index).inodeNumber with
      | none => none
      | some (false, s) => some (-1, s)
      | some (true, s) => writeData s fildes index buf nbyte

/-! ## fs_get_filesize, fs_listfiles, fs_lseek, fs_truncate -/

def fsGetFilesize (s : FS) (fildes : Int) : Option (Int × FS) :=
  if fildes < 0 ∨ maxFileDescriptor ≤ fildes then outsideFds s
  else match dirIndex s.directory (s.fdArray fildes).inodeNumber with
    | none => some (-1, s)
    | some i => some ((s.directory i).size, s)

/-- fs_listfiles: the strings of the array it returns, up to its NULL. -/
def fsListfiles (s : FS) : List (List UInt8) :=
  ((List.range maxNumOfFiles.toNat).filter (fun i : Nat => (s.directory i).used)).map
    (fun i : Nat => cstr (s.directory i).name)

def fsLseek (s : FS) (fildes offset : Int) : Option (Int × FS) :=
  if fildes < 0 ∨ maxFileDescriptor < fildes then some (-1, s)
  else if maxFileDescriptor ≤ fildes then none
  else if !(s.fdArray fildes).used then some (-1, s)
  else match dirIndex s.directory (s.fdArray fildes).inodeNumber with
    | none => some (-1, s)
    | some i =>
      if offset < 0 ∨ (s.directory i).size < offset then some (-1, s)
      else some (0, { s with
        fdArray := Function.update s.fdArray fildes
          { s.fdArray fildes with offset := toInt32 offset } })

/-- fs_truncate's first loop: `n` links along the chain. -/
def skipChain (table : Int → Inode) : Nat → Int → Option Int
  | 0, inode => some inode
  | n + 1, inode =>
      if InBlocks inode then skipChain table n (table inode).nextDirectOffset else none

/-- fs_truncate's second loop. A cell met twice leads to index -2, so DISK_BLOCKS + 1 rounds
    are enough. -/
def cutChain : Nat → (Int → Inode) → Int → Option (Int → Inode)
  | 0, _, _ => none
  | n + 1, table, inode =>
      if inode = -1 then some table
      else if InBlocks inode then cutChain n (setNext table inode (-2)) (table inode).nextDirectOffset
      else none

def fsTruncate (s : FS) (fildes length : Int) : Option (Int × FS) :=
  if fildes < 0 ∨ maxFileDescriptor < fildes then some (-1, s)
  else if maxFileDescriptor ≤ fildes then none
  else if !(s.fdArray fildes).used then some (-1, s)
  else match dirIndex s.directory (s.fdArray fildes).inodeNumber with
    | none => none
    | some i =>
      let e := s.directory i
      if e.size < length then some (-1, s)
      else if length - 1 < -9223372036854775808 then none
      else match skipChain s.table ((length - 1).tdiv blockSize).toNat e.inodeNumber with
        | none => none
        | some truncate =>
          match cutChain (diskBlocks.toNat + 1) s.table truncate with
          | none => none
          | some table =>
            if ¬ InBlocks truncate then none
            else some (0, { s with
              directory := Function.update s.directory i { e with size := toInt32 length }
              table := setNext table truncate (-1) })

/-! ## Calls -/

inductive Call where
  | create (name : CString)
  | open (name : CString)
  | close (fildes : Int)
  | delete (name : CString)
  | read (fildes : Int) (buf : List UInt8) (nbyte : Nat)
  | write (fildes : Int) (buf : List UInt8) (nbyte : Nat)
  | getFilesize (fildes : Int)
  | listfiles
  | lseek (fildes offset : Int)
  | truncate (fildes length : Int)
  | mount (diskName : Option String) (heap : Buf)
  | umount (diskName : Option String)

/-- What a call hands back: its return value, the buffer fs_read filled, the names
    fs_listfiles collected. -/
structure Ret where
  code : Int
  buf : List UInt8 := []
  names : List (List UInt8) := []
deriving DecidableEq

def codeOnly (r : Option (Int × FS)) : Option (Ret × FS) := r.map (fun p => ({ code := p.1 }, p.2))

/-- One call of the library. -/
def FS.step (s : FS) : Call → Option (Ret × FS)
  | .create name => codeOnly (fsCreate s name)
  | .open name => codeOnly (fsOpen s name)
  | .close fildes => codeOnly (fsClose s fildes)
  | .delete name => codeOnly (fsDelete s name)
  | .read fildes buf nbyte =>
      (fsRead s fildes buf nbyte).map (fun p => ({ code := p.1, buf := p.2.1 }, p.2.2))
  | .write fildes buf nbyte => codeOnly (fsWrite s fildes buf nbyte)
  | .getFilesize fildes => codeOnly (fsGetFilesize s fildes)
  | .listfiles => some ({ code := 0, names := fsListfiles s }, s)
  | .lseek fildes offset => codeOnly (fsLseek s fildes offset)
  | .truncate fildes length => codeOnly (fsTruncate s fildes length)
  | .mount diskName heap => codeOnly (mountFs s diskName heap)
  | .umount diskName => codeOnly (umountFs s diskName)

/-- The process before any call: globals are zero, no disk is open. -/
def boot (files : String → Option Image) : FS where
  super := ⟨0, 0, 0, 0, 0, 0, 0⟩
  table := fun _ => ⟨0, 0⟩
  usedBlockBitmap := fun _ => 0
  fdArray := fun _ => ⟨false, 0, 0⟩
  directory := fun _ => ⟨false, 0, List.replicate 16 0, 0, 0⟩
  mounted := false
  disk := ⟨files, none⟩

/-- The state after `make_fs(d)` and `mount_fs(d)` in a fresh process. -/
def session (files : String → Option Image) (d : String) (junk : Junk) (heap : Buf) : Option (Int × FS) :=
  mountFs { boot files with disk := (makeFs ⟨files, none⟩ (some d) junk).2 } (some d) heap

end EC440.FileSystem
