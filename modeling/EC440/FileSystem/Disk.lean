/-
  disk.c: the virtual disk, a host file of DISK_BLOCKS blocks of BLOCK_SIZE bytes.

  The host's open, lseek, read and write succeed (`open` needs an existing file); a `read`
  past the end of the file leaves the rest of the buffer as it is. `blockRead` and
  `blockWrite` give `none` where the C function returns -1.
-/
import Mathlib.Logic.Function.Basic

namespace EC440.FileSystem

/-- BLOCK_SIZE -/
abbrev blockSize : Nat := 4096

/-- DISK_BLOCKS -/
abbrev diskBlocks : Int := 8192

/-- Memory seen as bytes from a base address on. -/
abbrev Buf := Nat → UInt8

/-- `memcpy(dst + at, src, n)` -/
def memcpy (dst : Buf) (off : Nat) (src : Buf) (n : Nat) : Buf :=
  fun p => if off ≤ p ∧ p < off + n then src (p - off) else dst p

/-- The content of a host file: its length and its bytes. -/
structure Image where
  size : Nat
  data : Buf

/-- `lseek(handle, pos, SEEK_SET); read(handle, buf + off, BLOCK_SIZE)` -/
def Image.read (img : Image) (pos : Nat) (buf : Buf) (off : Nat) : Buf :=
  fun p => if off ≤ p ∧ p < off + blockSize ∧ pos + (p - off) < img.size
    then img.data (pos + (p - off)) else buf p

/-- `lseek(handle, pos, SEEK_SET); write(handle, src + off, BLOCK_SIZE)` -/
def Image.write (img : Image) (pos : Nat) (src : Buf) (off : Nat) : Image where
  size := max img.size (pos + blockSize)
  data := fun q => if pos ≤ q ∧ q < pos + blockSize then src (off + (q - pos))
    else if q < img.size then img.data q else 0

/-- The host's files, and the static variables of disk.c: `handle` is the file that is open,
    `none` when the disk is not active. -/
structure Disk where
  files : String → Option Image
  handle : Option String

/-- The file behind the open disk. -/
def Disk.image (d : Disk) : Option Image := d.handle.bind d.files

/-- `make_disk`: (re)creates the file with DISK_BLOCKS zero blocks. -/
def makeDisk (d : Disk) : Option String → Int × Disk
  | none => (-1, d)
  | some name =>
      (0, { d with files := Function.update d.files name (some ⟨diskBlocks.toNat * blockSize, fun _ => 0⟩) })

/-- `open_disk` -/
def openDisk (d : Disk) : Option String → Int × Disk
  | none => (-1, d)
  | some name =>
      if d.handle.isSome then (-1, d)
      else if (d.files name).isNone then (-1, d)
      else (0, { d with handle := some name })

/-- `close_disk` -/
def closeDisk (d : Disk) : Int × Disk :=
  if d.handle.isNone then (-1, d) else (0, { d with handle := none })

/-- `block_write(block, src + off)` -/
def blockWrite (d : Disk) (block : Int) (src : Buf) (off : Nat) : Option Disk :=
  match d.handle, d.image with
  | some name, some img =>
      if block < 0 ∨ diskBlocks ≤ block then none
      else some { d with
        files := Function.update d.files name (some (img.write (block.toNat * blockSize) src off)) }
  | _, _ => none

/-- `block_read(block, buf + off)` -/
def blockRead (d : Disk) (block : Int) (buf : Buf) (off : Nat) : Option Buf :=
  match d.image with
  | some img =>
      if block < 0 ∨ diskBlocks ≤ block then none
      else some (img.read (block.toNat * blockSize) buf off)
  | none => none

/-! ## Blocks of an open disk -/

/-- The disk is open and its file has all DISK_BLOCKS blocks. -/
def Disk.Ready (d : Disk) : Prop := ∃ img, d.image = some img ∧ diskBlocks.toNat * blockSize ≤ img.size

/-- Byte `k` of block `b` of the open disk. -/
def Disk.block (d : Disk) (b : Int) (k : Nat) : UInt8 :=
  match d.image with
  | some img => img.data (b.toNat * blockSize + k)
  | none => 0

theorem blockRead_ready {d : Disk} (h : d.Ready) {b : Int} (h0 : 0 ≤ b) (h1 : b < diskBlocks)
    (buf : Buf) (off : Nat) :
    blockRead d b buf off =
      some (fun p => if off ≤ p ∧ p < off + blockSize then d.block b (p - off) else buf p) := by
  obtain ⟨img, himg, hsz⟩ := h
  unfold blockRead Disk.block
  rw [himg]
  dsimp only
  rw [if_neg (by omega)]
  congr 1
  funext p
  unfold Image.read
  by_cases hp : off ≤ p ∧ p < off + blockSize
  · rw [if_pos hp, if_pos ⟨hp.1, hp.2, by unfold blockSize diskBlocks at *; omega⟩]
  · rw [if_neg hp, if_neg (fun h => hp ⟨h.1, h.2.1⟩)]

theorem blockRead_range {d : Disk} {b : Int} {buf buf' : Buf} {off : Nat}
    (h : blockRead d b buf off = some buf') : 0 ≤ b ∧ b < diskBlocks := by
  unfold blockRead at h
  split at h
  · split at h
    · cases h
    · omega
  · cases h

theorem Disk.Ready.image_eq {d : Disk} (h : d.Ready) :
    ∃ name img, d.handle = some name ∧ d.files name = some img ∧ d.image = some img ∧
      diskBlocks.toNat * blockSize ≤ img.size := by
  obtain ⟨img, himg, hsz⟩ := h
  have himg' := himg
  unfold Disk.image at himg'
  rw [Option.bind_eq_some_iff] at himg'
  obtain ⟨name, h1, h2⟩ := himg'
  exact ⟨name, img, h1, h2, himg, hsz⟩

theorem image_write_block (img : Image) (b c : Nat) (src : Buf) (off k : Nat) (hk : k < blockSize)
    (hc : c * blockSize + k < img.size) :
    (img.write (b * blockSize) src off).data (c * blockSize + k) =
      if c = b then src (off + k) else img.data (c * blockSize + k) := by
  unfold blockSize at *
  unfold Image.write blockSize
  dsimp only
  by_cases hcb : c = b
  · subst hcb
    rw [if_pos (by omega), if_pos rfl]
    congr 1
    omega
  · rw [if_neg (by omega), if_neg hcb, if_pos hc]

/-- One block written: the disk stays open, that block holds the bytes of `src` from `off`
    on, and every other block is unchanged. -/
theorem blockWrite_ready {d : Disk} (h : d.Ready) {b : Int} (h0 : 0 ≤ b) (h1 : b < diskBlocks)
    (src : Buf) (off : Nat) :
    ∃ d', blockWrite d b src off = some d' ∧ d'.Ready ∧ d'.handle = d.handle ∧
      ∀ c k, 0 ≤ c → c < diskBlocks → k < blockSize →
        d'.block c k = if c = b then src (off + k) else d.block c k := by
  obtain ⟨name, img, hh, hf, himg, hsz⟩ := h.image_eq
  refine ⟨{ d with
      files := Function.update d.files name (some (img.write (b.toNat * blockSize) src off)) },
    ?_, ?_, rfl, ?_⟩
  · unfold blockWrite
    rw [hh, himg]
    dsimp only
    rw [if_neg (by omega)]
  · refine ⟨img.write (b.toNat * blockSize) src off, by simp [Disk.image, hh], ?_⟩
    exact Nat.le_trans hsz (Nat.le_max_left _ _)
  · intro c k hc0 hc1 hk
    have himg' : Disk.image { d with
        files := Function.update d.files name (some (img.write (b.toNat * blockSize) src off)) } =
        some (img.write (b.toNat * blockSize) src off) := by simp [Disk.image, hh]
    have hcs : c.toNat * blockSize + k < img.size := by
      unfold blockSize diskBlocks at *; omega
    unfold Disk.block
    rw [himg', himg]
    dsimp only
    rw [image_write_block img _ _ src off k hk hcs]
    have : (c.toNat = b.toNat) ↔ c = b := by omega
    simp only [this]

/-- `d'` is `d` with at most the contents of its open file changed. -/
structure Disk.Kept (d d' : Disk) : Prop where
  handle : d'.handle = d.handle
  ready : d.Ready → d'.Ready
  closed : d.handle = none → d' = d

theorem Disk.Kept.refl (d : Disk) : Disk.Kept d d := ⟨rfl, id, fun _ => rfl⟩

theorem Disk.Kept.trans {d₁ d₂ d₃ : Disk} (h : Disk.Kept d₁ d₂) (h' : Disk.Kept d₂ d₃) :
    Disk.Kept d₁ d₃ where
  handle := h'.handle.trans h.handle
  ready := fun hr => h'.ready (h.ready hr)
  closed := fun hn => (h'.closed (h.handle.trans hn)).trans (h.closed hn)

theorem blockWrite_kept {d d' : Disk} {b : Int} {src : Buf} {off : Nat}
    (h : blockWrite d b src off = some d') : Disk.Kept d d' := by
  unfold blockWrite at h
  split at h
  · next name img hname himg =>
      split at h
      · cases h
      · cases h
        refine ⟨rfl, fun hr => ?_, fun hn => by rw [hname] at hn; cases hn⟩
        obtain ⟨img', himg', hsz⟩ := hr
        rw [himg] at himg'
        cases himg'
        exact ⟨img.write (b.toNat * blockSize) src off, by simp [Disk.image, hname],
          Nat.le_trans hsz (Nat.le_max_left _ _)⟩
  · cases h

end EC440.FileSystem
