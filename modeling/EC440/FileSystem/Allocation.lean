/-
  How many blocks fs_write adds to a file's chain.

  The loop makes `(offset + nbyte - 1) / BLOCK_SIZE` rounds along the chain, and takes a block
  where it ends. The count is unsigned: with an offset of 0 and no byte to write it is 2^52 - 1,
  and the call takes every free block before it fails.
-/
import EC440.FileSystem.Reading

namespace EC440.FileSystem

open EC440.Lib

variable {s s' : FS} {ch : Int → List Int} {fd i r : Int} {buf : List UInt8} {nbyte : Nat}

/-- The blocks of that many bytes. -/
def ceilBlocks (bytes : Nat) : Nat := (bytes + blockSize - 1) / blockSize

/-- The blocks a file with a chain of `len` blocks lacks for `nbyte` bytes at the offset of `fd`. -/
def blocksLacking (s : FS) (fd : Int) (nbyte len : Nat) : Nat :=
  ceilBlocks ((s.fdArray fd).offset.toNat + nbyte) - len

/-- The rounds of the allocation loop. -/
def writeRounds (s : FS) (fd : Int) (nbyte : Nat) : Nat := (sizeT ((s.fdArray fd).offset + nbyte - 1) / blockSize).toNat

theorem writeRounds_eq (h0 : 0 ≤ (s.fdArray fd).offset) (hmax : (s.fdArray fd).offset + nbyte ≤ maxFilesize)
    (hpos : 0 < (s.fdArray fd).offset + nbyte) :
    writeRounds s fd nbyte + 1 = ceilBlocks ((s.fdArray fd).offset.toNat + nbyte) := by
  unfold writeRounds ceilBlocks
  unfold maxFilesize at hmax
  rw [sizeT_of_lt (by omega) (by omega)]
  unfold blockSize
  omega

theorem writeRounds_zero (h : (s.fdArray fd).offset + nbyte = 0) : writeRounds s fd nbyte = 4503599627370495 := by
  unfold writeRounds
  rw [h]
  decide

/-- fs_write on an open file: the allocation loop on its chain, then the rest of the call. -/
theorem Sound.write_eq (h : Sound s ch) (hfd : IsFd fd) (hu : (s.fdArray fd).used = true)
    (hidx : dirIndex s.directory (s.fdArray fd).inodeNumber = some i)
    (hmax : (s.fdArray fd).offset + nbyte ≤ maxFilesize) (buf : List UInt8) :
    ∃ ok s₁ new, Grow s s₁ (s.directory i).inodeNumber (ch i) new ∧
      Files (· = 1) s₁ (Function.update ch i (ch i ++ new)) ∧
      (ok = true → writeRounds s fd nbyte < (ch i ++ new).length ∧
        new.length = writeRounds s fd nbyte + 1 - (ch i).length) ∧
      (ok = false → new.length = (freeBlocks s).length ∧ new.length < writeRounds s fd nbyte + 1 - (ch i).length) ∧
      (new = [] → s₁ = s) ∧
      fsWrite s fd buf nbyte = if ok then writeData s₁ fd i buf nbyte else some (-1, s₁) := by
  have hi := (dirIndex_eq_some hidx).1
  have h0 := h.offset fd
  have hfd' := hfd
  unfold IsFd at hfd'
  unfold maxFilesize at hmax
  obtain ⟨ok, s₁, new, hrun, hg, hf, hlen, hfull, hshort, hstill⟩ :=
    h.files.growChain_eq (P := (· = 1)) (by decide) rfl hi (writeRounds s fd nbyte)
  refine ⟨ok, s₁, new, hg, hf, hlen,
    fun hok => ⟨hg.length_eq (hfull hok), hshort hok⟩, hstill, ?_⟩
  unfold fsWrite
  rw [if_neg (by omega), if_neg (by omega), if_neg (by rw [hu]; decide)]
  dsimp only
  rw [hidx]
  dsimp only
  rw [if_neg (by rw [sizeT_of_lt (by omega) (by omega)]; unfold maxFilesize; omega)]
  unfold writeRounds at hrun
  rw [hrun]
  cases ok with
  | false => rfl
  | true => rfl

/-- A chain grown by the loop is no longer than the disk. -/
theorem Grow.chain_length_le {s₁ : FS} {P : UInt8 → Prop} {new : List Int} (hi : Used s.directory i)
    (hg : Grow s s₁ (s.directory i).inodeNumber (ch i) new)
    (hf : Files P s₁ (Function.update ch i (ch i ++ new))) : (ch i ++ new).length ≤ 8192 := by
  have hi' : Used s₁.directory i := by rw [hg.same]; exact hi
  have hle := length_le_of_dataBlocks (hf.chains.nodup i hi') fun b hb => (hf.chains.blocks i hi' b hb).1
  rw [Function.update_self] at hle
  exact hle

/-- With an offset of 0 and no byte to write the loop cannot end before the disk is full. -/
theorem Sound.write_nothing (h : Sound s ch) (hfd : IsFd fd) (hu : (s.fdArray fd).used = true)
    (hidx : dirIndex s.directory (s.fdArray fd).inodeNumber = some i) (hz : (s.fdArray fd).offset + nbyte = 0)
    (buf : List UInt8) : ∃ s₁, fsWrite s fd buf nbyte = some (-1, s₁) := by
  obtain ⟨ok, s₁, new, hg, hf, hlen, -, -, hrun⟩ := h.write_eq hfd hu hidx (by rw [hz]; decide) buf
  have hle := hg.chain_length_le (dirIndex_eq_some hidx).1 hf
  rw [writeRounds_zero hz] at hlen
  cases ok with
  | false => exact ⟨s₁, hrun⟩
  | true =>
      have := (hlen rfl).1
      omega

/-- The length of the chain of the file in slot `i`. -/
def chainLength (s : FS) (i : Int) : Nat := (fileBlocks s.table (s.directory i).inodeNumber).length

/-- fs_write adds the blocks that the file lacks and returns `nbyte`; with no byte to write it changes at
    most the disk. -/
def AllocatesExactly (s : FS) (fd i : Int) (buf : List UInt8) (nbyte : Nat) : Prop :=
  ∃ s' new, fsWrite s fd buf nbyte = some ((nbyte : Int), s') ∧
    fileBlocks s'.table (s'.directory i).inodeNumber = fileBlocks s.table (s.directory i).inodeNumber ++ new ∧
    new.length = blocksLacking s fd nbyte (chainLength s i) ∧ (nbyte = 0 → s' = { s with disk := s'.disk })

/-- The call has something to do, and the chain is as long as the size in the entry asks for, at the
    latest when the call has lengthened it. -/
def ChainServes (s : FS) (fd i : Int) (nbyte : Nat) : Prop :=
  (nbyte = 0 → 0 < (s.fdArray fd).offset ∧ blocksOf (s.directory i).size ≤ chainLength s i) ∧
  (0 < nbyte → blocksOf (s.directory i).size ≤
    max (chainLength s i) (ceilBlocks ((s.fdArray fd).offset.toNat + nbyte)))

section Allocates

variable (h : Sound s ch) (hfd : IsFd fd) (hu : (s.fdArray fd).used = true)
  (hidx : dirIndex s.directory (s.fdArray fd).inodeNumber = some i)
  (hmax : (s.fdArray fd).offset + nbyte ≤ maxFilesize)
include h hfd hu hidx hmax

theorem Sound.allocates (hoff : (s.fdArray fd).offset ≤ (s.directory i).size) (hlen : nbyte ≤ buf.length)
    (hfree : blocksLacking s fd nbyte (chainLength s i) ≤ (freeBlocks s).length)
    (hs : ChainServes s fd i nbyte) : AllocatesExactly s fd i buf nbyte := by
  have hi := (dirIndex_eq_some hidx).1
  have h0 := h.offset fd
  have hch := h.files.chains.fileBlocks_eq hi
  have hpos : 0 < (s.fdArray fd).offset + nbyte := by
    have := hs.1
    omega
  obtain ⟨ok, s₁, new, hg, hf, hok, hfail, hstill, hrun⟩ := h.write_eq hfd hu hidx hmax buf
  have hrounds := writeRounds_eq h0 hmax hpos
  unfold chainLength at hfree
  unfold ChainServes chainLength at hs
  unfold blocksLacking at hfree
  rw [hch] at hfree hs
  rw [hrounds] at hok hfail
  have hokt : ok = true := by
    by_contra hc
    have := hfail (Bool.eq_false_iff.mpr hc)
    omega
  have hnew := (hok hokt).2
  rw [if_pos hokt] at hrun
  have hdir : s₁.directory = s.directory := by rw [hg.same]
  have hfdA : s₁.fdArray = s.fdArray := by rw [hg.same]
  have hi₁ : Used s₁.directory i := by rw [hdir]; exact hi
  have hlen₁ : (Function.update ch i (ch i ++ new) i).length = (ch i).length + new.length := by
    rw [Function.update_self, List.length_append]
  have hblocks : (s.fdArray fd).offset.toNat + nbyte ≤ blockSize * ((ch i).length + new.length) := by
    unfold ceilBlocks blockSize at *
    omega
  have hserved : (s.directory i).size ≤ blockSize * ((ch i).length + new.length : Nat) := by
    have hL := List.length_pos_of_ne_nil (h.files.chains.chain i hi).ne_nil
    exact (blocksOf_le (by omega)).mp (by omega)
  obtain ⟨off, ho⟩ := Int.eq_ofNat_of_zero_le h0
  obtain ⟨z, hz⟩ := Int.eq_ofNat_of_zero_le (a := max (s.directory i).size ((off + nbyte : Nat) : Int)) (by omega)
  obtain ⟨d, hdata, -⟩ := hf.writeData_eq (by rw [hg.same]; exact h.ready) hi₁
    (show (s₁.fdArray fd).offset = off by rw [hfdA]; exact ho)
    (show max (s₁.directory i).size ((off + nbyte : Nat) : Int) = z by rw [hdir]; exact hz)
    (by rw [hdir]; omega) (by omega) hlen (by rw [hlen₁]; unfold blockSize at *; omega)
  refine ⟨_, new, hrun.trans hdata, ?_, ?_, fun hn => ?_⟩
  · have hchain := hf.chains.fileBlocks_eq hi₁
    rw [Function.update_self] at hchain
    rw [hch, ← hchain]
    simp [moveTo, setSize]
  · unfold blocksLacking chainLength
    rw [hch]
    exact hnew
  · subst hn
    have hnil : new = [] := by
      have hcov : (s.directory i).size ≤ blockSize * (ch i).length :=
        (blocksOf_le (List.length_pos_of_ne_nil (h.files.chains.chain i hi).ne_nil)).mp (hs.1 rfl).2
      refine List.length_eq_zero_iff.mp ?_
      rw [hnew]
      unfold ceilBlocks blockSize at *
      omega
    rw [hstill hnil]
    have hzs : (z : Int) = (s.directory i).size := by omega
    unfold moveTo setSize
    rw [Nat.add_zero, hzs, ← ho]
    simp only [Function.update_eq_self]

theorem Sound.chainServes (ha : AllocatesExactly s fd i buf nbyte) : ChainServes s fd i nbyte := by
  have hi := (dirIndex_eq_some hidx).1
  have h0 := h.offset fd
  have hch := h.files.chains.fileBlocks_eq hi
  obtain ⟨s', add, hret, hadd, hcount, hzero⟩ := ha
  have hpos : 0 < (s.fdArray fd).offset + nbyte := by
    by_contra hz
    obtain ⟨s₁, hrun⟩ := h.write_nothing hfd hu hidx (show (s.fdArray fd).offset + nbyte = 0 by omega) buf
    rw [hret, Option.some.injEq, Prod.mk.injEq] at hrun
    omega
  obtain ⟨ok, s₁, new, hg, hf, hok, -, -, hrun⟩ := h.write_eq hfd hu hidx hmax buf
  rw [writeRounds_eq h0 hmax hpos] at hok
  rw [hret] at hrun
  cases ok with
  | false =>
      rw [if_neg (by decide), Option.some.injEq, Prod.mk.injEq] at hrun
      omega
  | true =>
      rw [if_pos rfl] at hrun
      have hdir : s₁.directory = s.directory := by rw [hg.same]
      have hfdA : s₁.fdArray = s.fdArray := by rw [hg.same]
      have hnew := (hok rfl).2
      have hroom := (hok rfl).1
      unfold writeRounds at hroom
      have htrace := hf.writeData_trace (by rw [hg.same]; exact h.ready) (by rw [hdir]; exact hi)
        (Int.natCast_nonneg nbyte) (by rw [hfdA, Function.update_self]; exact hroom) hrun.symm
      rw [Function.update_self, hdir, List.length_append] at htrace
      have hcover : blocksOf (s.directory i).size ≤ (ch i).length + new.length := by
        obtain ⟨-, hcover⟩ | ⟨hr, -⟩ := htrace
        · exact hcover
        · omega
      unfold ChainServes chainLength
      unfold blocksLacking chainLength at hcount
      rw [hch] at hcount ⊢
      refine ⟨fun hn => ⟨by omega, ?_⟩, fun _ => by omega⟩
      -- with no byte to write the chain is the same before and after
      have hsame := hzero hn
      rw [hsame] at hadd
      dsimp only at hadd
      rw [List.self_eq_append_right] at hadd
      rw [hadd] at hcount
      rw [List.length_nil] at hcount
      omega

end Allocates

/-- In every state of a session with enough free blocks, fs_write at an offset not behind the end adds
    the blocks that the file lacks and returns `nbyte`, exactly when it has something to do and the
    chain is as long as the size asks for. -/
theorem fsWrite_allocates_iff {files : String → Option Image} {d : String} {junk : Junk} {heap : Buf} {s₀ : FS}
    {es : List (Call × Ret)} (h : session files d junk heap = some (r, s₀))
    (hrun : Run (Guarded FS.step fun _ c => c.IsFs) s₀ es s) (hfd : IsFd fd) (hu : (s.fdArray fd).used = true)
    (hidx : dirIndex s.directory (s.fdArray fd).inodeNumber = some i)
    (hoff : (s.fdArray fd).offset ≤ (s.directory i).size) (hmax : (s.fdArray fd).offset + nbyte ≤ maxFilesize)
    (hlen : nbyte ≤ buf.length) (hfree : blocksLacking s fd nbyte (chainLength s i) ≤ (freeBlocks s).length) :
    AllocatesExactly s fd i buf nbyte ↔ ChainServes s fd i nbyte := by
  obtain ⟨ch, hs⟩ := run_sound h hrun
  exact ⟨hs.chainServes hfd hu hidx hmax, hs.allocates hfd hu hidx hmax hoff hlen hfree⟩

/-- A write behind three bytes that reaches into a second block. -/
theorem fsWrite_allocates_iff_two : ∃ r s₀ es s,
    session (fun _ => none) "disk" zeroJunk (fun _ => 0) = some (r, s₀) ∧
      Run (Guarded FS.step fun _ c => c.IsFs) s₀ es s ∧ blocksLacking s 0 4096 (chainLength s 0) = 1 ∧
      AllocatesExactly s 0 0 (List.replicate 4096 7) 4096 := by
  obtain ⟨r, s₀, es, s, hs, hrun, hp⟩ := session_exec (fun _ c => c.IsFs) (fun _ c => decide c.IsFs)
    [.create nameA, .open nameA, .write 0 [1, 2, 3] 3]
    (fun s => decide ((s.fdArray 0).used = true ∧ dirIndex s.directory (s.fdArray 0).inodeNumber = some 0 ∧
      (s.directory 0).size = 3 ∧ (s.fdArray 0).offset = 3 ∧ chainLength s 0 = 1 ∧ s.usedBlockBitmap 21 = 0))
    (fun s c _ h => of_decide_eq_true h)
    (show (session (fun _ => none) "disk" zeroJunk (fun _ => 0)).bind _ = some true by decide +kernel)
  obtain ⟨hu, hidx, hsize, hoff, hlen, hfree⟩ := of_decide_eq_true hp
  have hlack : blocksLacking s 0 4096 (chainLength s 0) = 1 := by
    unfold blocksLacking
    rw [hoff, hlen]
    decide
  have hpos : 0 < (freeBlocks s).length :=
    List.length_pos_of_mem (mem_freeBlocks.mpr ⟨(by decide : DataBlock 21), hfree⟩)
  refine ⟨r, s₀, es, s, hs, hrun, hlack, ?_⟩
  refine (fsWrite_allocates_iff hs hrun (by decide) hu hidx (by omega) (by rw [hoff]; decide)
    (by rw [List.length_replicate]) (by rw [hlack]; exact hpos)).mpr ⟨fun h0 => absurd h0 (by decide), fun _ => ?_⟩
  rw [hsize, hlen]
  exact (by decide : blocksOf 3 ≤ 1).trans (le_max_left _ _)

/-- fs_write of no byte to a new file returns -1. -/
theorem write_nothing_fails :
    ¬ ∀ (files : String → Option Image) (d : String) (junk : Junk) (heap : Buf) (r : Int) (s₀ s : FS)
      (es : List (Call × Ret)) (fd i : Int) (buf : List UInt8) (nbyte : Nat),
      session files d junk heap = some (r, s₀) → Run (Guarded FS.step fun _ c => c.InSession) s₀ es s →
      IsFd fd → (s.fdArray fd).used = true → dirIndex s.directory (s.fdArray fd).inodeNumber = some i →
      (s.fdArray fd).offset ≤ (s.directory i).size → (s.fdArray fd).offset + nbyte ≤ maxFilesize →
      nbyte ≤ buf.length → blocksLacking s fd nbyte (chainLength s i) ≤ (freeBlocks s).length →
      AllocatesExactly s fd i buf nbyte := by
  intro hall
  obtain ⟨r, s₀, es, s, hs, hrun, hp⟩ := session_exec (fun _ c => c.InSession) (fun _ c => decide c.InSession)
    [.create nameA, .open nameA]
    (fun s => decide ((s.fdArray 0).used = true ∧ dirIndex s.directory (s.fdArray 0).inodeNumber = some 0 ∧
      (s.directory 0).size = 0 ∧ (s.fdArray 0).offset = 0))
    (fun s c _ h => of_decide_eq_true h)
    (show (session (fun _ => none) "disk" zeroJunk (fun _ => 0)).bind _ = some true by decide +kernel)
  obtain ⟨hu, hidx, hsize, hoff⟩ := of_decide_eq_true hp
  have hlack : blocksLacking s 0 0 (chainLength s 0) = 0 := by
    unfold blocksLacking
    rw [hoff]
    exact Nat.zero_sub _
  obtain ⟨s', new, hret, -⟩ := hall _ _ _ _ _ _ _ _ 0 0 [] 0 hs hrun (by decide) hu hidx (by omega)
    (by rw [hoff]; decide) (by decide) (by rw [hlack]; exact Nat.zero_le _)
  obtain ⟨ch, hsound⟩ := run_sound hs (hrun.mono fun _ _ _ hg => ⟨hg.1.isFs, hg.2⟩)
  obtain ⟨s₁, hfail⟩ := hsound.write_nothing (by decide) hu hidx
    (show (s.fdArray 0).offset + (0 : Nat) = 0 by rw [hoff]; rfl) []
  rw [hret, Option.some.injEq, Prod.mk.injEq] at hfail
  exact absurd hfail.1 (by decide)

end EC440.FileSystem
