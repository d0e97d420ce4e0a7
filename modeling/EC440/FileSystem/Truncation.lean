/-
  fs_truncate to a length inside the file: the file keeps its first blocks and its first bytes.

  The loop goes `(length - 1) / BLOCK_SIZE` links along the chain, and the chain has that many as
  long as no negative length was stored as the file's size.
-/
import EC440.FileSystem.Deletion

namespace EC440.FileSystem

open EC440.Lib

variable {s s' : FS} {ch : Int → List Int} {fd i r length : Int}

/-- fs_truncate leaves the file in slot `i` its first `length` bytes and the blocks they need, and every
    other file as it is. -/
structure KeepsFront (s : FS) (i length : Int) (s' : FS) : Prop where
  size : (s'.directory i).size = length
  ends : Linked (nextOf s'.table) (some (s'.directory i).inodeNumber)
    ((fileBlocks s.table (s.directory i).inodeNumber).take (blocksOf length))
  chain : fileBlocks s'.table (s'.directory i).inodeNumber =
    (fileBlocks s.table (s.directory i).inodeNumber).take (blocksOf length)
  bytes : content s' (s'.directory i) = (content s (s.directory i)).take length.toNat
  others : ∀ j, Used s.directory j → j ≠ i → s'.directory j = s.directory j ∧
    fileBlocks s'.table (s'.directory j).inodeNumber = fileBlocks s.table (s.directory j).inodeNumber ∧
    content s' (s'.directory j) = content s (s.directory j)

/-- The call returns when the chain is long enough. -/
theorem Files.truncate_returns {P : UInt8 → Prop} (h : Files P s ch)
    (hidx : dirIndex s.directory (s.fdArray fd).inodeNumber = some i) (h0 : 0 ≤ length)
    (hle : length ≤ (s.directory i).size) (hfd : IsFd fd) (hu : (s.fdArray fd).used = true)
    (hlen : blocksOf length ≤ (ch i).length) : ∃ s', fsTruncate s fd length = some (0, s') := by
  have hi := (dirIndex_eq_some hidx).1
  have hchain := h.chains.chain i hi
  have hin : ∀ b ∈ ch i, InBlocks b := fun b hb => (h.chains.blocks i hi b hb).1.inBlocks
  rw [rounds_eq_blocks] at hlen
  -- the chain at the block where the first loop stops
  obtain ⟨pre, c, post, hch, hpre⟩ : ∃ pre c post, ch i = pre ++ c :: post ∧
      pre.length = ((length - 1).tdiv blockSize).toNat := by
    have hlt : ((length - 1).tdiv blockSize).toNat < (ch i).length := by omega
    refine ⟨(ch i).take ((length - 1).tdiv blockSize).toNat, (ch i)[((length - 1).tdiv blockSize).toNat],
      (ch i).drop (((length - 1).tdiv blockSize).toNat + 1), ?_, ?_⟩
    · rw [← List.drop_eq_getElem_cons hlt, List.take_append_drop]
    · rw [List.length_take]
      omega
  have hnd := h.chains.nodup i hi
  have hmax := h.length_le hi
  rw [hch] at hchain hin hnd hmax
  have hskip := skipChain_spec pre hchain fun b hb => hin b (List.mem_append_left _ hb)
  obtain ⟨m, -, htail⟩ := seg_append.mp hchain
  obtain rfl : m = some c := (seg_cons.mp htail).1
  have hcut := cutChain_spec (diskBlocks.toNat + 1) htail (List.nodup_append.mp hnd).2.1
    (fun b hb => hin b (List.mem_append_right _ hb)) (by rw [List.length_append] at hmax; omega)
  rw [Option.getD_some] at hcut
  have hc : InBlocks c := hin c (List.mem_append_right _ List.mem_cons_self)
  rw [hpre] at hskip
  unfold IsFd at hfd
  unfold fsTruncate
  rw [if_neg (by omega), if_neg (by omega), if_neg (by rw [hu]; decide), hidx]
  dsimp only
  rw [if_neg (by omega), if_neg (by omega), hskip]
  dsimp only
  rw [hcut]
  dsimp only
  rw [if_neg (not_not.mpr hc)]
  exact ⟨_, rfl⟩

section Truncate

variable (h : Sound s ch) (hidx : dirIndex s.directory (s.fdArray fd).inodeNumber = some i)
  (h0 : 0 ≤ length) (hle : length ≤ (s.directory i).size)
include h hidx h0 hle

theorem Sound.truncate_returns (hfd : IsFd fd) (hu : (s.fdArray fd).used = true)
    (hlen : blocksOf length ≤ (ch i).length) : ∃ s', fsTruncate s fd length = some (0, s') :=
  h.files.truncate_returns hidx h0 hle hfd hu hlen

/-- What a call that returns 0 has done. -/
theorem Sound.truncate_keeps (hc : fsTruncate s fd length = some (0, s')) :
    blocksOf length ≤ (ch i).length ∧ KeepsFront s i length s' := by
  obtain ⟨hr, -⟩ | ⟨j, pre, c, post, -, -, hj, -, hch, hpre, hf, -, hs'⟩ := h.files.truncate_eq hc
  · exact absurd hr (by decide)
  obtain rfl : i = j := by
    rw [hidx] at hj
    exact Option.some.inj hj
  have hi := (dirIndex_eq_some hidx).1
  have hint := (h.files.shape.dir.entry i hi.1).size
  unfold IsInt32 at hint
  rw [toInt32_of_isInt32 (by unfold IsInt32; omega)] at hs'
  have hdir : s'.directory = Function.update s.directory i { s.directory i with size := length } := by rw [hs']
  have hdisk : s'.disk = s.disk := by rw [hs']
  have hsame : ∀ j, SameFile (s.directory j) (s'.directory j) := by
    rw [hdir]; exact sameFile_update ⟨rfl, rfl, rfl⟩
  have hi' : Used s'.directory i := (used_congr hsame).mpr hi
  have hsize : (s'.directory i).size = length := by rw [hdir, Function.update_self]
  have hblocks : blocksOf length = pre.length + 1 := by rw [rounds_eq_blocks, hpre]
  have htake : (ch i).take (blocksOf length) = pre ++ [c] := by
    rw [hblocks, hch, List.take_append, List.take_of_length_le (Nat.le_succ _), Nat.add_sub_cancel_left]
    rfl
  have hroom := le_blocks length
  rw [← hpre] at hroom
  refine ⟨by rw [hblocks, hch, List.length_append, List.length_cons]; omega, hsize, ?_, ?_, ?_, fun j hj hji => ?_⟩
  · have hlinked := hf.chains.chain i hi'
    rw [Function.update_self] at hlinked
    rw [h.files.chains.fileBlocks_eq hi, htake]
    exact hlinked
  · rw [h.files.chains.fileBlocks_eq hi, htake, hf.chains.fileBlocks_eq hi', Function.update_self]
  · have htake' := h.files.content_take hf hi hi' hdisk (l := post)
      (by rw [Function.update_self, hch]; simp) (by rw [hsize]; omega)
      (by rw [hsize, Function.update_self, List.length_append, List.length_singleton]; unfold blockSize at *; omega)
    rw [htake', hsize]
  · have hother : s'.directory j = s.directory j := by rw [hdir]; exact Function.update_of_ne hji _ _
    have hj' : Used s'.directory j := (used_congr hsame).mpr hj
    refine ⟨hother, ?_, h.files.content_frame hf hj hj' (by rw [hother]) (Function.update_of_ne hji _ _)
      fun b _ k _ => by rw [hdisk]⟩
    rw [hf.chains.fileBlocks_eq hj', h.files.chains.fileBlocks_eq hj]
    exact Function.update_of_ne hji _ _

end Truncate

/-- Calls with non-empty names leave every open descriptor a file. -/
theorem run_linked {files : String → Option Image} {d : String} {junk : Junk} {heap : Buf} {s₀ : FS}
    {es : List (Call × Ret)} (h : session files d junk heap = some (r, s₀))
    (hrun : Run (Guarded FS.step fun _ c => c.InSession) s₀ es s) :
    ∃ ch, Sound s ch ∧ Fds s.directory s.fdArray := by
  refine hrun.invariant (I := fun s => ∃ ch, Sound s ch ∧ Fds s.directory s.fdArray)
    ⟨_, session_sound h, (session_fresh h).fds⟩ ?_
  intro s e s' ⟨ch, hs, hf⟩ ⟨hc, hstep⟩
  obtain ⟨ch', hs'⟩ := hs.step hc.isFs hstep
  exact ⟨ch', hs', Fds.step (P := (· = 1)) (by decide) hc.isFs hc.named hs.files hf hstep⟩

/-- In every state of a session an open descriptor has its file, and fs_truncate to a length inside the
    file returns 0 and keeps the file's front exactly when the chain has the blocks of that length. -/
theorem fsTruncate_keeps_iff {files : String → Option Image} {d : String} {junk : Junk} {heap : Buf} {s₀ : FS}
    {es : List (Call × Ret)} (h : session files d junk heap = some (r, s₀))
    (hrun : Run (Guarded FS.step fun _ c => c.InSession) s₀ es s) (hfd : IsFd fd)
    (hu : (s.fdArray fd).used = true) :
    ∃ i, dirIndex s.directory (s.fdArray fd).inodeNumber = some i ∧
      ∀ length, 0 ≤ length → length ≤ (s.directory i).size →
        ((∃ s', fsTruncate s fd length = some (0, s') ∧ KeepsFront s i length s') ↔
          blocksOf length ≤ chainLength s i) := by
  obtain ⟨ch, hs, hf⟩ := run_linked h hrun
  obtain ⟨i, hi, -, hidx⟩ := hs.files.fd_index hf hfd hu
  refine ⟨i, hidx, fun length h0 hle => ?_⟩
  unfold chainLength
  rw [hs.files.chains.fileBlocks_eq hi]
  constructor
  · intro hkeep
    obtain ⟨s', hc, -⟩ := hkeep
    exact (hs.truncate_keeps hidx h0 hle hc).1
  · intro hlen
    obtain ⟨s', hc⟩ := hs.truncate_returns hidx h0 hle hfd hu hlen
    exact ⟨s', hc, (hs.truncate_keeps hidx h0 hle hc).2⟩

/-- A file is cut inside its first block of two. -/
theorem fsTruncate_keeps_iff_two : ∃ r s₀ es s s',
    session (fun _ => none) "disk" zeroJunk (fun _ => 0) = some (r, s₀) ∧
      Run (Guarded FS.step fun _ c => c.InSession) s₀ es s ∧ chainLength s 0 = 2 ∧
      fsTruncate s 0 5 = some (0, s') ∧ KeepsFront s 0 5 s' := by
  obtain ⟨r, s₀, es, s, hs, hrun, hp⟩ := session_exec (fun _ c => c.InSession) (fun _ c => decide c.InSession)
    [.create nameA, .open nameA, .write 0 (List.replicate 4097 7) 4097]
    (fun s => decide ((s.fdArray 0).used = true ∧ dirIndex s.directory (s.fdArray 0).inodeNumber = some 0 ∧
      (s.directory 0).size = 4097 ∧ chainLength s 0 = 2))
    (fun s c _ h => of_decide_eq_true h)
    (show (session (fun _ => none) "disk" zeroJunk (fun _ => 0)).bind _ = some true by decide +kernel)
  obtain ⟨hu, hidx, hsize, hlen⟩ := of_decide_eq_true hp
  obtain ⟨i, hi, hiff⟩ := fsTruncate_keeps_iff hs hrun (by decide) hu
  rw [hidx, Option.some.injEq] at hi
  rw [← hi] at hiff
  obtain ⟨s', hc⟩ := (hiff 5 (by decide) (by rw [hsize]; decide)).mpr (by rw [hlen]; decide)
  exact ⟨r, s₀, es, s, s', hs, hrun, hlen, hc⟩

/-- fs_truncate(0, -4294959104) stores the size 8192 for a file of one block: fs_truncate(0, 8192), to
    that size, then leaves the inode table. -/
theorem truncate_leaves_table :
    ¬ ∀ (files : String → Option Image) (d : String) (junk : Junk) (heap : Buf) (r : Int) (s₀ s : FS)
      (es : List (Call × Ret)) (fd i length : Int), session files d junk heap = some (r, s₀) →
      Run (Guarded FS.step fun _ c => c.InSession) s₀ es s → IsFd fd → (s.fdArray fd).used = true →
      dirIndex s.directory (s.fdArray fd).inodeNumber = some i → 0 ≤ length → length ≤ (s.directory i).size →
      ∃ s', fsTruncate s fd length = some (0, s') ∧ KeepsFront s i length s' := by
  intro hall
  obtain ⟨r, s₀, es, s, hs, hrun, hp⟩ := session_exec (fun _ c => c.InSession) (fun _ c => decide c.InSession)
    [.create nameA, .open nameA, .truncate 0 (-4294959104)]
    (fun s => decide ((s.fdArray 0).used = true ∧ dirIndex s.directory (s.fdArray 0).inodeNumber = some 0 ∧
      (s.directory 0).size = 8192) && (fsTruncate s 0 8192).isNone)
    (fun s c _ h => of_decide_eq_true h)
    (show (session (fun _ => none) "disk" zeroJunk (fun _ => 0)).bind _ = some true by decide +kernel)
  rw [Bool.and_eq_true, Option.isNone_iff_eq_none] at hp
  obtain ⟨hu, hidx, hsize⟩ := of_decide_eq_true hp.1
  obtain ⟨s', hc, -⟩ := hall _ _ _ _ _ _ _ _ 0 0 8192 hs hrun (by decide) hu hidx (by decide) (by omega)
  rw [hp.2] at hc
  cases hc

/-! ## Runs without negative lengths -/

/-- As long as no negative length is stored as a large size, every file has the blocks of every length
    up to its size. -/
theorem session_chainLength {files : String → Option Image} {d : String} {junk : Junk} {heap : Buf} {s₀ : FS}
    {es : List (Call × Ret)} (h : session files d junk heap = some (r, s₀))
    (hrun : Run (Guarded FS.step SessionCall) s₀ es s) (hi : Used s.directory i) (hle : length ≤ (s.directory i).size) :
    blocksOf length ≤ chainLength s i := by
  have hinv : ∃ ch, Sound s ch ∧ Sized s.directory ch := by
    refine hrun.invariant (I := fun s => ∃ ch, Sound s ch ∧ Sized s.directory ch)
      ⟨_, session_sound h, fun i hi => absurd hi ((session_fresh h).noFile i)⟩ ?_
    intro s e s' ⟨ch, hs, hz⟩ ⟨hc, hstep⟩
    obtain ⟨ch', hf, hz', -⟩ := Files.step (P := (· = 1)) (by decide) rfl hc.1.isFs hs.files hstep
    obtain ⟨ch'', hs'⟩ := hs.step hc.1.isFs hstep
    exact ⟨ch', { hs' with files := hf }, hz' hz hc.2⟩
  obtain ⟨ch, hs, hz⟩ := hinv
  unfold chainLength
  rw [hs.files.chains.fileBlocks_eq hi, blocksOf_le (List.length_pos_of_ne_nil (hs.files.chains.chain i hi).ne_nil)]
  exact hle.trans (hz i hi)

theorem session_fsTruncate_keeps {files : String → Option Image} {d : String} {junk : Junk} {heap : Buf} {s₀ : FS}
    {es : List (Call × Ret)} (h : session files d junk heap = some (r, s₀))
    (hrun : Run (Guarded FS.step SessionCall) s₀ es s) (hfd : IsFd fd) (hu : (s.fdArray fd).used = true)
    (hidx : dirIndex s.directory (s.fdArray fd).inodeNumber = some i) (h0 : 0 ≤ length)
    (hle : length ≤ (s.directory i).size) :
    ∃ s', fsTruncate s fd length = some (0, s') ∧ KeepsFront s i length s' := by
  have hlen := session_chainLength h hrun (dirIndex_eq_some hidx).1 hle
  obtain ⟨ch, hs⟩ := run_sound h (hrun.mono fun _ _ _ hg => ⟨hg.1.1.isFs, hg.2⟩)
  unfold chainLength at hlen
  rw [hs.files.chains.fileBlocks_eq (dirIndex_eq_some hidx).1] at hlen
  obtain ⟨s', hc⟩ := hs.truncate_returns hidx h0 hle hfd hu hlen
  exact ⟨s', hc, (hs.truncate_keeps hidx h0 hle hc).2⟩

end EC440.FileSystem
