/-
  What fs_read does to its arguments: the return value, every byte of the caller's buffer and the
  offset, in every state of a session.

  fs_read computes the number of bytes up to the end of the file only after it has copied `nbyte`
  bytes out of its own buffer, which holds the file's blocks. A read that passes the end of the
  file therefore also changes the caller's buffer behind the bytes it reports, and one that passes
  the last block reads behind its own buffer.
-/
import EC440.FileSystem.Sound

namespace EC440.FileSystem

open EC440.Lib

variable {s s' : FS} {ch : Int → List Int} {fd i r : Int} {buf : List UInt8} {nbyte : Nat}

/-! ## fs_read's loop -/

/-- The loop stops at the end of the chain. -/
theorem readFile_of_le : ∀ {l : List Int} {n : Nat} {a : Int} (k : Nat) (buffer : Buf),
    Linked (nextOf s.table) (some a) l → l.length ≤ n →
    readFile s n a k buffer = readFile s l.length a k buffer := by
  intro l
  induction l with
  | nil => exact fun _ _ hl _ => absurd rfl hl.ne_nil
  | cons b l ih =>
      intro n a k buffer hl hn
      simp only [Linked, seg_cons, Option.some.injEq] at hl
      obtain ⟨rfl, hl⟩ := hl
      obtain ⟨n, rfl⟩ : ∃ m, n = m + 1 := ⟨n - 1, by rw [List.length_cons] at hn; omega⟩
      rw [List.length_cons] at hn ⊢
      simp only [readFile]
      split
      · rfl
      split
      · rfl
      · next hnext =>
          rw [nextOf_eq_some.mpr ⟨rfl, hnext⟩] at hl
          exact ih _ _ hl (by omega)

/-- The buffer fs_read fills: the bytes of the file's blocks, and zeros behind them. -/
theorem Files.readFile_eq {P : UInt8 → Prop} (h : Files P s ch) (hr : s.disk.Ready) (hi : Used s.directory i) (n : Nat) :
    ∃ buffer, readFile s n (s.directory i).inodeNumber 0 (fun _ => 0) = some buffer ∧
      ∀ p, p < n * blockSize → buffer p = blockBytes s.disk (ch i) p := by
  have hchain := h.chains.chain i hi
  by_cases hn : n ≤ (ch i).length
  · obtain ⟨buffer, -, hread, hbytes⟩ := h.readAll_eq hr hi hn
    exact ⟨buffer, hread, hbytes⟩
  · obtain ⟨buffer, hall, hread, hbytes⟩ := h.readAll_eq hr hi (Nat.le_refl (ch i).length)
    refine ⟨buffer, (readFile_of_le 0 _ hchain (by omega)).trans hread, fun p _ => ?_⟩
    by_cases hp : p < (ch i).length * blockSize
    · exact hbytes p hp
    · -- behind the chain the buffer is as calloc returned it
      have hin : ∀ b ∈ ch i, InBlocks b := fun b hb => (h.chains.blocks i hi b hb).1.inBlocks
      obtain ⟨buffer', hall', hbuf⟩ := readAll_spec hr (ch i).length 0 (fun _ => 0) hchain hin (Nat.le_refl _)
      rw [Option.getD_some, hall, Option.some.injEq] at hall'
      have hnone : (ch i)[p / blockSize]? = none := by
        rw [List.getElem?_eq_none_iff]
        unfold blockSize at *
        omega
      rw [hall', hbuf p, if_neg (by unfold blockSize at *; omega)]
      unfold blockBytes
      rw [hnone]

/-! ## The call -/

/-- The number of bytes from the descriptor's offset to the end of the file in slot `i`, at most `nbyte`. -/
def readLength (s : FS) (fd i : Int) (nbyte : Nat) : Nat :=
  min nbyte ((s.directory i).size - (s.fdArray fd).offset).toNat

/-- A read on an open file is undefined, or copies `nbyte` bytes of the file's blocks. -/
theorem Sound.read_eq (h : Sound s ch) (hfd : IsFd fd) (hu : (s.fdArray fd).used = true)
    (hidx : dirIndex s.directory (s.fdArray fd).inodeNumber = some i)
    (hoff : (s.fdArray fd).offset ≤ (s.directory i).size) (hpos : 1 ≤ nbyte) (buf : List UInt8) :
    fsRead s fd buf nbyte = match extent (s.directory i).size with
      | none => none
      | some n =>
        if n * blockSize < (s.fdArray fd).offset + nbyte ∨ buf.length < nbyte then none
        else some ((readLength s fd i nbyte : Int),
          (List.range nbyte).map (fun k => blockBytes s.disk (ch i) ((s.fdArray fd).offset.toNat + k)) ++
            buf.drop nbyte,
          moveTo s fd ((s.fdArray fd).offset + readLength s fd i nbyte)) := by
  have hi := (dirIndex_eq_some hidx).1
  have h0 := h.offset fd
  have hint := (h.files.shape.dir.entry i hi.1).size
  unfold IsInt32 at hint
  have hfd' := hfd
  unfold IsFd at hfd'
  unfold fsRead
  rw [if_neg (by omega), if_neg (by omega), if_neg (by rw [hu]; simp; omega)]
  dsimp only
  rw [hidx]
  dsimp only
  cases hn : extent (s.directory i).size with
  | none => rfl
  | some n =>
      dsimp only
      obtain ⟨buffer, hread, hbytes⟩ := h.files.readFile_eq h.ready hi n.toNat
      rw [hread]
      dsimp only
      by_cases hroom : n * blockSize < (s.fdArray fd).offset + nbyte ∨ buf.length < nbyte
      · rw [if_pos hroom, if_pos (.inr hroom)]
      rw [if_neg hroom, if_neg (by omega)]
      obtain ⟨-, hn31⟩ := extent_lt hn
      have hcopy : (List.range nbyte).map (fun k => buffer ((s.fdArray fd).offset.toNat + k)) =
          (List.range nbyte).map fun k => blockBytes s.disk (ch i) ((s.fdArray fd).offset.toNat + k) := by
        refine List.map_congr_left fun k hk => hbytes _ ?_
        have := List.mem_range.mp hk
        unfold blockSize at *
        omega
      rw [hcopy, sizeT_of_lt (x := (s.directory i).size) (by omega) (by omega),
        sizeT_of_lt (x := (s.fdArray fd).offset + nbyte) (by omega) (by omega)]
      -- the two branches count the bytes in their own ways
      split
      · next hlt =>
        have hlen : (readLength s fd i nbyte : Int) = (s.directory i).size - (s.fdArray fd).offset := by
          unfold readLength
          omega
        rw [hlen, show (s.fdArray fd).offset + ((s.directory i).size - (s.fdArray fd).offset) =
          (s.directory i).size by omega]
        rfl
      · next hge =>
        have hlen : readLength s fd i nbyte = nbyte := by
          unfold readLength
          omega
        rw [hlen, toInt32_of_isInt32 (by unfold IsInt32; omega), toInt32_of_isInt32 (by unfold IsInt32; omega)]
        rfl

/-- fs_read returns the number of bytes up to the end of the file, at most `nbyte`, stores these bytes of
    the file, leaves the rest of the caller's buffer as it is and moves the offset behind them. -/
def ReadsExactly (s : FS) (fd i : Int) (nbyte : Nat) : Prop :=
  ∀ buf : List UInt8, nbyte ≤ buf.length →
    ∃ buf', fsRead s fd buf nbyte = some ((readLength s fd i nbyte : Int), buf',
        moveTo s fd ((s.fdArray fd).offset + readLength s fd i nbyte)) ∧
      buf'.take (readLength s fd i nbyte) =
        ((content s (s.directory i)).drop (s.fdArray fd).offset.toNat).take (readLength s fd i nbyte) ∧
      buf'.drop (readLength s fd i nbyte) = buf.drop (readLength s fd i nbyte)

theorem extent_eq_none {size : Int} (h0 : 0 ≤ size) : extent size = none ↔ 2147479552 < size := by
  unfold extent
  dsimp only
  by_cases hz : size = 0
  · subst hz
    simp [blockSize]
  · rw [Int.tdiv_eq_ediv_of_nonneg (by omega)]
    unfold blockSize
    split
    · simp only [true_iff]
      omega
    · simp only [reduceCtorEq, false_iff]
      omega

/-- A read that stays inside the file. -/
theorem Sound.readsExactly (h : Sound s ch) (hfd : IsFd fd) (hu : (s.fdArray fd).used = true)
    (hidx : dirIndex s.directory (s.fdArray fd).inodeNumber = some i) (hpos : 1 ≤ nbyte)
    (hin : (s.fdArray fd).offset + nbyte ≤ (s.directory i).size) (hmax : (s.directory i).size ≤ 2147479552) :
    ReadsExactly s fd i nbyte := by
  intro buf hlen
  have hi := (dirIndex_eq_some hidx).1
  have h0 := h.offset fd
  have hext : ∃ n, extent (s.directory i).size = some n :=
    Option.ne_none_iff_exists'.mp fun hnone => by rw [extent_eq_none (by omega)] at hnone; omega
  obtain ⟨n, hn⟩ := hext
  have hread := h.read_eq hfd hu hidx (by omega) hpos buf
  have hcover := le_blocks (s.directory i).size
  have hnval := (extent_lt hn).1
  have hdiv : 0 ≤ ((s.directory i).size - 1).tdiv blockSize := Int.tdiv_nonneg (by omega) (by decide)
  have hm : readLength s fd i nbyte = nbyte := by
    unfold readLength
    omega
  rw [hn] at hread
  dsimp only at hread
  rw [if_neg (by unfold blockSize at *; omega)] at hread
  refine ⟨_, hread, ?_, ?_⟩
  · rw [hm, List.take_left' (by simp), h.files.content_eq hi, take_drop_map_range (by omega)]
  · rw [hm, List.drop_left' (by simp)]

/-- A read that passes the end of the file or of its own buffer. -/
theorem Sound.not_readsExactly (h : Sound s ch) (hfd : IsFd fd) (hu : (s.fdArray fd).used = true)
    (hidx : dirIndex s.directory (s.fdArray fd).inodeNumber = some i)
    (hoff : (s.fdArray fd).offset ≤ (s.directory i).size) (hpos : 1 ≤ nbyte)
    (hout : (s.directory i).size < (s.fdArray fd).offset + nbyte ∨ 2147479552 < (s.directory i).size) :
    ¬ ReadsExactly s fd i nbyte := by
  intro hall
  have h0 := h.offset fd
  have hread := fun buf => h.read_eq hfd hu hidx hoff hpos buf
  cases hn : extent (s.directory i).size with
  | none =>
      obtain ⟨buf', hrun, -⟩ := hall (List.replicate nbyte 0) (by simp)
      rw [hread, hn] at hrun
      cases hrun
  | some n =>
      have hmax : ¬ 2147479552 < (s.directory i).size := by
        intro hmax
        rw [(extent_eq_none (by omega)).mpr hmax] at hn
        cases hn
      have hlt : readLength s fd i nbyte < nbyte := by
        unfold readLength
        omega
      -- the byte behind the reported ones is the same whatever the caller's buffer holds there
      have hbyte : ∀ v : UInt8, blockBytes s.disk (ch i) ((s.fdArray fd).offset.toNat + readLength s fd i nbyte) = v := by
        intro v
        obtain ⟨buf', hrun, -, hrest⟩ := hall (List.replicate nbyte v) (by simp)
        rw [hread, hn] at hrun
        dsimp only at hrun
        split at hrun
        · cases hrun
        rw [Option.some.injEq, Prod.mk.injEq, Prod.mk.injEq] at hrun
        rw [← hrun.2.1] at hrest
        have hget := congrArg (fun l : List UInt8 => l[0]?) hrest
        rw [List.getElem?_drop, List.getElem?_drop, Nat.add_zero,
          List.getElem?_append_left (by simpa using hlt), List.getElem?_map, List.getElem?_range hlt,
          List.getElem?_replicate, if_pos hlt] at hget
        exact Option.some.inj hget
      exact absurd ((hbyte 0).symm.trans (hbyte 1)) (by decide)

/-- In every state of a session, fs_read on an open file at an offset not behind its end does what it
    should exactly when it stays inside the file, and the file's blocks fit the `int` that counts their bytes. -/
theorem fsRead_exact_iff {files : String → Option Image} {d : String} {junk : Junk} {heap : Buf} {s₀ : FS}
    {es : List (Call × Ret)} (h : session files d junk heap = some (r, s₀))
    (hrun : Run (Guarded FS.step fun _ c => c.IsFs) s₀ es s) (hfd : IsFd fd) (hu : (s.fdArray fd).used = true)
    (hidx : dirIndex s.directory (s.fdArray fd).inodeNumber = some i)
    (hoff : (s.fdArray fd).offset ≤ (s.directory i).size) (hpos : 1 ≤ nbyte) :
    ReadsExactly s fd i nbyte ↔
      (s.fdArray fd).offset + nbyte ≤ (s.directory i).size ∧ (s.directory i).size ≤ 2147479552 := by
  obtain ⟨ch, hs⟩ := run_sound h hrun
  constructor
  · intro hall
    by_contra hout
    exact hs.not_readsExactly hfd hu hidx hoff hpos (by omega) hall
  · intro ⟨hin, hmax⟩
    exact hs.readsExactly hfd hu hidx hpos hin hmax

instance : DecidablePred Call.IsFs
  | .mount _ _ | .umount _ => isFalse id
  | .create _ | .open _ | .close _ | .delete _ | .read _ _ _ | .write _ _ _ | .getFilesize _
  | .listfiles | .lseek _ _ | .truncate _ _ => isTrue trivial

/-- Two bytes are read inside a file of three. -/
theorem fsRead_exact_iff_two : ∃ r s₀ es s,
    session (fun _ => none) "disk" zeroJunk (fun _ => 0) = some (r, s₀) ∧
      Run (Guarded FS.step fun _ c => c.IsFs) s₀ es s ∧ (s.fdArray 0).offset = 1 ∧ ReadsExactly s 0 0 2 := by
  obtain ⟨r, s₀, es, s, hs, hrun, hp⟩ := session_exec (fun _ c => c.IsFs) (fun _ c => decide c.IsFs)
    [.create nameA, .open nameA, .write 0 [1, 2, 3] 3, .lseek 0 1]
    (fun s => decide ((s.fdArray 0).used = true ∧ dirIndex s.directory (s.fdArray 0).inodeNumber = some 0 ∧
      (s.directory 0).size = 3 ∧ (s.fdArray 0).offset = 1))
    (fun s c _ h => of_decide_eq_true h)
    (show (session (fun _ => none) "disk" zeroJunk (fun _ => 0)).bind _ = some true by decide +kernel)
  obtain ⟨hu, hidx, hsize, hoff⟩ := of_decide_eq_true hp
  refine ⟨r, s₀, es, s, hs, hrun, hoff, ?_⟩
  exact (fsRead_exact_iff hs hrun (by decide) hu hidx (by omega) (by decide)).mpr ⟨by omega, by omega⟩

/-- fs_read of five bytes from a file of three returns 3 and clears the last two bytes of the buffer. -/
theorem read_past_end_changes_buffer :
    ¬ ∀ (files : String → Option Image) (d : String) (junk : Junk) (heap : Buf) (r : Int) (s₀ s : FS)
      (es : List (Call × Ret)) (fd i : Int) (nbyte : Nat), session files d junk heap = some (r, s₀) →
      Run (Guarded FS.step fun _ c => c.InSession) s₀ es s → IsFd fd → (s.fdArray fd).used = true →
      dirIndex s.directory (s.fdArray fd).inodeNumber = some i →
      (s.fdArray fd).offset ≤ (s.directory i).size → 1 ≤ nbyte → ReadsExactly s fd i nbyte := by
  intro hall
  obtain ⟨r, s₀, es, s, hs, hrun, hp⟩ := session_exec (fun _ c => c.InSession) (fun _ c => decide c.InSession)
    [.create nameA, .open nameA, .write 0 [1, 2, 3] 3, .lseek 0 0]
    (fun s => decide ((s.fdArray 0).used = true ∧ dirIndex s.directory (s.fdArray 0).inodeNumber = some 0 ∧
      (s.directory 0).size = 3 ∧ (s.fdArray 0).offset = 0 ∧
      (fsRead s 0 [9, 9, 9, 9, 9] 5).map (fun q => q.2.1) = some [1, 2, 3, 0, 0]))
    (fun s c _ h => of_decide_eq_true h)
    (show (session (fun _ => none) "disk" zeroJunk (fun _ => 0)).bind _ = some true by decide +kernel)
  obtain ⟨hu, hidx, hsize, hoff, hbuf⟩ := of_decide_eq_true hp
  have hlen : readLength s 0 0 5 = 3 := by
    unfold readLength
    omega
  obtain ⟨buf', hread, -, hrest⟩ := hall _ _ _ _ _ _ _ _ 0 0 5 hs hrun (by decide) hu hidx (by omega) (by decide)
    [9, 9, 9, 9, 9] (by decide)
  rw [hread, Option.map_some, Option.some.injEq] at hbuf
  dsimp only at hbuf
  rw [hbuf, hlen] at hrest
  exact absurd hrest (by decide)

end EC440.FileSystem
