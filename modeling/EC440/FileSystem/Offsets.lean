/-
  Sizes and offsets in one session, for calls with any arguments that return.

  fs_read, fs_write and fs_lseek keep every offset inside its file. fs_truncate sets the size and
  does not look at the descriptors: an offset behind the new end stays where it is, and so does a
  negative length. `KeepsOffsets` excludes these calls, and then `Live` holds along every run.
-/
import EC440.FileSystem.Refine

namespace EC440.FileSystem

open EC440.Lib

variable {s s' : FS} {ch : Int → List Int} {fd i r : Int} {buf : List UInt8} {nbyte : Nat}

/-- fs_truncate of an open file leaves no descriptor behind the new end. -/
def KeepsOffsets (s : FS) (fildes length : Int) : Prop :=
  (s.fdArray fildes).used = true → ∀ i, dirIndex s.directory (s.fdArray fildes).inodeNumber = some i →
    length ≤ (s.directory i).size → ∀ fd, IsFd fd → (s.fdArray fd).used = true →
      (s.fdArray fd).inodeNumber = (s.fdArray fildes).inodeNumber → (s.fdArray fd).offset ≤ length

/-- The call is not an fs_truncate that leaves a descriptor behind the new end. -/
def Call.KeepsOffsets (s : FS) : Call → Prop
  | .truncate fildes length => EC440.FileSystem.KeepsOffsets s fildes length
  | _ => True

/-! ## fs_truncate -/

/-- fs_truncate on the file in slot `i` of a chain `pre ++ c :: post`. -/
structure Cut (s : FS) (ch : Int → List Int) (i length : Int) (s' : FS) (ch' : Int → List Int) : Prop where
  live : Live s' ch'
  used : Used s.directory i
  nonneg : 0 ≤ length
  le : length ≤ (s.directory i).size
  same : s' = { setSize s i length with table := s'.table }
  chain : ∃ pre c post, ch i = pre ++ c :: post ∧ ch' = Function.update ch i (pre ++ [c]) ∧
    length ≤ blockSize * (pre.length + 1)

theorem Live.truncate (h : Live s ch) {length : Int} (hc : fsTruncate s fd length = some (r, s'))
    (hk : KeepsOffsets s fd length) :
    (r = -1 ∧ s' = s) ∨ ∃ i ch', (s.directory i).inodeNumber = (s.fdArray fd).inodeNumber ∧ r = 0 ∧
      Cut s ch i length s' ch' := by
  obtain ⟨hr, hs⟩ | ⟨i, pre, c, post, hfd, hu, hidx, hle, hch, hpre, hf, hr, hs'⟩ := h.files.truncate_eq hc
  · exact .inl ⟨hr, hs⟩
  obtain ⟨hi, he⟩ := dirIndex_eq_some hidx
  have hoffs := hk hu i hidx hle
  obtain ⟨j, hj, hje, h0, -⟩ := h.bounds.offset fd hfd hu
  have hlen0 : 0 ≤ length := h0.trans (hoffs fd hfd hu rfl)
  obtain ⟨hs0, hs1⟩ := h.bounds.size i hi
  unfold maxFilesize at hs1
  rw [toInt32_of_isInt32 (by unfold IsInt32; omega)] at hs'
  have hroom : length ≤ blockSize * (pre.length + 1 : Nat) := by
    have := le_blocks length
    rw [← hpre] at this
    push_cast
    exact this
  have hdir : s'.directory = Function.update s.directory i { s.directory i with size := length } := by
    rw [hs']
  have hfdA : s'.fdArray = s.fdArray := by rw [hs']
  have hsame : ∀ j, SameFile (s.directory j) (s'.directory j) := by
    rw [hdir]; exact sameFile_update ⟨rfl, rfl, rfl⟩
  have hother : ∀ j, j ≠ i → s'.directory j = s.directory j := fun j hj => by
    rw [hdir]; exact Function.update_of_ne hj _ _
  have hsize : (s'.directory i).size = length := by rw [hdir, Function.update_self]
  refine .inr ⟨i, _, he, hr, ?_, hi, hlen0, hle, by rw [hs']; rfl, pre, c, post, hch, rfl, by exact_mod_cast hroom⟩
  refine
    { files := hf
      fds := ?_
      sized := ?_
      ready := by rw [hs']; exact h.ready
      bounds := ⟨fun j hj => ?_, fun x hx hux => ?_, ?_⟩ }
  · rw [hfdA]
    exact h.fds.congr hsame (by rw [hdir]; exact count_update rfl)
  · rw [hdir]
    apply h.sized.update
    rw [List.length_append, List.length_singleton]
    exact hroom
  · by_cases hji : j = i
    · rw [hji, hsize]
      unfold maxFilesize
      omega
    · rw [hother j hji]
      exact h.bounds.size j ((used_congr hsame).mp hj)
  · rw [hfdA] at hux ⊢
    obtain ⟨j, hj, hje, ho0, ho1⟩ := h.bounds.offset x hx hux
    refine ⟨j, (used_congr hsame).mpr hj, by rw [(hsame j).2.1]; exact hje, ho0, ?_⟩
    by_cases hji : j = i
    · rw [hji, hsize]
      exact hoffs x hx hux (by rw [← hje, hji, he])
    · rw [hother j hji]
      exact ho1
  · rw [hfdA]
    exact h.bounds.idle

/-! ## fs_read -/

/-- fs_read with any arguments: it fails and changes nothing, or returns bytes of the file. -/
theorem Live.read_cases (h : Live s ch) {buf' : List UInt8} (hc : fsRead s fd buf nbyte = some (r, buf', s')) :
    (r = -1 ∧ s' = s ∧ ((IsFd fd → (s.fdArray fd).used = false) ∨ nbyte = 0)) ∨
    ∃ (i : Int) (off m : Nat), IsFd fd ∧ (s.fdArray fd).used = true ∧ 1 ≤ nbyte ∧ Used s.directory i ∧
      (s.directory i).inodeNumber = (s.fdArray fd).inodeNumber ∧ (s.fdArray fd).offset = off ∧
      min nbyte ((s.directory i).size.toNat - off) = m ∧ r = m ∧ s' = moveTo s fd ((off + m : Nat) : Int) ∧
      (off + m : Nat) ≤ (s.directory i).size ∧
      buf'.take m = ((content s (s.directory i)).drop off).take m := by
  obtain hfail | ⟨j, n, hfd, hu, hpos, hidx, hext, hrest⟩ := fsRead_returns hc
  · exact .inl hfail
  obtain ⟨i, hi, he, h0, h1⟩ := h.bounds.offset fd hfd hu
  have hij : i = j := h.files.inj (dirIndex_eq_some hidx).1 i hi (he.trans (dirIndex_eq_some hidx).2.symm)
  subst hij
  obtain ⟨hs0, hs1⟩ := h.bounds.size i hi
  rw [extent_eq hs0 (hs1.trans (by decide)), Option.some.injEq] at hext
  obtain ⟨buffer, -, hread, -⟩ := h.files.readAll_eq h.ready hi
    (blocks_le _ (h.sized i hi) (h.files.chains.chain i hi).ne_nil)
  rw [← hext, Int.toNat_natCast, hread] at hrest
  obtain ⟨hnone, -⟩ | ⟨-, hroom, hlen, -⟩ := hrest
  · cases hnone
  obtain ⟨off, hoff⟩ : ∃ off : Nat, (s.fdArray fd).offset = off := ⟨_, (Int.toNat_of_nonneg h0).symm⟩
  rw [hoff] at h1 hroom
  obtain ⟨buf'', hrun, htake, -, -⟩ := h.read_eq (m := min nbyte ((s.directory i).size.toNat - off)) hfd hu hi he
    hoff h1 hpos hlen (by unfold blockSize at *; omega) rfl
  rw [hc, Option.some.injEq, Prod.mk.injEq, Prod.mk.injEq] at hrun
  obtain ⟨hr, hb, hs⟩ := hrun
  rw [← hb] at htake
  exact .inr ⟨i, off, _, hfd, hu, hpos, hi, he, hoff, rfl, hr, hs, by omega, htake⟩

/-! ## fs_write -/

theorem extent_lt {size n : Int} (h : extent size = some n) :
    n = (size - 1).tdiv blockSize + 1 ∧ n * blockSize < 2147483648 := by
  unfold extent at h
  dsimp only at h
  split at h
  · cases h
  · cases h
    exact ⟨rfl, by omega⟩

theorem blocksOf_le {size : Int} {L : Nat} (hL : 1 ≤ L) : blocksOf size ≤ L ↔ size ≤ blockSize * L := by
  unfold blocksOf blockSize
  omega

/-- The blocks that fs_read and fs_write count by a size, and the blocks of that size. -/
theorem extent_le_iff {size n : Int} (h : extent size = some n) {L : Nat} (hL : 1 ≤ L) :
    n.toNat ≤ L ↔ blocksOf size ≤ L := by
  rw [rounds_eq_blocks, (extent_lt h).1]
  omega

theorem cappedLength_nonneg (offset : Int) (nbyte : Nat) : 0 ≤ cappedLength offset nbyte := by
  unfold cappedLength
  split
  · exact sizeT_nonneg _
  · omega

/-- What fs_write sets out to write ends inside the largest file, if it does not overflow. -/
theorem cappedLength_le {off m nbyte : Nat} (h : cappedLength off nbyte = m) (hoff : (off : Int) ≤ maxFilesize)
    (hm : ((off : Int) + m) < 2147483648) : ((off + m : Nat) : Int) ≤ maxFilesize := by
  unfold cappedLength at h
  unfold maxFilesize at *
  split at h
  · rw [sizeT_of_lt (by omega) (by omega)] at h
    omega
  · next hle =>
    rw [sizeT_of_lt (by omega) (by omega)] at hle
    omega

/-- fs_write with any arguments: it fails on a closed descriptor, finds the disk full, or writes. -/
theorem Live.write_cases (h : Live s ch) (hc : fsWrite s fd buf nbyte = some (r, s')) :
    (r = -1 ∧ s' = s ∧ (IsFd fd → (s.fdArray fd).used = false)) ∨
    ∃ (i : Int) (new : List Int) (s₁ : FS) (ok : Bool), IsFd fd ∧ (s.fdArray fd).used = true ∧ Used s.directory i ∧
      (s.directory i).inodeNumber = (s.fdArray fd).inodeNumber ∧
      growChain (sizeT ((s.fdArray fd).offset + cappedLength (s.fdArray fd).offset nbyte - 1) / blockSize).toNat s
        (s.directory i).inodeNumber = some (ok, s₁) ∧
      Grow s s₁ (s.directory i).inodeNumber (ch i) new ∧ Live s₁ (Function.update ch i (ch i ++ new)) ∧
      (ok = false ∧ r = -1 ∧ s' = s₁ ∨
        ok = true ∧ ∃ off m : Nat, (s.fdArray fd).offset = off ∧ cappedLength (s.fdArray fd).offset nbyte = m ∧
          r = m ∧ Live s' (Function.update ch i (ch i ++ new)) ∧
          s' = { moveTo (setSize s₁ i (max (s.directory i).size ((off + m : Nat) : Int))) fd
            ((off + m : Nat) : Int) with disk := s'.disk } ∧
          (abs s').files = Function.update (abs s).files (cstr (s.directory i).name)
            (some ((content s (s.directory i)).take off ++ buf.take m ++
              (content s (s.directory i)).drop (off + m)))) := by
  obtain hfail | ⟨i, ok, s₁, hfd, hu, hidx, hgrow, hrest⟩ := fsWrite_cases hc
  · exact .inl hfail
  obtain ⟨hi, he⟩ := dirIndex_eq_some hidx
  obtain ⟨new, hg, hnew, hlen, -⟩ := h.files.grown (P := (· = 1)) (by decide) rfl hi hgrow
  obtain ⟨hl₁, hdir, hfdA, hf₁, -⟩ := h.grow hg hnew
  refine .inr ⟨i, new, s₁, ok, hfd, hu, hi, he, hgrow, hg, hl₁, ?_⟩
  obtain ⟨hok, hr, hs⟩ | ⟨hok, hw⟩ := hrest
  · exact .inl ⟨hok, hr, hs⟩
  refine .inr ⟨hok, ?_⟩
  obtain ⟨j, hj, hje, h0, h1⟩ := h.bounds.offset fd hfd hu
  have hij : j = i := h.files.inj hi j hj (hje.trans he.symm)
  subst hij
  obtain ⟨hs0, hs1⟩ := h.bounds.size j hi
  have hroom := (hlen hok).1
  have hsized := hl₁.sized j (by rw [hdir]; exact hi)
  rw [Function.update_self, hdir] at hsized
  generalize hnb : cappedLength (s.fdArray fd).offset nbyte = nb at hw hroom ⊢
  obtain ⟨size, n, hsize, hext, hret⟩ := writeData_returns hw
  rw [hdir, hfdA] at hsize hret
  -- the blocks counted by the new size are on the chain, so they can be read
  have hsz : size ≤ blockSize * (ch j ++ new).length := by
    have h2 := toInt32_le_sizeT ((s.fdArray fd).offset + nb)
    have h3 := sizeT_nonneg ((s.fdArray fd).offset + nb - 1)
    rw [hsize]
    split
    · unfold blockSize at *
      omega
    · exact hsized
  have hL : 1 ≤ (ch j ++ new).length := by omega
  have hnL := (extent_le_iff hext hL).mpr ((blocksOf_le hL).mpr hsz)
  obtain ⟨-, hn31⟩ := extent_lt hext
  have hj₁ : Used s₁.directory j := by rw [hdir]; exact hi
  have hchain := hl₁.files.chains.chain j hj₁
  rw [Function.update_self, hdir] at hchain
  obtain ⟨buffer, hread, -⟩ := readAll_spec (s := setSize s₁ j size) hl₁.ready n.toNat 0 (fun _ => 0) hchain
    (fun b hb => (hl₁.files.chains.blocks j hj₁ b (by rw [Function.update_self]; exact hb)).1.inBlocks) hnL
  rw [Option.getD_some] at hread
  rw [hread] at hret
  obtain ⟨hnone, -⟩ | ⟨-, -, -, -, -, hfit, hbuf, -⟩ := hret
  · cases hnone
  obtain ⟨off, hoff⟩ : ∃ off : Nat, (s.fdArray fd).offset = off := ⟨_, (Int.toNat_of_nonneg h0).symm⟩
  obtain ⟨m, rfl⟩ : ∃ m : Nat, nb = m := by
    refine ⟨nb.toNat, (Int.toNat_of_nonneg ?_).symm⟩
    rw [← hnb]
    exact cappedLength_nonneg _ _
  have hmax : ((off + m : Nat) : Int) ≤ maxFilesize := by
    rw [hoff] at hnb hfit
    exact cappedLength_le hnb (by omega) (by omega)
  have hblocks : off + m ≤ blockSize * (ch j ++ new).length := by
    unfold sizeT at hroom
    unfold blockSize at *
    omega
  obtain ⟨s'', hrun, hl', hs'', hfiles, -⟩ := hl₁.writeData (by rw [hfdA]; exact hu) hj₁
    (by rw [hdir, hfdA]; exact he) hfd buf off m (by rw [hfdA]; exact hoff) (by rw [hdir]; omega) hmax
    (by rw [Function.update_self]; exact hblocks) (by omega)
  rw [hw, Option.some.injEq, Prod.mk.injEq] at hrun
  obtain ⟨hr, rfl⟩ := hrun
  -- the longer chain holds the same file
  have hcontent := hl₁.files.shape.abs_file hj₁
  rw [hf₁, hdir, h.files.shape.abs_file hi, Option.some.injEq] at hcontent
  rw [hf₁, hdir, ← hcontent] at hfiles
  rw [hdir] at hs''
  exact ⟨off, m, hoff, rfl, hr, hl', hs'', hfiles⟩

/-! ## Runs -/

/-- The calls of a session whose fs_truncate calls leave no descriptor behind the new end. -/
def OffsetCall (s : FS) (c : Call) : Prop := c.InSession ∧ c.KeepsOffsets s

/-- One call that returns. -/
theorem Live.step_any (h : Live s ch) {c : Call} {ret : Ret} (hc : OffsetCall s c)
    (hs : s.step c = some (ret, s')) : ∃ ch', Live s' ch' := by
  have allowed : (abs s).Allows c → ∃ ch', Live s' ch' := by
    intro hal
    obtain ⟨ret', s'', ch', hrun, hl, -⟩ := h.step hal
    rw [hs] at hrun
    cases hrun
    exact ⟨ch', hl⟩
  obtain rfl | ⟨_, rfl, hx⟩ | ⟨_, rfl, hx⟩ | ⟨_, rfl, hx⟩ | ⟨_, rfl, hx⟩ | ⟨_, _, _, rfl, hx⟩ |
    ⟨_, _, _, rfl, hx⟩ | ⟨_, _, rfl, hx⟩ | ⟨_, _, rfl, hx⟩ := FS.step_cases hc.1.isFs hs
  · exact ⟨ch, h⟩
  · exact allowed hc.1
  · exact allowed hc.1
  · exact allowed hc.1
  · exact allowed hc.1
  · obtain ⟨-, hs', -⟩ | ⟨i, off, m, hfd, hu, -, hi, he, hoff, -, -, hs', hle, -⟩ := h.read_cases hx
    · exact ⟨ch, by rw [hs']; exact h⟩
    · rw [hs']
      exact ⟨ch, (h.setOffset _ hfd hu hi he (by omega) hle).1⟩
  · obtain ⟨-, hs', -⟩ | ⟨i, new, s₁, ok, -, -, -, -, -, -, hl₁, hrest⟩ := h.write_cases hx
    · exact ⟨ch, by rw [hs']; exact h⟩
    obtain ⟨-, -, hs'⟩ | ⟨-, off, m, -, -, -, hl, -⟩ := hrest
    · exact ⟨_, by rw [hs']; exact hl₁⟩
    · exact ⟨_, hl⟩
  · exact allowed hc.1
  · obtain ⟨-, hs'⟩ | ⟨i, ch', -, -, hcut⟩ := h.truncate hx hc.2
    · exact ⟨ch, by rw [hs']; exact h⟩
    · exact ⟨ch', hcut.live⟩

/-- Sizes are between 0 and MAX_FILESIZE, offsets between 0 and the size of the file. -/
structure InBounds (s : FS) : Prop where
  size : ∀ i, Used s.directory i → 0 ≤ (s.directory i).size ∧ (s.directory i).size ≤ maxFilesize
  offset : ∀ fd, IsFd fd → (s.fdArray fd).used = true →
    ∃ i, dirIndex s.directory (s.fdArray fd).inodeNumber = some i ∧ 0 ≤ (s.fdArray fd).offset ∧
      (s.fdArray fd).offset ≤ (s.directory i).size

/-- In every run of a session whose fs_truncate calls leave no descriptor behind the new end, all
    sizes and offsets are in bounds. -/
theorem session_inBounds {files : String → Option Image} {d : String} {junk : Junk} {heap : Buf} {s₀ : FS}
    {es : List (Call × Ret)} (h : session files d junk heap = some (r, s₀))
    (hrun : Run (Guarded FS.step OffsetCall) s₀ es s) : InBounds s := by
  have hlive : ∃ ch, Live s ch := by
    refine hrun.invariant (I := fun s => ∃ ch, Live s ch) ⟨_, session_live h⟩ ?_
    intro s e s' ⟨ch, hl⟩ ⟨hc, hstep⟩
    exact hl.step_any hc hstep
  obtain ⟨ch, hl⟩ := hlive
  refine ⟨hl.bounds.size, fun fd hfd hu => ?_⟩
  obtain ⟨i, hi, he, h0, h1⟩ := hl.bounds.offset fd hfd hu
  exact ⟨i, by rw [← he]; exact hl.files.chains.dirIndex_eq hi, h0, h1⟩

/-- The test of `OffsetCall` for runs on given calls. -/
def offsetTest (s : FS) (c : Call) : Bool :=
  decide c.InSession && match c with
    | .truncate fildes length => (List.range maxFileDescriptor.toNat).all fun fd : Nat =>
        !(s.fdArray fd).used || (s.fdArray fd).inodeNumber != (s.fdArray fildes).inodeNumber ||
          (s.fdArray fd).offset ≤ length
    | _ => true

theorem offsetTest_spec {c : Call} (h : offsetTest s c = true) : OffsetCall s c := by
  obtain ⟨hin, ht⟩ := Bool.and_eq_true_iff.mp h
  refine ⟨of_decide_eq_true hin, ?_⟩
  cases c with
  | truncate fildes length =>
      intro _ i _ _ fd hfd hu he
      unfold IsFd maxFileDescriptor at hfd
      have hone := List.all_eq_true.mp ht fd.toNat (List.mem_range.mpr (by unfold maxFileDescriptor; omega))
      rw [Int.toNat_of_nonneg hfd.1, hu, he] at hone
      simpa using hone
  | _ => trivial

/-- A file open on two descriptors is cut where none of them stands behind the new end. -/
theorem session_inBounds_truncate : ∃ r s₀ es s,
    session (fun _ => none) "disk" zeroJunk (fun _ => 0) = some (r, s₀) ∧
      Run (Guarded FS.step OffsetCall) s₀ es s ∧ InBounds s ∧ (s.directory 0).size = 2 := by
  obtain ⟨r, s₀, es, s, hs, hrun, hp⟩ := session_exec OffsetCall offsetTest
    [.create nameA, .open nameA, .open nameA, .write 0 [1, 2, 3] 3, .lseek 0 1, .truncate 1 2]
    (fun s => (s.directory 0).size == 2) (fun s c _ h => offsetTest_spec h)
    (show (session (fun _ => none) "disk" zeroJunk (fun _ => 0)).bind _ = some true by decide +kernel)
  exact ⟨r, s₀, es, s, hs, hrun, session_inBounds hs hrun, by simpa using hp⟩

/-- fs_truncate(0, 0) behind an fs_write of three bytes leaves the offset at 3 in a file of size 0. -/
theorem truncate_leaves_offset :
    ¬ ∀ (files : String → Option Image) (d : String) (junk : Junk) (heap : Buf) (r : Int) (s₀ s : FS)
      (es : List (Call × Ret)), session files d junk heap = some (r, s₀) →
      Run (Guarded FS.step fun _ c => c.InSession) s₀ es s → InBounds s := by
  intro hall
  obtain ⟨r, s₀, es, s, hs, hrun, hp⟩ := session_exec (fun _ c => c.InSession) (fun _ c => decide c.InSession)
    [.create nameA, .open nameA, .write 0 [1, 2, 3] 3, .truncate 0 0]
    (fun s => decide ((s.fdArray 0).used = true ∧ (s.fdArray 0).offset = 3 ∧
      (dirIndex s.directory (s.fdArray 0).inodeNumber).map (fun i => (s.directory i).size) = some 0))
    (fun s c _ h => of_decide_eq_true h)
    (show (session (fun _ => none) "disk" zeroJunk (fun _ => 0)).bind _ = some true by decide +kernel)
  obtain ⟨hu, hoff, hsize⟩ := of_decide_eq_true hp
  obtain ⟨i, hi, -, hle⟩ := (hall _ _ _ _ _ _ _ _ hs hrun).offset 0 (by decide) hu
  rw [hi, Option.map_some, Option.some.injEq] at hsize
  omega

end EC440.FileSystem
