/-
  What one call of fs.c can do, one lemma for each function: either nothing changes, or the
  record fields that change and to what. Every invariant is proved from these.
-/
import EC440.FileSystem.Blocks

namespace EC440.FileSystem

open EC440.Lib

/-- `0 <= i && i < MAX_NUM_OF_FILES` -/
def IsSlot (i : Int) : Prop := 0 ≤ i ∧ i < maxNumOfFiles

/-- `0 <= fildes && fildes < MAX_FILE_DESCRIPTOR` -/
def IsFd (fildes : Int) : Prop := 0 ≤ fildes ∧ fildes < maxFileDescriptor

instance (i : Int) : Decidable (IsSlot i) := inferInstanceAs (Decidable (_ ∧ _))

instance (i : Int) : Decidable (IsFd i) := inferInstanceAs (Decidable (_ ∧ _))

/-- Slot `i` of the directory holds a file. -/
def Used (dir : Int → DirectoryEntry) (i : Int) : Prop := IsSlot i ∧ (dir i).used = true

instance (dir : Int → DirectoryEntry) (i : Int) : Decidable (Used dir i) :=
  inferInstanceAs (Decidable (_ ∧ _))

theorem dirIndex_eq_some {dir : Int → DirectoryEntry} {inode i : Int} (h : dirIndex dir inode = some i) :
    Used dir i ∧ (dir i).inodeNumber = inode := by
  unfold dirIndex at h
  rw [firstIn_eq_some] at h
  obtain ⟨h1, h2, h3, _⟩ := h
  simp only [Bool.and_eq_true, beq_iff_eq] at h3
  exact ⟨⟨⟨h1, h2⟩, h3.1⟩, h3.2⟩

/-- A search over the directory that looks at the entries in use only. -/
theorem firstIn_used_eq_none {dir : Int → DirectoryEntry} {p : Int → Bool} :
    firstIn (fun i => (dir i).used && p i) 0 maxNumOfFiles = none ↔ ∀ i, Used dir i → p i = false := by
  rw [firstIn_eq_none]
  constructor
  · rintro h i ⟨hi, hu⟩
    have hi := h i hi.1 hi.2
    rwa [hu, Bool.true_and] at hi
  · intro h i h1 h2
    cases hu : (dir i).used with
    | false => rfl
    | true => exact h i ⟨⟨h1, h2⟩, hu⟩

theorem dirIndex_eq_none {dir : Int → DirectoryEntry} {inode : Int} :
    dirIndex dir inode = none ↔ ∀ i, Used dir i → (dir i).inodeNumber ≠ inode := by
  unfold dirIndex
  rw [firstIn_used_eq_none]
  simp only [beq_eq_false_iff_ne]

/-- The directory search finds the one entry with that inode number. -/
theorem dirIndex_unique {dir : Int → DirectoryEntry} {inode i : Int} (hi : Used dir i)
    (he : (dir i).inodeNumber = inode)
    (hu : ∀ j, Used dir j → (dir j).inodeNumber = inode → j = i) : dirIndex dir inode = some i := by
  refine firstIn_unique hi.1.1 hi.1.2 (by simp [hi.2, he]) fun k h1 h2 hk => ?_
  simp only [Bool.and_eq_true, beq_iff_eq] at hk
  exact hu k ⟨⟨h1, h2⟩, hk.1⟩ hk.2

theorem nameIndex_eq_some {dir : Int → DirectoryEntry} {name : List UInt8} {i : Int}
    (h : firstIn (fun i => name == cstr (dir i).name) 0 maxNumOfFiles = some i) :
    IsSlot i ∧ name = cstr (dir i).name := by
  rw [firstIn_eq_some] at h
  exact ⟨⟨h.1, h.2.1⟩, by simpa using h.2.2.1⟩

theorem nameIndex_eq_none {dir : Int → DirectoryEntry} {name : List UInt8} :
    firstIn (fun i => name == cstr (dir i).name) 0 maxNumOfFiles = none ↔
      ∀ i, IsSlot i → name ≠ cstr (dir i).name := by
  rw [firstIn_eq_none]
  constructor
  · intro h i hi; simpa using h i hi.1 hi.2
  · intro h i h1 h2; simpa using h i ⟨h1, h2⟩

theorem fsOpen_cases {s s' : FS} {name : CString} {r : Int} (h : fsOpen s name = some (r, s')) :
    (r = -1 ∧ s' = s ∧ ((∀ fd, IsFd fd → (s.fdArray fd).used = true) ∨
      ∀ i, IsSlot i → name.chars ≠ cstr (s.directory i).name)) ∨
    ∃ fildes i, IsFd fildes ∧ (s.fdArray fildes).used = false ∧
      (∀ k, 0 ≤ k → k < fildes → (s.fdArray k).used = true) ∧ IsSlot i ∧
      name.chars = cstr (s.directory i).name ∧ (s.directory i).count + 1 ≠ 2147483648 ∧ r = fildes ∧
      s' = { s with
        fdArray := Function.update s.fdArray fildes
          { used := true, inodeNumber := (s.directory i).inodeNumber, offset := 0 }
        directory := Function.update s.directory i
          { s.directory i with count := (s.directory i).count + 1 } } := by
  unfold fsOpen at h
  split at h
  · next hf =>
      cases h
      refine .inl ⟨rfl, rfl, .inl fun fd hfd => ?_⟩
      simpa using firstIn_eq_none.mp hf fd hfd.1 hfd.2
  · next fildes hf =>
      obtain ⟨f1, f2, f3, f4⟩ := firstIn_eq_some.mp hf
      split at h
      · next hn =>
          cases h
          exact .inl ⟨rfl, rfl, .inr (nameIndex_eq_none.mp hn)⟩
      · next i hi =>
          obtain ⟨hs, hname⟩ := nameIndex_eq_some hi
          dsimp only at h
          split at h
          · cases h
          · next hc =>
              cases h
              exact .inr ⟨r, i, ⟨f1, f2⟩, by simpa using f3, fun k h1 h2 => by simpa using f4 k h1 h2, hs,
                hname, hc, rfl, rfl⟩

/-- No entry is in use, so that a descriptor's file is not looked for. -/
theorem outsideFds_eq {s : FS} (h : ∀ i, ¬ Used s.directory i) : outsideFds s = some (-1, s) := by
  have hnone : firstIn (fun i => (s.directory i).used) 0 maxNumOfFiles = none :=
    firstIn_eq_none.mpr fun i h0 h1 => Bool.eq_false_iff.mpr fun hu => h i ⟨⟨h0, h1⟩, hu⟩
  unfold outsideFds
  rw [hnone]
  rfl

theorem outsideFds_cases {s s' : FS} {r : Int} (h : outsideFds s = some (r, s')) :
    r = -1 ∧ s' = s ∧ ∀ i, ¬ Used s.directory i := by
  unfold outsideFds at h
  split at h
  · cases h
  next hnone =>
  cases h
  rw [Bool.not_eq_true, Option.isSome_eq_false_iff, Option.isNone_iff_eq_none] at hnone
  refine ⟨rfl, rfl, fun i hi => ?_⟩
  exact absurd (hi.2.symm.trans (firstIn_eq_none.mp hnone i hi.1.1 hi.1.2)) (by decide)

theorem fsClose_cases {s s' : FS} {fildes r : Int} (h : fsClose s fildes = some (r, s')) :
    (r = -1 ∧ s' = s ∧ (dirIndex s.directory (s.fdArray fildes).inodeNumber = none ∨
        (s.fdArray fildes).used = false)) ∨
      ∃ index, IsFd fildes ∧ (s.fdArray fildes).used = true ∧
        dirIndex s.directory (s.fdArray fildes).inodeNumber = some index ∧
        (s.directory index).count ≠ -2147483648 ∧ r = 0 ∧
        s' = { s with
          fdArray := Function.update s.fdArray fildes { used := false, inodeNumber := -1, offset := 0 }
          directory := Function.update s.directory index
            { s.directory index with count := (s.directory index).count - 1 } } := by
  unfold fsClose at h
  split at h
  · obtain ⟨rfl, rfl, hno⟩ := outsideFds_cases h
    exact .inl ⟨rfl, rfl, .inl (dirIndex_eq_none.mpr fun i hi => absurd hi (hno i))⟩
  next hfd =>
  split at h
  · next hn => cases h; exact .inl ⟨rfl, rfl, .inl hn⟩
  next index hi =>
  split at h
  · next hu => cases h; exact .inl ⟨rfl, rfl, .inr (by simpa using hu)⟩
  next hu =>
  dsimp only at h
  split at h
  · cases h
  next hc =>
  cases h
  exact .inr ⟨index, ⟨by omega, by omega⟩, by simpa using hu, hi, hc, rfl, rfl⟩

theorem fsCreate_cases {s s' : FS} {name : CString} {r : Int} (h : fsCreate s name = some (r, s')) :
    (r = -1 ∧ s' = s ∧ (maxFilenameLength < name.chars.length ∨
      (∃ i, Used s.directory i ∧ name.chars = cstr (s.directory i).name) ∨
      (usedEntries s.directory : Int) = maxNumOfFiles ∨ freeBlock s = none)) ∨
    ∃ inode i, name.chars.length ≤ maxFilenameLength ∧
      (∀ i, Used s.directory i → name.chars ≠ cstr (s.directory i).name) ∧
      freeBlock s = some inode ∧ IsSlot i ∧ (s.directory i).used = false ∧ r = 0 ∧
      s' = { s with
        usedBlockBitmap := Function.update s.usedBlockBitmap inode 1
        table := Function.update s.table inode { type := 1, nextDirectOffset := -1 }
        directory := Function.update s.directory i
          { used := true, inodeNumber := inode, name := strcpy (s.directory i).name name,
            size := 0, count := 0 } } := by
  unfold fsCreate at h
  split at h
  · next hl => cases h; exact .inl ⟨rfl, rfl, .inl hl⟩
  next hl =>
  split at h
  · next hf =>
      cases h
      obtain ⟨i, hi⟩ := Option.isSome_iff_exists.mp hf
      obtain ⟨h1, h2, h3, _⟩ := firstIn_eq_some.mp hi
      simp only [Bool.and_eq_true, beq_iff_eq] at h3
      exact .inl ⟨rfl, rfl, .inr (.inl ⟨i, ⟨⟨h1, h2⟩, h3.1⟩, h3.2⟩)⟩
  next hf =>
  have hnew : ∀ i, Used s.directory i → name.chars ≠ cstr (s.directory i).name := by
    have hf' := Option.not_isSome_iff_eq_none.mp hf
    rw [firstIn_eq_none] at hf'
    intro i hi he
    have := hf' i hi.1.1 hi.1.2
    simp [hi.2, he] at this
  split at h
  · next hc => cases h; exact .inl ⟨rfl, rfl, .inr (.inr (.inl hc))⟩
  split at h
  · cases h
  split at h
  · next hb => cases h; exact .inl ⟨rfl, rfl, .inr (.inr (.inr hb))⟩
  next inode hb =>
  split at h
  · cases h
  next i hi =>
  cases h
  obtain ⟨h1, h2, h3, _⟩ := firstIn_eq_some.mp hi
  exact .inr ⟨inode, i, by omega, hnew, hb, ⟨h1, h2⟩, by simpa using h3, rfl, rfl⟩

theorem fsDelete_cases {s s' : FS} {name : CString} {r : Int} (h : fsDelete s name = some (r, s')) :
    (r = -1 ∧ s' = s ∧ ((∀ i, IsSlot i → name.chars ≠ cstr (s.directory i).name) ∨
      ∃ i, IsSlot i ∧ name.chars = cstr (s.directory i).name ∧ 0 < (s.directory i).count)) ∨
    ∃ index s₁, IsSlot index ∧ name.chars = cstr (s.directory index).name ∧
      (s.directory index).count ≤ 0 ∧
      freeChain (diskBlocks.toNat + 1) s (s.directory index).inodeNumber = some s₁ ∧ r = 0 ∧
      s' = { s₁ with
        directory := Function.update s₁.directory index
          { used := false, inodeNumber := -1, name := clearName (s₁.directory index).name,
            size := 0, count := 0 } } := by
  unfold fsDelete at h
  split at h
  · next hn => cases h; exact .inl ⟨rfl, rfl, .inl (nameIndex_eq_none.mp hn)⟩
  next index hi =>
  obtain ⟨hs, hname⟩ := nameIndex_eq_some hi
  split at h
  · next hc => cases h; exact .inl ⟨rfl, rfl, .inr ⟨index, hs, hname, hc⟩⟩
  next hc =>
  split at h
  · cases h
  next s₁ hf =>
  cases h
  exact .inr ⟨index, s₁, hs, hname, by omega, hf, rfl, rfl⟩

/-- The descriptor test at the head of fs_read, fs_write, fs_lseek and fs_truncate. -/
theorem fd_of_checks {fildes : Int} (h1 : ¬ (fildes < 0 ∨ maxFileDescriptor < fildes))
    (h2 : ¬ maxFileDescriptor ≤ fildes) : IsFd fildes :=
  ⟨by omega, by omega⟩

/-- fs_read: what it checks, and the offset it leaves. -/
theorem fsRead_returns {s s' : FS} {fildes r : Int} {buf buf' : List UInt8} {nbyte : Nat}
    (h : fsRead s fildes buf nbyte = some (r, buf', s')) :
    (r = -1 ∧ s' = s ∧ ((IsFd fildes → (s.fdArray fildes).used = false) ∨ nbyte = 0)) ∨
    ∃ i n, IsFd fildes ∧ (s.fdArray fildes).used = true ∧ 1 ≤ nbyte ∧
      dirIndex s.directory (s.fdArray fildes).inodeNumber = some i ∧ extent (s.directory i).size = some n ∧
      ((readFile s n.toNat (s.directory i).inodeNumber 0 (fun _ => 0) = none ∧ r = -1 ∧ s' = s) ∨
        (0 ≤ (s.fdArray fildes).offset ∧ (s.fdArray fildes).offset + nbyte ≤ n * blockSize ∧ nbyte ≤ buf.length ∧
          ∃ off, (r, off) = (if sizeT (s.directory i).size < sizeT ((s.fdArray fildes).offset + nbyte) then
              ((s.directory i).size - (s.fdArray fildes).offset, (s.directory i).size)
            else (toInt32 nbyte, toInt32 ((s.fdArray fildes).offset + nbyte))) ∧
            s' = { s with fdArray := Function.update s.fdArray fildes { s.fdArray fildes with offset := off } })) := by
  unfold fsRead at h
  split at h
  · next h1 => cases h; exact .inl ⟨rfl, rfl, .inl fun hfd => by unfold IsFd at hfd; omega⟩
  next h1 =>
  split at h
  · cases h
  next h2 =>
  split at h
  · next hu =>
    cases h
    refine .inl ⟨rfl, rfl, ?_⟩
    obtain hu | hu := hu
    · exact .inl fun _ => by simpa using hu
    · exact .inr hu
  next hu =>
  rw [not_or] at hu
  dsimp only at h
  split at h
  · cases h
  next i hi =>
  split at h
  · cases h
  next n hn =>
  refine .inr ⟨i, n, fd_of_checks h1 h2, by simpa using hu.1, by omega, hi, hn, ?_⟩
  split at h
  · next hr => cases h; exact .inl ⟨hr, rfl, rfl⟩
  split at h
  · cases h
  next hb =>
  refine .inr ⟨by omega, by omega, by omega, ?_⟩
  split at h
  · next hlt =>
    rw [Option.some.injEq, Prod.mk.injEq, Prod.mk.injEq] at h
    exact ⟨_, by rw [if_pos hlt, h.1], h.2.2.symm⟩
  · next hge =>
    rw [Option.some.injEq, Prod.mk.injEq, Prod.mk.injEq] at h
    exact ⟨_, by rw [if_neg hge, h.1], h.2.2.symm⟩

/-- fs_read changes at most the descriptor's offset. -/
theorem fsRead_cases {s s' : FS} {fildes r : Int} {buf buf' : List UInt8} {nbyte : Nat}
    (h : fsRead s fildes buf nbyte = some (r, buf', s')) :
    s' = s ∨ ∃ off, IsFd fildes ∧ (s.fdArray fildes).used = true ∧
      s' = { s with fdArray := Function.update s.fdArray fildes { s.fdArray fildes with offset := off } } := by
  obtain ⟨-, hs, -⟩ | ⟨i, n, hfd, hu, -, -, -, ⟨-, -, hs⟩ | ⟨-, -, -, off, -, hs⟩⟩ := fsRead_returns h
  · exact .inl hs
  · exact .inl hs
  · exact .inr ⟨off, hfd, hu, hs⟩

theorem fsLseek_cases {s s' : FS} {fildes offset r : Int} (h : fsLseek s fildes offset = some (r, s')) :
    (r = -1 ∧ s' = s ∧ ((IsFd fildes → (s.fdArray fildes).used = false) ∨
      dirIndex s.directory (s.fdArray fildes).inodeNumber = none ∨
      ∃ i, dirIndex s.directory (s.fdArray fildes).inodeNumber = some i ∧
        (offset < 0 ∨ (s.directory i).size < offset))) ∨
    ∃ i, IsFd fildes ∧ (s.fdArray fildes).used = true ∧
      dirIndex s.directory (s.fdArray fildes).inodeNumber = some i ∧
      0 ≤ offset ∧ offset ≤ (s.directory i).size ∧ r = 0 ∧
      s' = { s with
        fdArray := Function.update s.fdArray fildes
          { s.fdArray fildes with offset := toInt32 offset } } := by
  unfold fsLseek at h
  split at h
  · next h1 => cases h; exact .inl ⟨rfl, rfl, .inl fun hfd => by unfold IsFd at hfd; omega⟩
  next h1 =>
  split at h
  · cases h
  next h2 =>
  have hfd := fd_of_checks h1 h2
  split at h
  · next hu => cases h; exact .inl ⟨rfl, rfl, .inl fun _ => by simpa using hu⟩
  next hu =>
  split at h
  · next hn => cases h; exact .inl ⟨rfl, rfl, .inr (.inl hn)⟩
  next i hi =>
  split at h
  · next ho => cases h; exact .inl ⟨rfl, rfl, .inr (.inr ⟨i, hi, ho⟩)⟩
  next ho =>
  cases h
  exact .inr ⟨i, hfd, by simpa using hu, hi, by omega, by omega, rfl, rfl⟩

theorem fsGetFilesize_cases {s s' : FS} {fildes r : Int} (h : fsGetFilesize s fildes = some (r, s')) :
    s' = s := by
  unfold fsGetFilesize at h
  split at h
  · exact (outsideFds_cases h).2.1
  split at h
  · cases h; rfl
  · cases h; rfl

theorem fsTruncate_cases {s s' : FS} {fildes length r : Int}
    (h : fsTruncate s fildes length = some (r, s')) :
    (r = -1 ∧ s' = s ∧ ((IsFd fildes → (s.fdArray fildes).used = false) ∨
      ∃ i, dirIndex s.directory (s.fdArray fildes).inodeNumber = some i ∧
        (s.directory i).size < length)) ∨
    ∃ i c table, IsFd fildes ∧ (s.fdArray fildes).used = true ∧
      dirIndex s.directory (s.fdArray fildes).inodeNumber = some i ∧
      length ≤ (s.directory i).size ∧
      skipChain s.table ((length - 1).tdiv blockSize).toNat (s.directory i).inodeNumber = some c ∧
      cutChain (diskBlocks.toNat + 1) s.table c = some table ∧ InBlocks c ∧ r = 0 ∧
      s' = { s with
        directory := Function.update s.directory i { s.directory i with size := toInt32 length }
        table := setNext table c (-1) } := by
  unfold fsTruncate at h
  split at h
  · next h1 => cases h; exact .inl ⟨rfl, rfl, .inl fun hfd => by unfold IsFd at hfd; omega⟩
  next h1 =>
  split at h
  · cases h
  next h2 =>
  have hfd := fd_of_checks h1 h2
  split at h
  · next hu => cases h; exact .inl ⟨rfl, rfl, .inl fun _ => by simpa using hu⟩
  next hu =>
  split at h
  · cases h
  next i hi =>
  dsimp only at h
  split at h
  · next hl => cases h; exact .inl ⟨rfl, rfl, .inr ⟨i, hi, hl⟩⟩
  next hl =>
  split at h
  · cases h
  split at h
  · cases h
  next c hc =>
  split at h
  · cases h
  next table ht =>
  split at h
  · cases h
  next hb =>
  cases h
  exact .inr ⟨i, c, table, hfd, by simpa using hu, hi, by omega, hc, ht, not_not.mp hb, rfl, rfl⟩

/-! ## fs_write -/

theorem writeAll_frame : ∀ (n : Nat) (s : FS) (inode : Int) (i : Nat) (buffer : Buf),
    (writeAll n s inode i buffer).2 = { s with disk := (writeAll n s inode i buffer).2.disk }
  | 0, _, _, _, _ => rfl
  | n + 1, s, inode, i, buffer => by
      unfold writeAll
      split
      · rfl
      · next d hd =>
          have ih := writeAll_frame n { s with disk := d } (s.table inode).nextDirectOffset (i + 1) buffer
          rw [ih]

theorem writeAll_kept : ∀ (n : Nat) (s : FS) (inode : Int) (i : Nat) (buffer : Buf),
    Disk.Kept s.disk (writeAll n s inode i buffer).2.disk
  | 0, s, _, _, _ => Disk.Kept.refl s.disk
  | n + 1, s, inode, i, buffer => by
      unfold writeAll
      split
      · exact Disk.Kept.refl s.disk
      · next d hd =>
          exact (blockWrite_kept hd).trans
            (writeAll_kept n { s with disk := d } (s.table inode).nextDirectOffset (i + 1) buffer)

/-- The file in slot `i` with its size set. -/
def setSize (s : FS) (i size : Int) : FS :=
  { s with directory := Function.update s.directory i { s.directory i with size := size } }

/-- fs_write behind its allocation loop: what it checks, and the state it leaves. -/
theorem writeData_returns {s s' : FS} {fildes index r nbyte : Int} {buf : List UInt8}
    (h : writeData s fildes index buf nbyte = some (r, s')) :
    ∃ size n, size = (if sizeT (s.directory index).size < sizeT ((s.fdArray fildes).offset + nbyte) then
        toInt32 ((s.fdArray fildes).offset + nbyte) else (s.directory index).size) ∧ extent size = some n ∧
      ((readAll (setSize s index size) n.toNat (s.directory index).inodeNumber 0 (fun _ => 0) = none ∧
          r = -1 ∧ s' = setSize s index size) ∨
        ∃ buffer ok s₁, readAll (setSize s index size) n.toNat (s.directory index).inodeNumber 0 (fun _ => 0) =
            some buffer ∧ 0 ≤ (s.fdArray fildes).offset ∧ (s.fdArray fildes).offset + nbyte ≤ n * blockSize ∧
          nbyte ≤ buf.length ∧
          writeAll n.toNat (setSize s index size) (s.directory index).inodeNumber 0
            (memcpy buffer (s.fdArray fildes).offset.toNat (fun k => buf.getD k 0) nbyte.toNat) = (ok, s₁) ∧
          (ok = false ∧ r = -1 ∧ s' = s₁ ∨ ok = true ∧ r = toInt32 nbyte ∧ s' = { s₁ with
            fdArray := Function.update s₁.fdArray fildes
              { s.fdArray fildes with offset := toInt32 ((s.fdArray fildes).offset + nbyte) } })) := by
  unfold writeData at h
  dsimp only at h
  split at h
  · cases h
  next n hn =>
  refine ⟨_, n, rfl, hn, ?_⟩
  split at h
  · next hr => cases h; exact .inl ⟨hr, rfl, rfl⟩
  next buffer hr =>
  split at h
  · cases h
  next hb =>
  split at h
  · next s₁ hw => cases h; exact .inr ⟨buffer, _, _, hr, by omega, by omega, by omega, hw, .inl ⟨rfl, rfl, rfl⟩⟩
  · next s₁ hw => cases h; exact .inr ⟨buffer, _, _, hr, by omega, by omega, by omega, hw, .inr ⟨rfl, rfl, rfl⟩⟩

/-- Behind its allocation loop fs_write changes the entry's size, the disk and the offset. -/
theorem writeData_cases {s s' : FS} {fildes index r nbyte : Int} {buf : List UInt8}
    (h : writeData s fildes index buf nbyte = some (r, s')) :
    ∃ size d fds, s' = { s with
        directory := Function.update s.directory index { s.directory index with size := size }
        disk := d, fdArray := fds } ∧ Disk.Kept s.disk d ∧
      (fds = s.fdArray ∨ ∃ off, fds =
        Function.update s.fdArray fildes { s.fdArray fildes with offset := off }) ∧
      (size = (s.directory index).size ∨ size = toInt32 ((s.fdArray fildes).offset + nbyte) ∧
        sizeT (s.directory index).size < sizeT ((s.fdArray fildes).offset + nbyte)) := by
  obtain ⟨size, n, hsize, -, hrest⟩ := writeData_returns h
  have hwhich : size = (s.directory index).size ∨ size = toInt32 ((s.fdArray fildes).offset + nbyte) ∧
      sizeT (s.directory index).size < sizeT ((s.fdArray fildes).offset + nbyte) := by
    split at hsize
    · next hlt => exact .inr ⟨hsize, hlt⟩
    · exact .inl hsize
  obtain ⟨-, -, hs⟩ | ⟨buffer, ok, s₁, -, -, -, -, hw, hs⟩ := hrest
  · exact ⟨size, s.disk, s.fdArray, hs, .refl _, .inl rfl, hwhich⟩
  have hfr := writeAll_frame n.toNat (setSize s index size) (s.directory index).inodeNumber 0
    (memcpy buffer (s.fdArray fildes).offset.toNat (fun k => buf.getD k 0) nbyte.toNat)
  have hkept := writeAll_kept n.toNat (setSize s index size) (s.directory index).inodeNumber 0
    (memcpy buffer (s.fdArray fildes).offset.toNat (fun k => buf.getD k 0) nbyte.toNat)
  rw [hw] at hfr hkept
  dsimp only at hfr hkept
  obtain ⟨-, -, hs⟩ | ⟨-, -, hs⟩ := hs
  · exact ⟨size, s₁.disk, s.fdArray, hs.trans hfr, hkept, .inl rfl, hwhich⟩
  · refine ⟨size, s₁.disk, Function.update s.fdArray fildes { s.fdArray fildes with
      offset := toInt32 ((s.fdArray fildes).offset + nbyte) }, ?_, hkept, .inr ⟨_, rfl⟩, hwhich⟩
    rw [hs, hfr]
    rfl

/-- The number of bytes fs_write sets out to write. -/
def cappedLength (offset : Int) (nbyte : Nat) : Int :=
  if maxFilesize < sizeT (offset + nbyte) then sizeT (maxFilesize - offset) else nbyte

theorem fsWrite_cases {s s' : FS} {fildes r : Int} {buf : List UInt8} {nbyte : Nat}
    (h : fsWrite s fildes buf nbyte = some (r, s')) :
    (r = -1 ∧ s' = s ∧ (IsFd fildes → (s.fdArray fildes).used = false)) ∨
    ∃ index ok s₁, IsFd fildes ∧ (s.fdArray fildes).used = true ∧
      dirIndex s.directory (s.fdArray fildes).inodeNumber = some index ∧
      growChain (sizeT ((s.fdArray fildes).offset + cappedLength (s.fdArray fildes).offset nbyte - 1) /
        blockSize).toNat s (s.directory index).inodeNumber = some (ok, s₁) ∧
      ((ok = false ∧ r = -1 ∧ s' = s₁) ∨
        (ok = true ∧ writeData s₁ fildes index buf (cappedLength (s.fdArray fildes).offset nbyte) =
          some (r, s'))) := by
  unfold fsWrite at h
  split at h
  · next h1 => cases h; exact .inl ⟨rfl, rfl, fun hfd => by unfold IsFd at hfd; omega⟩
  next h1 =>
  split at h
  · cases h
  next h2 =>
  have hfd := fd_of_checks h1 h2
  split at h
  · next hu => cases h; exact .inl ⟨rfl, rfl, fun _ => by simpa using hu⟩
  next hu =>
  dsimp only at h
  split at h
  · cases h
  next index hi =>
  have hused : (s.fdArray fildes).used = true := by simpa using hu
  split at h
  · cases h
  · next s₁ hg => cases h; exact .inr ⟨index, false, s', hfd, hused, hi, hg, .inl ⟨rfl, rfl, rfl⟩⟩
  · next s₁ hg => exact .inr ⟨index, true, s₁, hfd, hused, hi, hg, .inr ⟨rfl, h⟩⟩

end EC440.FileSystem
