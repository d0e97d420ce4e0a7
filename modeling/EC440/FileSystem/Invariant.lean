/-
  The invariant of the mounted file system: every file has a chain of its own, and the open
  counts agree with the descriptors.

  `Chains P table bitmap dir ch` says that `ch i` is the chain of the file in slot `i`; the
  bitmap entries of its blocks satisfy `P`. In a session they are 1; after a mount the bitmap
  comes from uninitialised memory, and being nonzero is all that is needed.
-/
import EC440.FileSystem.Shape
import EC440.Lib.Count
import Mathlib.Data.Finset.Image

namespace EC440.FileSystem

open EC440.Lib

structure Chains (P : UInt8 → Prop) (table : Int → Inode) (bitmap : Int → UInt8)
    (dir : Int → DirectoryEntry) (ch : Int → List Int) : Prop where
  chain : ∀ i, Used dir i → Linked (nextOf table) (some (dir i).inodeNumber) (ch i)
  nodup : ∀ i, Used dir i → (ch i).Nodup
  blocks : ∀ i, Used dir i → ∀ b ∈ ch i, DataBlock b ∧ P (bitmap b)
  disjoint : ∀ i j, Used dir i → Used dir j → i ≠ j → ∀ b ∈ ch i, b ∉ ch j

/-- The indices of fd_array. -/
def fdIndices : Finset Int := (Finset.range maxFileDescriptor.toNat).image Int.ofNat

/-- The descriptors open on the file whose first block is `inode`. -/
def openCount (fds : Int → FileDescriptor) (inode : Int) : Nat :=
  count fdIndices (fun fd => (fds fd).used && (fds fd).inodeNumber == inode)

/-- The counts of the directory are the numbers of open descriptors, and an open descriptor
    belongs to a file. -/
structure Fds (dir : Int → DirectoryEntry) (fds : Int → FileDescriptor) : Prop where
  count : ∀ i, Used dir i → (dir i).count = openCount fds (dir i).inodeNumber
  linked : ∀ fd, IsFd fd → (fds fd).used = true →
    ∃ i, Used dir i ∧ (dir i).inodeNumber = (fds fd).inodeNumber

section Chains

variable {P : UInt8 → Prop} {table : Int → Inode} {bitmap : Int → UInt8}
variable {dir : Int → DirectoryEntry} {ch : Int → List Int}

theorem Chains.head_mem (h : Chains P table bitmap dir ch) {i : Int} (hi : Used dir i) :
    (dir i).inodeNumber ∈ ch i :=
  (h.chain i hi).head_mem

/-- Files have different first blocks. -/
theorem Chains.inode_inj (h : Chains P table bitmap dir ch) {i j : Int} (hi : Used dir i)
    (hj : Used dir j) (he : (dir i).inodeNumber = (dir j).inodeNumber) : i = j := by
  by_contra hij
  exact h.disjoint i j hi hj hij _ (h.head_mem hi) (he ▸ h.head_mem hj)

theorem Chains.dirIndex_eq (h : Chains P table bitmap dir ch) {i : Int} (hi : Used dir i) :
    dirIndex dir (dir i).inodeNumber = some i :=
  dirIndex_unique hi rfl fun _ hj he => h.inode_inj hj hi he

theorem Chains.fileBlocks_eq (h : Chains P table bitmap dir ch) {i : Int} (hi : Used dir i) :
    fileBlocks table (dir i).inodeNumber = ch i :=
  EC440.FileSystem.fileBlocks_eq (h.chain i hi) (h.nodup i hi) fun b hb => (h.blocks i hi b hb).1

/-- Changes outside the names, inode numbers and use of the entries do not matter. -/
theorem Chains.congr {dir' : Int → DirectoryEntry} (h : Chains P table bitmap dir ch)
    (hs : ∀ j, SameFile (dir j) (dir' j)) : Chains P table bitmap dir' ch where
  chain := fun i hi => by rw [(hs i).2.1]; exact h.chain i ((used_congr hs).mp hi)
  nodup := fun i hi => h.nodup i ((used_congr hs).mp hi)
  blocks := fun i hi => h.blocks i ((used_congr hs).mp hi)
  disjoint := fun i j hi hj => h.disjoint i j ((used_congr hs).mp hi) ((used_congr hs).mp hj)

/-- Some of the entries, with the same table and another bitmap. -/
theorem Chains.transfer {Q : UInt8 → Prop} {table' : Int → Inode} {bitmap' : Int → UInt8}
    {dir' : Int → DirectoryEntry} (h : Chains P table bitmap dir ch)
    (hd : ∀ i, Used dir' i → Used dir i ∧ dir' i = dir i) (ht : ∀ b, InBlocks b → table' b = table b)
    (hb : ∀ i, Used dir' i → ∀ b ∈ ch i, Q (bitmap' b)) : Chains Q table' bitmap' dir' ch where
  chain := fun i hi => by
    rw [(hd i hi).2]
    refine (h.chain i (hd i hi).1).congr fun b hm => nextOf_congr ?_
    rw [ht b (h.blocks i (hd i hi).1 b hm).1.inBlocks]
  nodup := fun i hi => h.nodup i (hd i hi).1
  blocks := fun i hi b hm => ⟨(h.blocks i (hd i hi).1 b hm).1, hb i hi b hm⟩
  disjoint := fun i j hi hj => h.disjoint i j (hd i hi).1 (hd j hj).1

/-- A free block is on no chain. -/
theorem Chains.notMem_of_free (h0 : ¬ P 0) (h : Chains P table bitmap dir ch) {b i : Int}
    (hb : bitmap b = 0) (hi : Used dir i) : b ∉ ch i :=
  fun hm => h0 (hb ▸ (h.blocks i hi b hm).2)

/-- fs_create: the new file's chain is the one block `inode`. -/
theorem Chains.create (h0 : ¬ P 0) (h1 : P 1) (h : Chains P table bitmap dir ch) {inode i : Int}
    {e : DirectoryEntry} (hb : DataBlock inode) (hfree : bitmap inode = 0)
    (he : e.inodeNumber = inode) (t : UInt8) :
    Chains P (Function.update table inode { type := t, nextDirectOffset := -1 })
      (Function.update bitmap inode 1) (Function.update dir i e) (Function.update ch i [inode]) := by
  have old : ∀ j, Used (Function.update dir i e) j → j ≠ i → Used dir j ∧ inode ∉ ch j :=
    fun j hj hji => ⟨(used_update hji).mp hj, h.notMem_of_free h0 hfree ((used_update hji).mp hj)⟩
  refine ⟨fun j hj => ?_, fun j hj => ?_, fun j hj b hbj => ?_, fun j k hj hk hjk b hbj hbk => ?_⟩
  · by_cases hji : j = i
    · subst hji
      simp [Linked, he, nextOf]
    · obtain ⟨hu, hn⟩ := old j hj hji
      rw [Function.update_of_ne hji, Function.update_of_ne hji]
      refine (h.chain j hu).congr fun b hbj => nextOf_congr ?_
      rw [Function.update_of_ne (by rintro rfl; exact hn hbj)]
  · by_cases hji : j = i
    · subst hji; simp
    · rw [Function.update_of_ne hji]; exact h.nodup j (old j hj hji).1
  · by_cases hji : j = i
    · subst hji
      rw [Function.update_self, List.mem_singleton] at hbj
      subst hbj
      exact ⟨hb, by simpa using h1⟩
    · obtain ⟨hu, hn⟩ := old j hj hji
      rw [Function.update_of_ne hji] at hbj
      rw [Function.update_of_ne (by rintro rfl; exact hn hbj)]
      exact h.blocks j hu b hbj
  · by_cases hji : j = i <;> by_cases hki : k = i
    · exact hjk (hji.trans hki.symm)
    · subst hji
      rw [Function.update_self, List.mem_singleton] at hbj
      rw [Function.update_of_ne hki] at hbk
      exact (old k hk hki).2 (hbj ▸ hbk)
    · subst hki
      rw [Function.update_self, List.mem_singleton] at hbk
      rw [Function.update_of_ne hji] at hbj
      exact (old j hj hji).2 (hbk ▸ hbj)
    · rw [Function.update_of_ne hji] at hbj
      rw [Function.update_of_ne hki] at hbk
      exact h.disjoint j k (old j hj hji).1 (old k hk hki).1 hjk b hbj hbk

/-- fs_delete: the file's blocks are freed and its entry is no longer in use. -/
theorem Chains.delete (h : Chains P table bitmap dir ch) {i : Int} {e : DirectoryEntry}
    (hi : Used dir i) (he : e.used = false) :
    Chains P (unlink table (ch i)) (clearBits bitmap (ch i)) (Function.update dir i e) ch := by
  have old : ∀ j, Used (Function.update dir i e) j →
      j ≠ i ∧ Used dir j ∧ Function.update dir i e j = dir j := by
    intro j hj
    have hji : j ≠ i := by
      rintro rfl
      have := hj.2
      simp [he] at this
    exact ⟨hji, (used_update hji).mp hj, Function.update_of_ne hji e dir⟩
  refine ⟨fun j hj => ?_, fun j hj => ?_, fun j hj b hbj => ?_, fun j k hj hk => ?_⟩
  · obtain ⟨hji, hu, hd⟩ := old j hj
    rw [hd]
    exact (h.chain j hu).congr fun b hb =>
      nextOf_congr (by rw [unlink_of_notMem (h.disjoint j i hu hi hji b hb)])
  · exact h.nodup j (old j hj).2.1
  · obtain ⟨hji, hu, _⟩ := old j hj
    unfold clearBits
    rw [if_neg (h.disjoint j i hu hi hji b hbj)]
    exact h.blocks j hu b hbj
  · exact h.disjoint j k (old j hj).2.1 (old k hk).2.1

/-- A change of the table and the bitmap that concerns one file's chain only: the new chain
    `l` has no block of another file, and the cells of other files keep their values. -/
theorem Chains.replace (h : Chains P table bitmap dir ch) {table' : Int → Inode} {bitmap' : Int → UInt8}
    {i : Int} {l : List Int} (hl : Linked (nextOf table') (some (dir i).inodeNumber) l)
    (hnd : l.Nodup) (hb : ∀ b ∈ l, DataBlock b ∧ P (bitmap' b))
    (hdis : ∀ j, Used dir j → j ≠ i → ∀ b ∈ ch j,
      b ∉ l ∧ (table' b).nextDirectOffset = (table b).nextDirectOffset ∧ bitmap' b = bitmap b) :
    Chains P table' bitmap' dir (Function.update ch i l) := by
  refine ⟨fun j hj => ?_, fun j hj => ?_, fun j hj b hbj => ?_, fun j k hj hk hjk b hbj hbk => ?_⟩
  · by_cases hji : j = i
    · subst hji; rw [Function.update_self]; exact hl
    · rw [Function.update_of_ne hji]
      exact (h.chain j hj).congr fun b hb => nextOf_congr (hdis j hj hji b hb).2.1
  · by_cases hji : j = i
    · subst hji; rw [Function.update_self]; exact hnd
    · rw [Function.update_of_ne hji]; exact h.nodup j hj
  · by_cases hji : j = i
    · subst hji; rw [Function.update_self] at hbj; exact hb b hbj
    · rw [Function.update_of_ne hji] at hbj
      rw [(hdis j hj hji b hbj).2.2]
      exact h.blocks j hj b hbj
  · by_cases hji : j = i <;> by_cases hki : k = i
    · exact hjk (hji.trans hki.symm)
    · subst hji
      rw [Function.update_self] at hbj
      rw [Function.update_of_ne hki] at hbk
      exact (hdis k hk hki b hbk).1 hbj
    · subst hki
      rw [Function.update_self] at hbk
      rw [Function.update_of_ne hji] at hbj
      exact (hdis j hj hji b hbj).1 hbk
    · rw [Function.update_of_ne hji] at hbj
      rw [Function.update_of_ne hki] at hbk
      exact h.disjoint j k hj hk hjk b hbj hbk

/-- fs_write's allocation loop lengthens one chain. -/
theorem Chains.grow {s s' : FS} (h0 : ¬ P 0) (h1 : P 1)
    (h : Chains P s.table s.usedBlockBitmap s.directory ch) {i : Int} {new : List Int}
    (hi : Used s.directory i) (hg : Grow s s' (s.directory i).inodeNumber (ch i) new) :
    Chains P s'.table s'.usedBlockBitmap s.directory (Function.update ch i (ch i ++ new)) := by
  have hfresh : ∀ j, Used s.directory j → ∀ b ∈ ch j, b ∉ new := fun j hj b hb hn =>
    h.notMem_of_free h0 (hg.fresh b hn).2 hj hb
  refine h.replace hg.chain hg.nodup (fun b hb => ?_) fun j hj hji b hb => ?_
  · rw [hg.bitmap]
    rcases List.mem_append.mp hb with hb | hb
    · rw [if_neg (hfresh i hi b hb)]; exact h.blocks i hi b hb
    · rw [if_pos hb]; exact ⟨(hg.fresh b hb).1, h1⟩
  · have hbi := h.disjoint j i hj hi hji b hb
    have hbn := hfresh j hj b hb
    refine ⟨fun hm => (List.mem_append.mp hm).elim hbi hbn, by rw [hg.frame b hbi hbn], ?_⟩
    rw [hg.bitmap, if_neg hbn]

/-- fs_truncate ends one chain at the block `c`. -/
theorem Chains.cut (h : Chains P table bitmap dir ch) {i c : Int} {pre post : List Int}
    (hi : Used dir i) (hc : ch i = pre ++ c :: post) :
    Chains P (setNext (unlink table (c :: post)) c (-1)) bitmap dir
      (Function.update ch i (pre ++ [c])) := by
  have hnd := h.nodup i hi
  rw [hc] at hnd
  have hpre : ∀ b ∈ pre, b ∉ c :: post := fun b hb hb' =>
    (List.nodup_append.mp hnd).2.2 b hb b hb' rfl
  have hsub : ∀ b ∈ pre ++ [c], b ∈ ch i := by
    intro b hb
    rw [hc]
    simp only [List.mem_append, List.mem_cons, List.not_mem_nil, or_false] at hb ⊢
    tauto
  refine h.replace ?_ ?_ (fun b hb => h.blocks i hi b (hsub b hb)) fun j hj hji b hb => ?_
  · have hl := h.chain i hi
    rw [hc] at hl
    refine hl.cut (nextOf_eq_none.mpr (setNext_self _ _ _)) fun b hb => nextOf_congr ?_
    have hbc := hpre b hb
    rw [setNext_of_ne (by rintro rfl; exact hbc List.mem_cons_self), unlink_of_notMem hbc]
  · refine List.Nodup.sublist ?_ hnd
    exact List.Sublist.append_left (List.singleton_sublist.mpr List.mem_cons_self) pre
  · have hbi := h.disjoint j i hj hi hji b hb
    refine ⟨fun hm => hbi (hsub b hm), ?_, rfl⟩
    have hbc : b ∉ c :: post := fun hm => hbi (by rw [hc]; exact List.mem_append_right _ hm)
    rw [setNext_of_ne (by rintro rfl; exact hbc List.mem_cons_self), unlink_of_notMem hbc]

end Chains

/-! ## Descriptors -/

theorem mem_fdIndices {fd : Int} : fd ∈ fdIndices ↔ IsFd fd := by
  unfold fdIndices IsFd maxFileDescriptor
  rw [Finset.mem_image]
  constructor
  · intro ⟨n, hn, he⟩
    rw [Finset.mem_range] at hn
    have hfd : (n : Int) = fd := he
    omega
  · intro ⟨h0, hlt⟩
    exact ⟨fd.toNat, Finset.mem_range.mpr (by omega), Int.toNat_of_nonneg h0⟩

theorem openCount_update (fds : Int → FileDescriptor) {fd : Int} (hfd : IsFd fd) (f : FileDescriptor)
    (x : Int) :
    openCount (Function.update fds fd f) x +
        (if (fds fd).used && (fds fd).inodeNumber == x then 1 else 0) =
      openCount fds x + (if f.used && f.inodeNumber == x then 1 else 0) := by
  have h := count_change (S := fdIndices)
    (p := fun fd => (fds fd).used && (fds fd).inodeNumber == x)
    (q := fun fd' => (Function.update fds fd f fd').used &&
      (Function.update fds fd f fd').inodeNumber == x)
    (a := fd) (mem_fdIndices.mpr hfd) fun y _ hy => by simp only [Function.update_of_ne hy]
  simpa only [openCount, Function.update_self] using h

theorem openCount_eq_zero {fds : Int → FileDescriptor} {x : Int} :
    openCount fds x = 0 ↔ ∀ fd, IsFd fd → (fds fd).used = true → (fds fd).inodeNumber ≠ x := by
  unfold openCount
  rw [count_eq_zero]
  constructor
  · intro h fd hfd hu he
    have := h fd (mem_fdIndices.mpr hfd)
    simp [hu, he] at this
  · intro h fd hfd
    cases hu : (fds fd).used with
    | false => simp
    | true => simpa using h fd (mem_fdIndices.mp hfd) hu

theorem openCount_le (fds : Int → FileDescriptor) (x : Int) : openCount fds x ≤ 32 :=
  (count_le _ _).trans Finset.card_image_le

section Fds

variable {dir : Int → DirectoryEntry} {fds : Int → FileDescriptor}

theorem Fds.congr {dir' : Int → DirectoryEntry} (h : Fds dir fds)
    (hs : ∀ j, SameFile (dir j) (dir' j)) (hc : ∀ j, (dir' j).count = (dir j).count) :
    Fds dir' fds where
  count := fun i hi => by
    rw [hc, (hs i).2.1]; exact h.count i ((used_congr hs).mp hi)
  linked := fun fd hfd hu => by
    obtain ⟨i, hi, he⟩ := h.linked fd hfd hu
    exact ⟨i, (used_congr hs).mpr hi, by rw [(hs i).2.1]; exact he⟩

theorem count_update {dir : Int → DirectoryEntry} {i : Int} {e : DirectoryEntry}
    (h : e.count = (dir i).count) (j : Int) :
    (Function.update dir i e j).count = (dir j).count := by
  by_cases hj : j = i
  · subst hj; simpa using h
  · rw [Function.update_of_ne hj]

/-- A descriptor's offset does not matter. -/
theorem Fds.setOffset (h : Fds dir fds) (fd off : Int) :
    Fds dir (Function.update fds fd { fds fd with offset := off }) := by
  have hused : ∀ x, (Function.update fds fd { fds fd with offset := off } x).used = (fds x).used ∧
      (Function.update fds fd { fds fd with offset := off } x).inodeNumber = (fds x).inodeNumber := by
    intro x
    by_cases hx : x = fd
    · subst hx; simp
    · rw [Function.update_of_ne hx]; exact ⟨rfl, rfl⟩
  refine ⟨fun i hi => ?_, fun x hx hu => ?_⟩
  · rw [h.count i hi]
    refine congrArg _ (count_congr fun x _ => ?_)
    rw [(hused x).1, (hused x).2]
  · rw [(hused x).1] at hu
    rw [(hused x).2]
    exact h.linked x hx hu

/-- fs_open -/
theorem Fds.open (h : Fds dir fds) {fd i : Int} (hfd : IsFd fd) (hun : (fds fd).used = false)
    (hi : Used dir i)
    (hinj : ∀ j, Used dir j → (dir j).inodeNumber = (dir i).inodeNumber → j = i) :
    Fds (Function.update dir i { dir i with count := (dir i).count + 1 })
      (Function.update fds fd { used := true, inodeNumber := (dir i).inodeNumber, offset := 0 }) := by
  have hs : ∀ j, SameFile (dir j) (Function.update dir i { dir i with count := (dir i).count + 1 } j) :=
    sameFile_update ⟨rfl, rfl, rfl⟩
  refine ⟨fun j hj => ?_, fun x hx hu => ?_⟩
  · have hj' := (used_congr hs).mp hj
    have hupd := openCount_update fds hfd
      { used := true, inodeNumber := (dir i).inodeNumber, offset := 0 } (dir j).inodeNumber
    simp only [hun, Bool.false_and, Bool.true_and, beq_iff_eq, Bool.false_eq_true, if_false,
      Nat.add_zero] at hupd
    rw [(hs j).2.1, hupd]
    have hcount := h.count j hj'
    by_cases hji : j = i
    · subst hji
      simp only [Function.update_self, if_true]
      omega
    · rw [Function.update_of_ne hji, if_neg (fun he => hji (hinj j hj' he.symm)), Nat.add_zero]
      exact hcount
  · by_cases hxf : x = fd
    · subst hxf
      exact ⟨i, (used_congr hs).mpr hi, by rw [(hs i).2.1]; simp⟩
    · rw [Function.update_of_ne hxf] at hu ⊢
      obtain ⟨j, hj, he⟩ := h.linked x hx hu
      exact ⟨j, (used_congr hs).mpr hj, by rw [(hs j).2.1]; exact he⟩

/-- fs_close -/
theorem Fds.close (h : Fds dir fds) {fd i : Int} (hfd : IsFd fd) (hu : (fds fd).used = true)
    (hfi : (dir i).inodeNumber = (fds fd).inodeNumber)
    (hinj : ∀ j, Used dir j → (dir j).inodeNumber = (dir i).inodeNumber → j = i) :
    Fds (Function.update dir i { dir i with count := (dir i).count - 1 })
      (Function.update fds fd { used := false, inodeNumber := -1, offset := 0 }) := by
  have hs : ∀ j, SameFile (dir j) (Function.update dir i { dir i with count := (dir i).count - 1 } j) :=
    sameFile_update ⟨rfl, rfl, rfl⟩
  refine ⟨fun j hj => ?_, fun x hx hux => ?_⟩
  · have hj' := (used_congr hs).mp hj
    have hupd := openCount_update fds hfd
      { used := false, inodeNumber := -1, offset := 0 } (dir j).inodeNumber
    simp only [hu, Bool.false_and, Bool.true_and, beq_iff_eq, Bool.false_eq_true, if_false,
      Nat.add_zero] at hupd
    rw [(hs j).2.1]
    have hcount := h.count j hj'
    by_cases hji : j = i
    · subst hji
      rw [if_pos hfi.symm] at hupd
      simp only [Function.update_self]
      omega
    · rw [if_neg (fun he => hji (hinj j hj' (he.symm.trans hfi.symm)))] at hupd
      rw [Function.update_of_ne hji]
      omega
  · have hxf : x ≠ fd := by rintro rfl; simp at hux
    rw [Function.update_of_ne hxf] at hux ⊢
    obtain ⟨j, hj, he⟩ := h.linked x hx hux
    exact ⟨j, (used_congr hs).mpr hj, by rw [(hs j).2.1]; exact he⟩

/-- fs_create: no descriptor is open on a block that no file has. -/
theorem Fds.create (h : Fds dir fds) {i : Int} {e : DirectoryEntry} (hun : (dir i).used = false)
    (hc : e.count = 0) (hnew : ∀ j, Used dir j → (dir j).inodeNumber ≠ e.inodeNumber) :
    Fds (Function.update dir i e) fds := by
  have hne : ∀ j, Used dir j → j ≠ i := by
    rintro j hj rfl
    rw [hj.2] at hun
    cases hun
  refine ⟨fun j hj => ?_, fun x hx hu => ?_⟩
  · by_cases hji : j = i
    · subst hji
      rw [Function.update_self, hc]
      refine (congrArg Nat.cast (openCount_eq_zero.mpr fun fd hfd hu he => ?_)).symm
      obtain ⟨k, hk, hke⟩ := h.linked fd hfd hu
      exact hnew k hk (hke.trans he)
    · rw [Function.update_of_ne hji]; exact h.count j ((used_update hji).mp hj)
  · obtain ⟨j, hj, he⟩ := h.linked x hx hu
    exact ⟨j, (used_update (hne j hj)).mpr hj, by rw [Function.update_of_ne (hne j hj)]; exact he⟩

/-- fs_delete: the count says that no descriptor is open on the file. -/
theorem Fds.delete (h : Fds dir fds) {i : Int} {e : DirectoryEntry} (hi : Used dir i)
    (hc : (dir i).count ≤ 0) (he : e.used = false) : Fds (Function.update dir i e) fds := by
  have hzero : openCount fds (dir i).inodeNumber = 0 := by
    have := h.count i hi
    omega
  refine ⟨fun j hj => ?_, fun x hx hu => ?_⟩
  · have hji : j ≠ i := by
      rintro rfl
      have := hj.2
      simp [he] at this
    rw [Function.update_of_ne hji]
    exact h.count j ((used_update hji).mp hj)
  · obtain ⟨j, hj, hje⟩ := h.linked x hx hu
    have hji : j ≠ i := by
      rintro rfl
      exact openCount_eq_zero.mp hzero x hx hu hje.symm
    exact ⟨j, (used_update hji).mpr hj, by rw [Function.update_of_ne hji]; exact hje⟩

end Fds

/-! ## The calls -/

/-- The part of the state that holds the files is in order: `ch i` is the chain of the file in
    slot `i`. -/
structure Files (P : UInt8 → Prop) (s : FS) (ch : Int → List Int) : Prop where
  shape : Shape s
  chains : Chains P s.table s.usedBlockBitmap s.directory ch

/-- Every file's chain has room for its size. -/
def Sized (dir : Int → DirectoryEntry) (ch : Int → List Int) : Prop :=
  ∀ i, Used dir i → (dir i).size ≤ blockSize * (ch i).length

/-- Every data block that the bitmap marks is on the chain of a file. -/
def Marked (s : FS) (ch : Int → List Int) : Prop :=
  ∀ b, DataBlock b → s.usedBlockBitmap b ≠ 0 → ∃ i, Used s.directory i ∧ b ∈ ch i

/-- A size smaller than 0 that is stored as a large one. -/
def Wraps (length : Int) : Prop := length < 0 ∧ blockSize < toInt32 length

instance (length : Int) : Decidable (Wraps length) := inferInstanceAs (Decidable (_ ∧ _))

theorem Sized.update {dir : Int → DirectoryEntry} {ch : Int → List Int} (h : Sized dir ch) {i : Int}
    {e : DirectoryEntry} {l : List Int} (hl : e.size ≤ blockSize * l.length) :
    Sized (Function.update dir i e) (Function.update ch i l) := by
  intro j hj
  by_cases hji : j = i
  · subst hji; simpa using hl
  · rw [Function.update_of_ne hji, Function.update_of_ne hji]
    exact h j ((used_update hji).mp hj)

/-- An entry changed, its chain kept. -/
theorem Sized.entry {dir : Int → DirectoryEntry} {ch : Int → List Int} (h : Sized dir ch) {i : Int}
    {e : DirectoryEntry} (he : e.used = true → e.size ≤ blockSize * (ch i).length) :
    Sized (Function.update dir i e) ch := by
  intro j hj
  by_cases hji : j = i
  · subst hji
    have hu := hj.2
    rw [Function.update_self] at hu ⊢
    exact he hu
  · rw [Function.update_of_ne hji]; exact h j ((used_update hji).mp hj)

section Files

variable {P : UInt8 → Prop} {s s' : FS} {ch : Int → List Int} {r : Int}

/-- A descriptor in use leads to its file. -/
theorem Files.fd_index (h : Files P s ch) (hf : Fds s.directory s.fdArray) {fd : Int} (hfd : IsFd fd)
    (hu : (s.fdArray fd).used = true) :
    ∃ i, Used s.directory i ∧ (s.directory i).inodeNumber = (s.fdArray fd).inodeNumber ∧
      dirIndex s.directory (s.fdArray fd).inodeNumber = some i := by
  obtain ⟨i, hi, he⟩ := hf.linked fd hfd hu
  exact ⟨i, hi, he, by rw [← he]; exact h.chains.dirIndex_eq hi⟩

theorem Files.inj (h : Files P s ch) {i : Int} (hi : Used s.directory i) :
    ∀ j, Used s.directory j → (s.directory j).inodeNumber = (s.directory i).inodeNumber → j = i :=
  fun _ hj he => h.chains.inode_inj hj hi he

/-- A name that is not empty is found only at a file. -/
theorem Shape.used_of_name (h : Shape s) {name : CString} (hn : name.chars ≠ []) {i : Int}
    (hi : IsSlot i) (he : name.chars = cstr (s.directory i).name) : Used s.directory i := by
  refine ⟨hi, ?_⟩
  by_contra hu
  exact hn (he.trans (h.dir.emptyName i hi (by simpa using hu)))

/-- The files keep their slots and chains. -/
theorem Marked.congr {ch' : Int → List Int} (h : Marked s ch)
    (hb : ∀ b, DataBlock b → s'.usedBlockBitmap b ≠ 0 → s.usedBlockBitmap b ≠ 0)
    (hk : ∀ i, Used s.directory i → ∀ b ∈ ch i, s'.usedBlockBitmap b ≠ 0 →
      Used s'.directory i ∧ b ∈ ch' i) : Marked s' ch' := by
  intro b hd hm
  obtain ⟨i, hi, hbi⟩ := h b hd (hb b hd hm)
  obtain ⟨hi', hbi'⟩ := hk i hi b hbi hm
  exact ⟨i, hi', hbi'⟩

/-- An entry is changed, not freed. -/
theorem Marked.entry (h : Marked s ch) {i : Int} {e : DirectoryEntry}
    (hbit : s'.usedBlockBitmap = s.usedBlockBitmap) (hdir : s'.directory = Function.update s.directory i e)
    (he : (s.directory i).used = e.used) : Marked s' ch := by
  refine h.congr (fun b _ hm => by rwa [hbit] at hm) fun j hj b hb _ => ⟨⟨hj.1, ?_⟩, hb⟩
  rw [hdir]
  by_cases hji : j = i
  · rw [hji, Function.update_self, ← he, ← hji]
    exact hj.2
  · rw [Function.update_of_ne hji]
    exact hj.2

theorem Files.open {name : CString} (h : Files P s ch) (hc : fsOpen s name = some (r, s')) :
    Files P s' ch ∧ (Sized s.directory ch → Sized s'.directory ch) ∧ (Marked s ch → Marked s' ch) := by
  have hshape := h.shape.open hc
  obtain ⟨-, rfl, -⟩ | ⟨fildes, i, -, -, -, hi, -, -, -, rfl⟩ := fsOpen_cases hc
  · exact ⟨h, id, id⟩
  · exact ⟨⟨hshape, h.chains.congr (sameFile_update ⟨rfl, rfl, rfl⟩)⟩,
      fun hs => hs.entry fun hu => hs i ⟨hi, hu⟩, fun hm => hm.entry rfl rfl rfl⟩

theorem Files.close {fildes : Int} (h : Files P s ch) (hc : fsClose s fildes = some (r, s')) :
    Files P s' ch ∧ (Sized s.directory ch → Sized s'.directory ch) ∧ (Marked s ch → Marked s' ch) := by
  have hshape := h.shape.close hc
  obtain ⟨-, rfl, -⟩ | ⟨i, -, -, hi, -, -, rfl⟩ := fsClose_cases hc
  · exact ⟨h, id, id⟩
  · exact ⟨⟨hshape, h.chains.congr (sameFile_update ⟨rfl, rfl, rfl⟩)⟩,
      fun hs => hs.entry fun _ => hs i (dirIndex_eq_some hi).1, fun hm => hm.entry rfl rfl rfl⟩

theorem Files.create {name : CString} (h0 : ¬ P 0) (h1 : P 1) (h : Files P s ch)
    (hc : fsCreate s name = some (r, s')) :
    ∃ ch', Files P s' ch' ∧ (Sized s.directory ch → Sized s'.directory ch') ∧
      (Marked s ch → Marked s' ch') := by
  have hshape := h.shape.create hc
  obtain ⟨-, rfl, -⟩ | ⟨inode, i, -, -, hfree, hi, hun, -, rfl⟩ := fsCreate_cases hc
  · exact ⟨ch, h, id, id⟩
  obtain ⟨hb, hbit⟩ := freeBlock_eq_some h.shape.super hfree
  refine ⟨Function.update ch i [inode], ⟨hshape, h.chains.create h0 h1 hb hbit rfl 1⟩,
    fun hs => hs.update (by simp), fun hm b hd hmark => ?_⟩
  by_cases hbi : b = inode
  · refine ⟨i, ⟨hi, ?_⟩, ?_⟩
    · simp only [Function.update_self]
    · rw [Function.update_self, hbi]
      exact List.mem_singleton_self inode
  · dsimp only at hmark
    rw [Function.update_of_ne hbi] at hmark
    obtain ⟨j, hj, hbj⟩ := hm b hd hmark
    have hji : j ≠ i := by
      rintro rfl
      rw [hj.2] at hun
      cases hun
    refine ⟨j, (used_update hji).mpr hj, ?_⟩
    rw [Function.update_of_ne hji]
    exact hbj

theorem Files.length_le (h : Files P s ch) {i : Int} (hi : Used s.directory i) :
    (ch i).length ≤ diskBlocks.toNat :=
  length_le_of_dataBlocks (h.chains.nodup i hi) fun b hb => (h.chains.blocks i hi b hb).1

/-- fs_delete's loop on a file frees its chain. -/
theorem Files.freeChain_eq (h : Files P s ch) {i : Int} (hi : Used s.directory i) :
    freeChain (diskBlocks.toNat + 1) s (s.directory i).inodeNumber = some { s with
      usedBlockBitmap := clearBits s.usedBlockBitmap (ch i), table := unlink s.table (ch i) } :=
  freeChain_spec _ (h.chains.chain i hi) (h.chains.nodup i hi)
    (fun b hb => (h.chains.blocks i hi b hb).1.inBlocks) (Nat.le_succ_of_le (h.length_le hi))

theorem Files.delete {name : CString} (h : Files P s ch) (hc : fsDelete s name = some (r, s')) :
    Files P s' ch ∧ (Sized s.directory ch → Sized s'.directory ch) ∧ (Marked s ch → Marked s' ch) := by
  have hshape := h.shape.delete hc
  obtain ⟨-, rfl, -⟩ | ⟨i, s₁, hi, -, -, hf, -, rfl⟩ := fsDelete_cases hc
  · exact ⟨h, id, id⟩
  have hu := fsDelete_used h.shape hi hf
  rw [h.freeChain_eq hu] at hf
  cases hf
  refine ⟨⟨hshape, h.chains.delete hu rfl⟩, fun hs => hs.entry (fun he => by cases he), fun hm =>
    hm.congr (fun b _ hmark => ?_) fun j hj b hb hmark => ?_⟩
  · dsimp only [clearBits] at hmark
    split at hmark
    · exact absurd rfl hmark
    · exact hmark
  · -- a block of the deleted file is not marked any more
    have hji : j ≠ i := by
      rintro rfl
      dsimp only [clearBits] at hmark
      rw [if_pos hb] at hmark
      exact hmark rfl
    exact ⟨(used_update hji).mpr hj, hb⟩

theorem Files.read {fildes : Int} {buf buf' : List UInt8} {nbyte : Nat} (h : Files P s ch)
    (hc : fsRead s fildes buf nbyte = some (r, buf', s')) :
    Files P s' ch ∧ (Sized s.directory ch → Sized s'.directory ch) ∧ (Marked s ch → Marked s' ch) := by
  have hshape := h.shape.read hc
  obtain rfl | ⟨off, -, -, rfl⟩ := fsRead_cases hc
  · exact ⟨h, id, id⟩
  · exact ⟨⟨hshape, h.chains⟩, id, id⟩

theorem Files.lseek {fildes offset : Int} (h : Files P s ch) (hc : fsLseek s fildes offset = some (r, s')) :
    Files P s' ch ∧ (Sized s.directory ch → Sized s'.directory ch) ∧ (Marked s ch → Marked s' ch) := by
  have hshape := h.shape.lseek hc
  obtain ⟨-, rfl, -⟩ | ⟨i, -, -, -, -, -, -, rfl⟩ := fsLseek_cases hc
  · exact ⟨h, id, id⟩
  · exact ⟨⟨hshape, h.chains⟩, id, id⟩

theorem Files.grow (h0 : ¬ P 0) (h1 : P 1) (h : Files P s ch) {i : Int} {new : List Int}
    (hi : Used s.directory i) (hg : Grow s s' (s.directory i).inodeNumber (ch i) new)
    (ht : TableShape s'.table) : Files P s' (Function.update ch i (ch i ++ new)) := by
  have hdir : s'.directory = s.directory := by rw [hg.same]
  have hsup : s'.super = s.super := by rw [hg.same]
  refine ⟨⟨hsup.trans h.shape.super, ht, by rw [hdir]; exact h.shape.dir⟩, ?_⟩
  rw [hdir]
  exact h.chains.grow h0 h1 hi hg

/-- fs_write's allocation loop on the file in slot `i`. -/
theorem Files.growChain_eq (h0 : ¬ P 0) (h1 : P 1) (h : Files P s ch) {i : Int} (hi : Used s.directory i) (n : Nat) :
    ∃ ok s₁ new, growChain n s (s.directory i).inodeNumber = some (ok, s₁) ∧
      Grow s s₁ (s.directory i).inodeNumber (ch i) new ∧ Files P s₁ (Function.update ch i (ch i ++ new)) ∧
      (ok = true → n < (ch i ++ new).length ∧ new.length = n + 1 - (ch i).length) ∧
      (ok = false → ∀ j, DataBlock j → s₁.usedBlockBitmap j ≠ 0) ∧
      (ok = false → new.length < n + 1 - (ch i).length) ∧ (new = [] → s₁ = s) := by
  have hl := h.chains.chain i hi
  have hfiles : ∀ {s₁ ok new}, growChain n s (s.directory i).inodeNumber = some (ok, s₁) →
      Grow s s₁ (s.directory i).inodeNumber (ch i) new → Files P s₁ (Function.update ch i (ch i ++ new)) :=
    fun hrun hg => h.grow h0 h1 hi hg (h.shape.grown hi hrun).1
  cases hch : ch i with
  | nil => rw [hch] at hl; exact absurd rfl hl.ne_nil
  | cons a post =>
      rw [hch] at hl
      have ha : (s.directory i).inodeNumber = a := by
        simp only [Linked, seg_cons, Option.some.injEq] at hl; exact hl.1
      have hbl : ∀ b ∈ [] ++ a :: post, DataBlock b ∧ s.usedBlockBitmap b ≠ 0 := by
        intro b hb
        obtain ⟨hd, hp⟩ := h.chains.blocks i hi b (by rw [hch]; exact hb)
        exact ⟨hd, fun hz => h0 (hz ▸ hp)⟩
      obtain ⟨ok, s₁, new, hrun, hg, hlen, hfull, hshort, hstill⟩ := growChain_spec n s [] post a h.shape.super hl
        (by simpa [hch] using h.chains.nodup i hi) hbl
      rw [ha, hch] at hfiles
      rw [ha]
      rw [ha] at hg
      refine ⟨ok, s₁, new, hrun, hg, hfiles hrun hg, fun hok => ?_, hfull, fun hok => ?_, hstill⟩
      · have := hlen hok
        simp only [List.length_append, List.length_cons]
        omega
      · have := hshort hok
        rw [List.length_cons]
        omega

/-- The same of a run of the loop. -/
theorem Files.grown (h0 : ¬ P 0) (h1 : P 1) (h : Files P s ch) {i : Int} (hi : Used s.directory i) {n : Nat}
    {ok : Bool} {s₁ : FS} (hrun : growChain n s (s.directory i).inodeNumber = some (ok, s₁)) :
    ∃ new, Grow s s₁ (s.directory i).inodeNumber (ch i) new ∧ Files P s₁ (Function.update ch i (ch i ++ new)) ∧
      (ok = true → n < (ch i ++ new).length ∧ new.length = n + 1 - (ch i).length) ∧
      (ok = false → ∀ j, DataBlock j → s₁.usedBlockBitmap j ≠ 0) ∧
      (ok = false → new.length < n + 1 - (ch i).length) ∧ (new = [] → s₁ = s) := by
  obtain ⟨ok', s₂, new, hrun', hgrown⟩ := h.growChain_eq h0 h1 hi n
  rw [hrun'] at hrun
  cases hrun
  exact ⟨new, hgrown⟩

/-- C's size arithmetic: what is stored as the new size is covered by the blocks counted. -/
theorem toInt32_le_sizeT (x : Int) : toInt32 x ≤ sizeT (x - 1) + 1 := by
  unfold toInt32 sizeT
  rw [Int.bmod_def]
  split <;> omega

/-- fs_truncate's loop count, in the blocks it keeps. -/
theorem le_blocks (x : Int) : x ≤ blockSize * (((x - 1).tdiv blockSize).toNat + 1) := by
  unfold blockSize
  by_cases hx : 1 ≤ x
  · rw [Int.tdiv_eq_ediv_of_nonneg (by omega)]
    omega
  · omega

theorem sizeT_nonneg (x : Int) : 0 ≤ sizeT x :=
  Int.emod_nonneg x (by decide)

/-- The blocks that fs_write's allocation loop marks are on the lengthened chain. -/
theorem Marked.grow (h : Marked s ch) {i : Int} {new : List Int} (hi : Used s.directory i)
    (hg : Grow s s' (s.directory i).inodeNumber (ch i) new) :
    Marked s' (Function.update ch i (ch i ++ new)) := by
  have hdir : s'.directory = s.directory := by rw [hg.same]
  intro b hd hmark
  rw [hg.bitmap] at hmark
  rw [hdir]
  by_cases hb : b ∈ new
  · refine ⟨i, hi, ?_⟩
    rw [Function.update_self]
    exact List.mem_append_right _ hb
  · rw [if_neg hb] at hmark
    obtain ⟨j, hj, hbj⟩ := h b hd hmark
    refine ⟨j, hj, ?_⟩
    by_cases hji : j = i
    · rw [hji, Function.update_self]
      exact List.mem_append_left _ (hji ▸ hbj)
    · rw [Function.update_of_ne hji]
      exact hbj

theorem Files.write {fildes : Int} {buf : List UInt8} {nbyte : Nat} (h0 : ¬ P 0) (h1 : P 1)
    (h : Files P s ch) (hc : fsWrite s fildes buf nbyte = some (r, s')) :
    ∃ ch', Files P s' ch' ∧ (Sized s.directory ch → Sized s'.directory ch') ∧
      (Marked s ch → Marked s' ch') := by
  have hshape := h.shape.write hc
  obtain ⟨-, rfl, -⟩ | ⟨i, ok, s₁, -, -, hi, hrun, hrest⟩ := fsWrite_cases hc
  · exact ⟨ch, h, id, id⟩
  have hu := (dirIndex_eq_some hi).1
  obtain ⟨new, hg, hf, hlen, -⟩ := h.grown h0 h1 hu hrun
  have hdir : s₁.directory = s.directory := by rw [hg.same]
  have hfds : s₁.fdArray = s.fdArray := by rw [hg.same]
  have hchains := hf.chains
  rw [hdir] at hchains
  refine ⟨Function.update ch i (ch i ++ new), ?_⟩
  have hgrown : Sized s.directory ch →
      (s.directory i).size ≤ blockSize * ((ch i ++ new).length : Int) := by
    intro hs
    have := hs i hu
    rw [List.length_append]
    unfold blockSize at *
    omega
  have hmarked : Marked s ch → Marked s₁ (Function.update ch i (ch i ++ new)) :=
    fun hm => hm.grow hu hg
  obtain ⟨-, -, rfl⟩ | ⟨rfl, hw⟩ := hrest
  · refine ⟨hf, fun hs => ?_, hmarked⟩
    have := hs.update (i := i) (e := s.directory i) (hgrown hs)
    rwa [Function.update_eq_self, ← hdir] at this
  obtain ⟨size, d, fds, rfl, -, -, hsize⟩ := writeData_cases hw
  rw [hfds, hdir] at hsize
  refine ⟨⟨hshape, ?_⟩, fun hs => ?_, fun hm => (hmarked hm).entry rfl rfl rfl⟩
  · simp only [hdir]
    exact hchains.congr (sameFile_update ⟨rfl, rfl, rfl⟩)
  · simp only [hdir]
    refine hs.update ?_
    rcases hsize with rfl | ⟨rfl, -⟩
    · exact hgrown hs
    · have h2 := toInt32_le_sizeT
        ((s.fdArray fildes).offset + cappedLength (s.fdArray fildes).offset nbyte)
      have h3 := sizeT_nonneg
        ((s.fdArray fildes).offset + cappedLength (s.fdArray fildes).offset nbyte - 1)
      have h4 := (hlen rfl).1
      unfold blockSize at *
      dsimp only
      omega

/-- The blocks of a file of that many bytes: at least one. -/
def blocksOf (length : Int) : Nat := (max 1 ((length + blockSize - 1) / blockSize)).toNat

/-- fs_truncate of an open file to a length below its size cuts no block off. -/
def KeepsBlocks (s : FS) (fildes length : Int) : Prop :=
  (s.fdArray fildes).used = true → ∀ i, dirIndex s.directory (s.fdArray fildes).inodeNumber = some i →
    length ≤ (s.directory i).size →
    (fileBlocks s.table (s.directory i).inodeNumber).length ≤ blocksOf length

theorem rounds_eq_blocks (length : Int) : blocksOf length = ((length - 1).tdiv blockSize).toNat + 1 := by
  unfold blocksOf blockSize
  by_cases hx : 1 ≤ length
  · rw [Int.tdiv_eq_ediv_of_nonneg (by omega)]
    omega
  · have hle : (length - 1).tdiv (4096 : Nat) ≤ (0 : Int).tdiv (4096 : Nat) :=
      Int.tdiv_le_tdiv (by decide) (by omega)
    rw [Int.zero_tdiv] at hle
    omega

/-- fs_truncate on the file in slot `i`: the chain is cut behind the block reached first. -/
theorem Files.truncate_eq {fildes length : Int} (h : Files P s ch)
    (hc : fsTruncate s fildes length = some (r, s')) :
    (r = -1 ∧ s' = s) ∨ ∃ i pre c post, IsFd fildes ∧ (s.fdArray fildes).used = true ∧
      dirIndex s.directory (s.fdArray fildes).inodeNumber = some i ∧ length ≤ (s.directory i).size ∧
      ch i = pre ++ c :: post ∧ pre.length = ((length - 1).tdiv blockSize).toNat ∧
      Files P s' (Function.update ch i (pre ++ [c])) ∧ r = 0 ∧
      s' = { s with
        directory := Function.update s.directory i { s.directory i with size := toInt32 length }
        table := setNext (unlink s.table (c :: post)) c (-1) } := by
  have hshape := h.shape.truncate hc
  obtain ⟨hr, rfl, -⟩ | ⟨i, c, table, hfd, hused, hi, hle, hskip, hcut, hin, hr, rfl⟩ := fsTruncate_cases hc
  · exact .inl ⟨hr, rfl⟩
  have hu := (dirIndex_eq_some hi).1
  obtain ⟨pre, post, hch, hpre⟩ := skipChain_split hin _ (h.chains.chain i hu) hskip
  have hl := h.chains.chain i hu
  have hnd := h.chains.nodup i hu
  have hlen := h.length_le hu
  rw [hch] at hl hnd hlen
  obtain ⟨m, -, htail⟩ := seg_append.mp hl
  obtain rfl : m = some c := (seg_cons.mp htail).1
  have hcut' := cutChain_spec (diskBlocks.toNat + 1) htail (List.nodup_append.mp hnd).2.1
    (fun b hb => (h.chains.blocks i hu b (by rw [hch]; exact List.mem_append_right _ hb)).1.inBlocks)
    (by rw [List.length_append] at hlen; omega)
  rw [Option.getD_some, hcut] at hcut'
  cases hcut'
  exact .inr ⟨i, pre, c, post, hfd, hused, hi, hle, hch, hpre, ⟨hshape, (h.chains.cut hu hch).congr
    (sameFile_update ⟨rfl, rfl, rfl⟩)⟩, hr, rfl⟩

theorem Files.truncate {fildes length : Int} (h : Files P s ch)
    (hc : fsTruncate s fildes length = some (r, s')) :
    ∃ ch', Files P s' ch' ∧ (Sized s.directory ch →
        ((s.fdArray fildes).used = true → ¬ Wraps length) → Sized s'.directory ch') ∧
      (Marked s ch → KeepsBlocks s fildes length → Marked s' ch') := by
  obtain ⟨-, rfl⟩ | ⟨i, pre, c, post, -, hused, hi, hle, hch, hpre, hf, -, rfl⟩ := h.truncate_eq hc
  · exact ⟨ch, h, fun hs _ => hs, fun hm _ => hm⟩
  have hu := (dirIndex_eq_some hi).1
  refine ⟨Function.update ch i (pre ++ [c]), hf, fun hs hw => hs.update ?_, fun hm hk => ?_⟩
  · have hw' := hw hused
    unfold Wraps at hw'
    have hsize := (h.shape.dir.entry i hu.1).size
    unfold IsInt32 at hsize
    simp only [List.length_append, List.length_singleton, hpre]
    by_cases hneg : length < 0
    · have : toInt32 length ≤ blockSize := by omega
      unfold blockSize at *
      omega
    · rw [toInt32_of_isInt32 (by unfold IsInt32; omega)]
      have := le_blocks length
      push_cast
      omega
  · -- nothing is behind `c`, so the chain is the one before
    have hkeep := hk hused i hi hle
    rw [h.chains.fileBlocks_eq hu, hch, List.length_append, List.length_cons, hpre,
      rounds_eq_blocks] at hkeep
    have hpost : post = [] := List.length_eq_zero_iff.mp (by omega)
    rw [hpost] at hch
    rw [← hch, Function.update_eq_self]
    exact hm.entry rfl rfl rfl

end Files

/-- The call is not an fs_truncate of an open file to a negative length that the entry's `int`
    stores as more than a block. -/
def Call.NoWrap (s : FS) : Call → Prop
  | .truncate fildes length => (s.fdArray fildes).used = true → ¬ Wraps length
  | _ => True

instance (s : FS) : DecidablePred (Call.NoWrap s)
  | .truncate fildes length =>
      inferInstanceAs (Decidable ((s.fdArray fildes).used = true → ¬ Wraps length))
  | .create _ | .open _ | .close _ | .delete _ | .read _ _ _ | .write _ _ _ | .getFilesize _
  | .listfiles | .lseek _ _ | .mount _ _ | .umount _ => isTrue trivial

/-- The call is not an fs_truncate that cuts blocks off a chain. -/
def Call.KeepsBlocks (s : FS) : Call → Prop
  | .truncate fildes length => EC440.FileSystem.KeepsBlocks s fildes length
  | _ => True

/-- Every fs_* call keeps the files in order; the chains keep room for the sizes as long as no
    negative length is stored as a large one. -/
theorem Files.step {P : UInt8 → Prop} {s s' : FS} {ch : Int → List Int} {c : Call} {r : Ret}
    (h0 : ¬ P 0) (h1 : P 1) (hc : c.IsFs) (h : Files P s ch) (hs : s.step c = some (r, s')) :
    ∃ ch', Files P s' ch' ∧ (Sized s.directory ch → c.NoWrap s → Sized s'.directory ch') ∧
      (Marked s ch → c.KeepsBlocks s → Marked s' ch') := by
  have keep : (∃ ch', Files P s' ch' ∧ (Sized s.directory ch → Sized s'.directory ch') ∧
        (Marked s ch → Marked s' ch')) →
      ∃ ch', Files P s' ch' ∧ (Sized s.directory ch → c.NoWrap s → Sized s'.directory ch') ∧
        (Marked s ch → c.KeepsBlocks s → Marked s' ch') := by
    intro ⟨ch', hf, hz, hm⟩
    exact ⟨ch', hf, fun hs _ => hz hs, fun hs _ => hm hs⟩
  obtain rfl | ⟨_, rfl, hx⟩ | ⟨_, rfl, hx⟩ | ⟨_, rfl, hx⟩ | ⟨_, rfl, hx⟩ | ⟨_, _, _, rfl, hx⟩ |
    ⟨_, _, _, rfl, hx⟩ | ⟨_, _, rfl, hx⟩ | ⟨_, _, rfl, hx⟩ := FS.step_cases hc hs
  · exact keep ⟨ch, h, id, id⟩
  · exact keep (h.create h0 h1 hx)
  · exact keep ⟨ch, h.open hx⟩
  · exact keep ⟨ch, h.close hx⟩
  · exact keep ⟨ch, h.delete hx⟩
  · exact keep ⟨ch, h.read hx⟩
  · exact keep (h.write h0 h1 hx)
  · exact keep ⟨ch, h.lseek hx⟩
  · exact h.truncate hx

/-- The names given to fs_create, fs_open and fs_delete are not empty. -/
def Call.Named : Call → Prop
  | .create name => name.chars ≠ []
  | .open name => name.chars ≠ []
  | .delete name => name.chars ≠ []
  | _ => True

/-- Calls with non-empty names keep the counts in step with the descriptors. -/
theorem Fds.step {P : UInt8 → Prop} {s s' : FS} {ch : Int → List Int} {c : Call} {r : Ret}
    (h0 : ¬ P 0) (hc : c.IsFs) (hn : c.Named) (h : Files P s ch) (hf : Fds s.directory s.fdArray)
    (hs : s.step c = some (r, s')) : Fds s'.directory s'.fdArray := by
  obtain rfl | ⟨_, rfl, hx⟩ | ⟨_, rfl, hx⟩ | ⟨_, rfl, hx⟩ | ⟨_, rfl, hx⟩ | ⟨_, _, _, rfl, hx⟩ |
    ⟨fildes, _, _, rfl, hx⟩ | ⟨fildes, _, rfl, hx⟩ | ⟨_, _, rfl, hx⟩ := FS.step_cases hc hs
  · exact hf
  · obtain ⟨-, rfl, -⟩ | ⟨inode, i, -, -, hfree, -, hun, -, rfl⟩ := fsCreate_cases hx
    · exact hf
    refine hf.create hun rfl fun j hj he => ?_
    have hmem := h.chains.head_mem hj
    rw [he] at hmem
    exact h.chains.notMem_of_free h0 (freeBlock_eq_some h.shape.super hfree).2 hj hmem
  · obtain ⟨-, rfl, -⟩ | ⟨fildes, i, hfd, hun, -, hi, hname, -, -, rfl⟩ := fsOpen_cases hx
    · exact hf
    have hu := h.shape.used_of_name hn hi hname
    exact hf.open hfd hun hu (h.inj hu)
  · obtain ⟨-, rfl, -⟩ | ⟨i, hfd, hun, hi, -, -, rfl⟩ := fsClose_cases hx
    · exact hf
    obtain ⟨hu, he⟩ := dirIndex_eq_some hi
    exact hf.close hfd hun he (h.inj hu)
  · obtain ⟨-, rfl, -⟩ | ⟨i, s₁, hi, -, hcount, hfree, -, rfl⟩ := fsDelete_cases hx
    · exact hf
    have hu := fsDelete_used h.shape hi hfree
    rw [h.freeChain_eq hu] at hfree
    cases hfree
    exact hf.delete hu hcount rfl
  · obtain rfl | ⟨off, -, -, rfl⟩ := fsRead_cases hx
    · exact hf
    · exact hf.setOffset _ off
  · obtain ⟨-, rfl, -⟩ | ⟨i, ok, s₁, -, -, hi, hrun, hrest⟩ := fsWrite_cases hx
    · exact hf
    have hs₁ := (h.shape.grown (dirIndex_eq_some hi).1 hrun).2
    have hdir : s₁.directory = s.directory := by rw [hs₁]
    have hfds : s₁.fdArray = s.fdArray := by rw [hs₁]
    obtain ⟨-, -, rfl⟩ | ⟨-, hw⟩ := hrest
    · rw [hdir, hfds]; exact hf
    obtain ⟨size, d, fds, rfl, -, hfd, -⟩ := writeData_cases hw
    have hfds' : Fds s.directory fds := by
      rcases hfd with rfl | ⟨off, rfl⟩
      · rw [hfds]; exact hf
      · rw [hfds]; exact hf.setOffset fildes off
    simp only [hdir]
    exact hfds'.congr (sameFile_update ⟨rfl, rfl, rfl⟩) (count_update rfl)
  · obtain ⟨-, rfl, -⟩ | ⟨i, -, -, -, -, -, -, rfl⟩ := fsLseek_cases hx
    · exact hf
    · exact hf.setOffset fildes _
  · obtain ⟨-, rfl, -⟩ | ⟨i, c, table, -, -, -, -, -, -, -, -, rfl⟩ := fsTruncate_cases hx
    · exact hf
    · exact hf.congr (sameFile_update ⟨rfl, rfl, rfl⟩) (count_update rfl)

end EC440.FileSystem
