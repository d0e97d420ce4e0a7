/-
  In one session fs.c implements the store: every call returns, and takes the store of the
  state before it to the store of the state after it.

  `Live` is what the proof carries along a run: the files are in order, the counts are right,
  the disk is open, sizes and offsets are in bounds, and a descriptor not in use leads to no
  file.
-/
import EC440.FileSystem.Store

namespace EC440.FileSystem

open EC440.Lib

/-- Sizes and offsets are in bounds, and a descriptor not in use leads to no file. -/
structure Bounds (dir : Int → DirectoryEntry) (fds : Int → FileDescriptor) : Prop where
  size : ∀ i, Used dir i → 0 ≤ (dir i).size ∧ (dir i).size ≤ maxFilesize
  offset : ∀ fd, IsFd fd → (fds fd).used = true → ∃ i, Used dir i ∧
    (dir i).inodeNumber = (fds fd).inodeNumber ∧ 0 ≤ (fds fd).offset ∧ (fds fd).offset ≤ (dir i).size
  idle : ∀ fd, IsFd fd → (fds fd).used = false → ¬ DataBlock (fds fd).inodeNumber

structure Live (s : FS) (ch : Int → List Int) : Prop where
  files : Files (· = 1) s ch
  fds : Fds s.directory s.fdArray
  sized : Sized s.directory ch
  ready : s.disk.Ready
  bounds : Bounds s.directory s.fdArray

section Abs

variable {P : UInt8 → Prop} {s s' : FS} {ch ch' : Int → List Int}

theorem Files.content_eq (h : Files P s ch) {i : Int} (hi : Used s.directory i) :
    content s (s.directory i) = (List.range (s.directory i).size.toNat).map (blockBytes s.disk (ch i)) := by
  unfold content
  rw [h.chains.fileBlocks_eq hi]

/-- A file that keeps its entry, its chain and the bytes of its blocks. -/
theorem Files.content_frame (h : Files P s ch) (h' : Files P s' ch') {j : Int}
    (hj : Used s.directory j) (hj' : Used s'.directory j)
    (hsize : (s'.directory j).size = (s.directory j).size) (hch : ch' j = ch j)
    (hdisk : ∀ b ∈ ch j, ∀ k, k < blockSize → s'.disk.block b k = s.disk.block b k) :
    content s' (s'.directory j) = content s (s.directory j) := by
  rw [h.content_eq hj, h'.content_eq hj', hsize, hch, blockBytes_congr hdisk]

/-- A file cut to a length begins as it did. -/
theorem Files.content_take (h : Files P s ch) (h' : Files P s' ch') {i : Int} (hi : Used s.directory i)
    (hi' : Used s'.directory i) (hdisk : s'.disk = s.disk) {l : List Int} (hch : ch i = ch' i ++ l)
    (hle : (s'.directory i).size ≤ (s.directory i).size)
    (hroom : (s'.directory i).size ≤ blockSize * (ch' i).length) :
    content s' (s'.directory i) = (content s (s.directory i)).take (s'.directory i).size.toNat := by
  rw [h'.content_eq hi', h.content_eq hi, hdisk, hch, ← List.map_take, List.take_range,
    Nat.min_eq_left (by omega)]
  refine List.map_congr_left fun p hp => ?_
  have hp' := List.mem_range.mp hp
  rw [blockBytes_append (by unfold blockSize at *; omega)]

theorem Files.abs_desc (h : Files P s ch) {fd i : Int} (hfd : IsFd fd)
    (hu : (s.fdArray fd).used = true) (hi : Used s.directory i)
    (he : (s.directory i).inodeNumber = (s.fdArray fd).inodeNumber) :
    (abs s).descs fd = some (cstr (s.directory i).name, (s.fdArray fd).offset.toNat) := by
  simp only [abs, hfd, hu, true_and, if_true, ← he, h.chains.dirIndex_eq hi, Option.map_some]

theorem abs_desc_none {fd : Int} (h : ¬ (IsFd fd ∧ (s.fdArray fd).used = true)) :
    (abs s).descs fd = none := by
  simp only [abs, h, if_false]

/-- A descriptor of the store is a descriptor in use. -/
theorem Live.desc_iff (h : Live s ch) {fd : Int} :
    (abs s).descs fd ≠ none ↔ IsFd fd ∧ (s.fdArray fd).used = true := by
  constructor
  · intro hn
    by_contra hc
    exact hn (abs_desc_none hc)
  · rintro ⟨hfd, hu⟩
    obtain ⟨i, hi, he, -⟩ := h.bounds.offset fd hfd hu
    rw [h.files.abs_desc hfd hu hi he]
    simp

/-- The descriptor and the file behind a descriptor of the store. -/
theorem Live.of_desc (h : Live s ch) {fd : Int} (hn : (abs s).descs fd ≠ none) :
    ∃ i, IsFd fd ∧ (s.fdArray fd).used = true ∧ Used s.directory i ∧
      (s.directory i).inodeNumber = (s.fdArray fd).inodeNumber ∧
      (abs s).descs fd = some (cstr (s.directory i).name, (s.fdArray fd).offset.toNat) ∧
      0 ≤ (s.fdArray fd).offset ∧ (s.fdArray fd).offset ≤ (s.directory i).size := by
  obtain ⟨hfd, hu⟩ := h.desc_iff.mp hn
  obtain ⟨i, hi, he, h1, h2⟩ := h.bounds.offset fd hfd hu
  exact ⟨i, hfd, hu, hi, he, h.files.abs_desc hfd hu hi he, h1, h2⟩

/-- An unchanged descriptor whose file keeps its entry and name. -/
theorem Files.abs_desc_congr (h : Files P s ch) (hf : Fds s.directory s.fdArray) (h' : Files P s' ch')
    {fd : Int} (hfd : s'.fdArray fd = s.fdArray fd)
    (hd : ∀ i, IsFd fd → (s.fdArray fd).used = true → Used s.directory i →
      (s.directory i).inodeNumber = (s.fdArray fd).inodeNumber →
      Used s'.directory i ∧ (s'.directory i).inodeNumber = (s.directory i).inodeNumber ∧
        (s'.directory i).name = (s.directory i).name) :
    (abs s').descs fd = (abs s).descs fd := by
  by_cases hu : IsFd fd ∧ (s.fdArray fd).used = true
  · obtain ⟨i, hi, he⟩ := hf.linked fd hu.1 hu.2
    obtain ⟨hi', he', hn⟩ := hd i hu.1 hu.2 hi he
    rw [h.abs_desc hu.1 hu.2 hi he, h'.abs_desc hu.1 (by rw [hfd]; exact hu.2) hi'
      (by rw [he', hfd]; exact he), hn, hfd]
  · rw [abs_desc_none hu, abs_desc_none (by rw [hfd]; exact hu)]

/-- The store is determined by its parts. -/
theorem abs_eq (files : List UInt8 → Option (List UInt8)) (descs : Int → Option (List UInt8 × Nat))
    (hf : ∀ n, (abs s).files n = files n) (hd : ∀ fd, (abs s).descs fd = descs fd) :
    abs s = { files := files, descs := descs, full := (abs s).full } := by
  rw [← funext hf, ← funext hd]

/-- The store after a change of descriptors only. -/
theorem abs_fds {fds : Int → FileDescriptor} {descs : Int → Option (List UInt8 × Nat)}
    (hd : ∀ fd, (abs { s with fdArray := fds }).descs fd = descs fd) :
    abs { s with fdArray := fds } = { abs s with descs := descs } :=
  abs_eq _ _ (fun _ => rfl) hd

end Abs

/-! ## The bounds -/

theorem Live.count_le {s : FS} {ch : Int → List Int} (h : Live s ch) {i : Int} (hi : Used s.directory i) :
    0 ≤ (s.directory i).count ∧ (s.directory i).count ≤ 32 := by
  rw [h.fds.count i hi]
  have := openCount_le s.fdArray (s.directory i).inodeNumber
  omega

theorem Fresh.live {s : FS} {d : String} (h : Fresh s d)
    (hidle : ∀ fd, ¬ DataBlock (s.fdArray fd).inodeNumber) : Live s (fun _ => []) where
  files := h.files _ _
  fds := h.fds
  sized := fun i hi => absurd hi (h.noFile i)
  ready := h.ready
  bounds :=
    { size := fun i hi => absurd hi (h.noFile i)
      offset := fun fd _ hu => by rw [h.noFd fd] at hu; cases hu
      idle := fun fd _ _ => hidle fd }

section Bounds

variable {dir dir' : Int → DirectoryEntry} {fds : Int → FileDescriptor}

/-- The entries that descriptors lead to are kept. -/
theorem Bounds.change (h : Bounds dir fds)
    (hsize : ∀ i, Used dir' i → 0 ≤ (dir' i).size ∧ (dir' i).size ≤ maxFilesize)
    (hkeep : ∀ fd i, IsFd fd → (fds fd).used = true → Used dir i →
      (dir i).inodeNumber = (fds fd).inodeNumber →
      Used dir' i ∧ (dir' i).inodeNumber = (dir i).inodeNumber ∧ (dir i).size ≤ (dir' i).size) :
    Bounds dir' fds where
  size := hsize
  offset := fun fd hfd hu => by
    obtain ⟨i, hi, he, h1, h2⟩ := h.offset fd hfd hu
    obtain ⟨hi', he', hs⟩ := hkeep fd i hfd hu hi he
    exact ⟨i, hi', he'.trans he, h1, h2.trans hs⟩
  idle := h.idle

/-- One descriptor is changed. -/
theorem Bounds.setFd (h : Bounds dir fds) {fd : Int} {f : FileDescriptor}
    (hu : f.used = true → ∃ i, Used dir i ∧ (dir i).inodeNumber = f.inodeNumber ∧ 0 ≤ f.offset ∧
      f.offset ≤ (dir i).size)
    (hn : f.used = false → ¬ DataBlock f.inodeNumber) : Bounds dir (Function.update fds fd f) where
  size := h.size
  offset := fun x hx hux => by
    by_cases hxf : x = fd
    · subst hxf
      rw [Function.update_self] at hux ⊢
      exact hu hux
    · rw [Function.update_of_ne hxf] at hux ⊢
      exact h.offset x hx hux
  idle := fun x hx hux => by
    by_cases hxf : x = fd
    · subst hxf
      rw [Function.update_self] at hux ⊢
      exact hn hux
    · rw [Function.update_of_ne hxf] at hux ⊢
      exact h.idle x hx hux

/-- Only counts are changed. -/
theorem Bounds.setCount (h : Bounds dir fds) (i c : Int) :
    Bounds (Function.update dir i { dir i with count := c }) fds := by
  have hs : ∀ j, SameFile (dir j) (Function.update dir i { dir i with count := c } j) :=
    sameFile_update ⟨rfl, rfl, rfl⟩
  have hz : ∀ j, (Function.update dir i { dir i with count := c } j).size = (dir j).size := by
    intro j
    by_cases hj : j = i
    · subst hj; simp
    · rw [Function.update_of_ne hj]
  refine h.change (fun j hj => ?_) fun fd j _ _ hj _ => ?_
  · rw [hz]; exact h.size j ((used_congr hs).mp hj)
  · exact ⟨(used_congr hs).mpr hj, (hs j).2.1, by rw [hz]⟩

end Bounds

/-! ## The files beside one entry -/

section Beside
variable {s s' : FS} {ch ch' : Int → List Int} {i : Int} (h : Live s ch)
  (hother : ∀ j, j ≠ i → s'.directory j = s.directory j)
include hother

theorem used_beside {j : Int} (hj : j ≠ i) : Used s'.directory j ↔ Used s.directory j := by
  unfold Used
  rw [hother j hj]

include h

/-- No file but that of the changed entry loses or gains a byte. -/
theorem Live.abs_files_beside (h' : Files (· = 1) s' ch') (hdisk : s'.disk = s.disk)
    (hch : ∀ j, j ≠ i → ch' j = ch j) {n : List UInt8}
    (hold : Used s.directory i → cstr (s.directory i).name ≠ n)
    (hnew : Used s'.directory i → cstr (s'.directory i).name ≠ n) : (abs s').files n = (abs s).files n := by
  refine abs_files_congr h.files.shape h'.shape (fun j => ?_) fun j hj he => ?_
  · by_cases hji : j = i
    · subst hji
      exact ⟨fun hj => absurd hj.2 (hold hj.1), fun hj => absurd hj.2 (hnew hj.1)⟩
    · rw [used_beside hother hji, hother j hji]
  · have hji : j ≠ i := by
      rintro rfl
      exact hold hj he
    exact h.files.content_frame h' hj ((used_beside hother hji).mpr hj) (by rw [hother j hji]) (hch j hji)
      fun b _ k _ => by rw [hdisk]

variable (hfdA : s'.fdArray = s.fdArray)
  (hne : ∀ fd, IsFd fd → (s.fdArray fd).used = true → Used s.directory i →
    (s.directory i).inodeNumber ≠ (s.fdArray fd).inodeNumber)
include hfdA hne

/-- With no descriptor open on the changed entry the descriptors stay on their files. -/
theorem Live.abs_descs_beside (h' : Files (· = 1) s' ch') (fd : Int) :
    (abs s').descs fd = (abs s).descs fd := by
  refine h.files.abs_desc_congr h.fds h' (by rw [hfdA]) fun j hfd hused hj he => ?_
  have hji : j ≠ i := by
    rintro rfl
    exact hne fd hfd hused hj he
  exact ⟨(used_beside hother hji).mpr hj, by rw [hother j hji], by rw [hother j hji]⟩

theorem Live.bounds_beside
    (hsize : Used s'.directory i → 0 ≤ (s'.directory i).size ∧ (s'.directory i).size ≤ maxFilesize) :
    Bounds s'.directory s'.fdArray := by
  rw [hfdA]
  refine h.bounds.change (fun j hj => ?_) fun fd j hfd hused hj he => ?_
  · by_cases hji : j = i
    · subst hji
      exact hsize hj
    · rw [hother j hji]
      exact h.bounds.size j ((used_beside hother hji).mp hj)
  · have hji : j ≠ i := by
      rintro rfl
      exact hne fd hfd hused hj he
    exact ⟨(used_beside hother hji).mpr hj, by rw [hother j hji], by rw [hother j hji]⟩

end Beside

/-! ## fs_create -/

theorem fsCreate_returns {s : FS} (hs : s.super = makeSuper) (name : CString) :
    ∃ r s', fsCreate s name = some (r, s') := by
  unfold fsCreate
  split
  · exact ⟨_, _, rfl⟩
  split
  · exact ⟨_, _, rfl⟩
  split
  · exact ⟨_, _, rfl⟩
  next hcount =>
  rw [if_neg (by rw [hs]; decide)]
  split
  · exact ⟨_, _, rfl⟩
  obtain ⟨i, hi, hun⟩ := exists_unused hcount
  split
  · next hnone =>
      have := firstIn_eq_none.mp hnone i hi.1 hi.2
      simp [hun] at this
  · exact ⟨_, _, rfl⟩

theorem usedEntries_lt {dir : Int → DirectoryEntry} {i : Int} (hi : IsSlot i) (hun : (dir i).used = false) :
    usedEntries dir < 64 := by
  refine lt_of_le_of_ne (usedEntries_le dir) fun he => ?_
  unfold usedEntries at he
  have hall := List.countP_eq_length.mp (he.trans (by rw [List.length_range]; rfl))
  unfold IsSlot maxNumOfFiles at hi
  have := hall i.toNat (List.mem_range.mpr (by unfold maxNumOfFiles; omega))
  rw [Int.toNat_of_nonneg hi.1, hun] at this
  cases this

theorem Live.create {s : FS} {ch : Int → List Int} (h : Live s ch) (name : CString) :
    ∃ r s' ch', fsCreate s name = some (r, s') ∧ Live s' ch' ∧
      Store.Step (abs s) (.create name, { code := r }) (abs s') := by
  obtain ⟨r, s', hc⟩ := fsCreate_returns h.files.shape.super name
  have hshape := h.files.shape.create hc
  obtain ⟨rfl, rfl, hwhy⟩ | ⟨inode, i, hlen, hnew, hfree, hi, hun, rfl, hs'⟩ := fsCreate_cases hc
  · refine ⟨-1, s', ch, hc, h, .createFail ?_⟩
    rcases hwhy with hl | ⟨i, hi, he⟩ | hn | hf
    · exact .inl hl
    · exact .inr (.inl fun hnone => abs_file_none.mp hnone i hi he)
    · refine .inr (.inr (.inl ?_))
      rw [← h.files.shape.dir.usedEntries_eq]
      unfold maxNumOfFiles at hn
      omega
    · exact .inr (.inr (.inr (by simp [abs, hf])))
  obtain ⟨hb, hbit⟩ := freeBlock_eq_some h.files.shape.super hfree
  have hdisk : s'.disk = s.disk := by rw [hs']
  have hfdA : s'.fdArray = s.fdArray := by rw [hs']
  have hi' : Used s'.directory i := ⟨hi, by rw [hs']; simp⟩
  have hname : cstr (s'.directory i).name = name.chars := by rw [hs']; simp [cstr_strcpy]
  have hsize : (s'.directory i).size = 0 := by rw [hs']; simp
  have hother : ∀ j, j ≠ i → s'.directory j = s.directory j := fun j hj => by
    rw [hs']; exact Function.update_of_ne hj _ _
  have hnot : ¬ Used s.directory i := fun hj => by
    rw [hj.2] at hun
    cases hun
  have hfiles : Files (· = 1) s' (Function.update ch i [inode]) := by
    refine ⟨hshape, ?_⟩
    rw [hs']
    exact h.files.chains.create (P := (· = 1)) (by decide) rfl hb hbit rfl 1
  have hlive : Live s' (Function.update ch i [inode]) :=
    { files := hfiles
      fds := by
        rw [hs']
        refine h.fds.create hun rfl fun j hj he => ?_
        have hmem := h.files.chains.head_mem hj
        rw [he] at hmem
        exact h.files.chains.notMem_of_free (P := (· = 1)) (by decide) hbit hj hmem
      sized := by
        rw [hs']
        exact h.sized.update (by simp)
      ready := by rw [hdisk]; exact h.ready
      bounds := h.bounds_beside hother hfdA (fun _ _ _ hj => absurd hj hnot) fun _ => by rw [hsize]; decide }
  refine ⟨0, s', _, hc, hlive, ?_⟩
  rw [abs_eq (s := s') (Function.update (abs s).files name.chars (some [])) (abs s).descs
    (fun n => ?_) (fun fd => ?_)]
  · refine .create _ hlen (abs_file_none.mpr hnew) ?_ (by simp [abs, hfree])
    rw [← h.files.shape.dir.usedEntries_eq]
    exact usedEntries_lt hi hun
  · by_cases hn : n = name.chars
    · subst hn
      rw [Function.update_self, ← hname, hshape.abs_file hi', hfiles.content_eq hi', hsize]
      rfl
    · rw [Function.update_of_ne hn]
      refine h.abs_files_beside hother hfiles hdisk (fun j hj => Function.update_of_ne hj _ _)
        (fun hj => absurd hj hnot) fun _ => ?_
      rw [hname]
      exact Ne.symm hn
  · exact h.abs_descs_beside hother hfdA (fun _ _ _ hj => absurd hj hnot) hfiles fd

/-! ## fs_open, fs_close, fs_delete -/

/-- A change of the counts alone leaves the files of the store. -/
theorem abs_files_setCount {s s' : FS} {ch : Int → List Int} (h : Files (· = 1) s ch)
    (h' : Files (· = 1) s' ch) (hdisk : s'.disk = s.disk) {i c : Int}
    (hdir : s'.directory = Function.update s.directory i { s.directory i with count := c }) (n : List UInt8) :
    (abs s').files n = (abs s).files n := by
  have hs : ∀ j, SameFile (s.directory j) (s'.directory j) := by
    rw [hdir]; exact sameFile_update ⟨rfl, rfl, rfl⟩
  have hz : ∀ j, (s'.directory j).size = (s.directory j).size := by
    intro j
    rw [hdir]
    by_cases hj : j = i
    · subst hj; simp
    · rw [Function.update_of_ne hj]
  refine abs_files_congr h.shape h'.shape (fun j => ?_) fun j hj _ => ?_
  · rw [used_congr hs, (hs j).2.2]
  · exact h.content_frame h' hj ((used_congr hs).mpr hj) (hz j) rfl fun b _ k _ => by rw [hdisk]

theorem Live.open {s : FS} {ch : Int → List Int} (h : Live s ch) {name : CString} (hn : name.chars ≠ []) :
    ∃ r s' ch', fsOpen s name = some (r, s') ∧ Live s' ch' ∧
      Store.Step (abs s) (.open name, { code := r }) (abs s') := by
  have hret : ∃ r s', fsOpen s name = some (r, s') := by
    unfold fsOpen
    split
    · exact ⟨_, _, rfl⟩
    split
    · exact ⟨_, _, rfl⟩
    next i hi =>
    obtain ⟨hslot, hname⟩ := nameIndex_eq_some hi
    have := h.count_le (h.files.shape.used_of_name hn hslot hname)
    dsimp only
    rw [if_neg (by omega)]
    exact ⟨_, _, rfl⟩
  obtain ⟨r, s', hc⟩ := hret
  obtain ⟨hfiles, hsized, -⟩ := h.files.open hc
  have hfds : Fds s'.directory s'.fdArray := Fds.step (P := (· = 1)) (c := .open name)
    (r := { code := r }) (by decide) trivial hn h.files h.fds (by simp [FS.step, codeOnly, hc])
  obtain ⟨rfl, rfl, hwhy⟩ | ⟨fd, i, hfd, hun, hlow, hi, hname, -, rfl, hs'⟩ := fsOpen_cases hc
  · refine ⟨-1, s', ch, hc, h, .openFail ?_⟩
    rcases hwhy with hall | hno
    · exact .inl fun fd hfd => h.desc_iff.mpr ⟨hfd, hall fd hfd⟩
    · exact .inr (abs_file_none.mpr fun i hi => hno i hi.1)
  have hu := h.files.shape.used_of_name hn hi hname
  have hdir : s'.directory = Function.update s.directory i
      { s.directory i with count := (s.directory i).count + 1 } := by rw [hs']
  have hfdA : s'.fdArray = Function.update s.fdArray r
      { used := true, inodeNumber := (s.directory i).inodeNumber, offset := 0 } := by rw [hs']
  have hsame : ∀ j, SameFile (s.directory j) (s'.directory j) := by
    rw [hdir]; exact sameFile_update ⟨rfl, rfl, rfl⟩
  have hlive : Live s' ch :=
    { files := hfiles
      fds := hfds
      sized := hsized h.sized
      ready := by rw [hs']; exact h.ready
      bounds := by
        rw [hdir, hfdA]
        refine (h.bounds.setCount i _).setFd (fun _ => ⟨i, ?_, ?_, le_refl 0, ?_⟩) fun hf => by cases hf
        · exact hdir ▸ (used_congr hsame).mpr hu
        · simp
        · simpa using (h.bounds.size i hu).1 }
  refine ⟨r, s', ch, hc, hlive, ?_⟩
  have hnone : (abs s).descs r = none := abs_desc_none fun hx => by rw [hun] at hx; exact absurd hx.2 (by decide)
  have heq : abs s' = { abs s with descs := Function.update (abs s).descs r (some (name.chars, 0)) } := by
    rw [abs_eq (s := s') (abs s).files (Function.update (abs s).descs r (some (name.chars, 0)))
      (fun n => abs_files_setCount h.files hfiles (by rw [hs']) hdir n) (fun fd => ?_)]
    · rw [Store.mk.injEq]
      exact ⟨rfl, rfl, by rw [hs']; rfl⟩
    · by_cases hx : fd = r
      · subst hx
        rw [Function.update_self, hlive.files.abs_desc hfd (by rw [hfdA]; simp)
          ((used_congr hsame).mpr hu) (by rw [hfdA, (hsame i).2.1]; simp), (hsame i).2.2, ← hname, hfdA]
        simp
      · rw [Function.update_of_ne hx]
        refine h.files.abs_desc_congr h.fds hfiles (by rw [hfdA, Function.update_of_ne hx]) ?_
        exact fun j _ _ hj _ => ⟨(used_congr hsame).mpr hj, (hsame j).2.1, (hsame j).2.2⟩
  rw [heq]
  refine .open hfd hnone (fun k h1 h2 => ?_) ?_
  · unfold IsFd at hfd
    exact h.desc_iff.mpr ⟨⟨h1, by omega⟩, hlow k h1 h2⟩
  · rw [hname, h.files.shape.abs_file hu]
    simp

/-- A descriptor not in use has no file. -/
theorem Live.dirIndex_idle {s : FS} {ch : Int → List Int} (h : Live s ch) {fd : Int} (hfd : IsFd fd)
    (hun : (s.fdArray fd).used = false) : dirIndex s.directory (s.fdArray fd).inodeNumber = none := by
  rw [dirIndex_eq_none]
  intro i hi he
  exact h.bounds.idle fd hfd hun (he ▸ (h.files.shape.dir.inode i hi.1).mp hi.2)

theorem Live.close {s : FS} {ch : Int → List Int} (h : Live s ch) {fd : Int} (hfd : IsFd fd) :
    ∃ r s' ch', fsClose s fd = some (r, s') ∧ Live s' ch' ∧
      Store.Step (abs s) (.close fd, { code := r }) (abs s') := by
  have hfd' := hfd
  unfold IsFd at hfd'
  cases hu : (s.fdArray fd).used with
  | false =>
      refine ⟨-1, s, ch, ?_, h, .closeFail (abs_desc_none fun hx => ?_)⟩
      · unfold fsClose
        rw [if_neg (by omega), h.dirIndex_idle hfd hu]
      · rw [hu] at hx; exact absurd hx.2 (by decide)
  | true =>
      obtain ⟨i, hi, he, hidx⟩ := h.files.fd_index h.fds hfd hu
      have hcount := h.count_le hi
      have hret : ∃ r s', fsClose s fd = some (r, s') := by
        unfold fsClose
        rw [if_neg (by omega), hidx]
        dsimp only
        rw [if_neg (by simp [hu]), if_neg (by omega)]
        exact ⟨_, _, rfl⟩
      obtain ⟨r, s', hc⟩ := hret
      obtain ⟨hfiles, hsized, -⟩ := h.files.close hc
      have hfds : Fds s'.directory s'.fdArray := Fds.step (P := (· = 1)) (c := .close fd)
        (r := { code := r }) (by decide) trivial trivial h.files h.fds (by simp [FS.step, codeOnly, hc])
      obtain ⟨-, -, hx | hx⟩ | ⟨index, -, -, hidx', -, rfl, hs'⟩ := fsClose_cases hc
      · rw [hidx] at hx; cases hx
      · rw [hu] at hx; cases hx
      rw [hidx] at hidx'
      cases hidx'
      have hdir : s'.directory = Function.update s.directory i
          { s.directory i with count := (s.directory i).count - 1 } := by rw [hs']
      have hfdA : s'.fdArray = Function.update s.fdArray fd
          { used := false, inodeNumber := -1, offset := 0 } := by rw [hs']
      have hsame : ∀ j, SameFile (s.directory j) (s'.directory j) := by
        rw [hdir]; exact sameFile_update ⟨rfl, rfl, rfl⟩
      refine ⟨0, s', ch, hc,
        { files := hfiles
          fds := hfds
          sized := hsized h.sized
          ready := by rw [hs']; exact h.ready
          bounds := by
            rw [hdir, hfdA]
            exact (h.bounds.setCount i _).setFd (fun hf => by cases hf) fun _ => by decide }, ?_⟩
      have heq : abs s' = { abs s with descs := Function.update (abs s).descs fd none } := by
        rw [abs_eq (s := s') (abs s).files (Function.update (abs s).descs fd none)
          (fun n => abs_files_setCount h.files hfiles (by rw [hs']) hdir n) (fun x => ?_)]
        · rw [Store.mk.injEq]
          exact ⟨rfl, rfl, by rw [hs']; rfl⟩
        · by_cases hx : x = fd
          · subst hx
            rw [Function.update_self]
            exact abs_desc_none fun hx => absurd hx.2 (by rw [hfdA]; simp)
          · rw [Function.update_of_ne hx]
            refine h.files.abs_desc_congr h.fds hfiles (by rw [hfdA, Function.update_of_ne hx]) ?_
            exact fun j _ _ hj _ => ⟨(used_congr hsame).mpr hj, (hsame j).2.1, (hsame j).2.2⟩
      rw [heq]
      exact .close (h.desc_iff.mpr ⟨hfd, hu⟩)

theorem Live.delete {s : FS} {ch : Int → List Int} (h : Live s ch) {name : CString}
    (hn : name.chars ≠ []) : ∃ r s' ch', fsDelete s name = some (r, s') ∧ Live s' ch' ∧
      Store.Step (abs s) (.delete name, { code := r }) (abs s') := by
  have hret : ∃ r s', fsDelete s name = some (r, s') := by
    unfold fsDelete
    split
    · exact ⟨_, _, rfl⟩
    next i hi =>
    obtain ⟨hslot, hname⟩ := nameIndex_eq_some hi
    split
    · exact ⟨_, _, rfl⟩
    · rw [h.files.freeChain_eq (h.files.shape.used_of_name hn hslot hname)]
      exact ⟨_, _, rfl⟩
  obtain ⟨r, s', hc⟩ := hret
  obtain ⟨hfiles, hsized, -⟩ := h.files.delete hc
  have hfds : Fds s'.directory s'.fdArray := Fds.step (P := (· = 1)) (c := .delete name)
    (r := { code := r }) (by decide) trivial hn h.files h.fds (by simp [FS.step, codeOnly, hc])
  obtain ⟨rfl, rfl, hwhy⟩ | ⟨i, s₁, hi, hname, hcount, hfree, rfl, hs'⟩ := fsDelete_cases hc
  · refine ⟨-1, s', ch, hc, h, .deleteFail ?_⟩
    rcases hwhy with hno | ⟨i, hi, hname, hpos⟩
    · exact .inl (abs_file_none.mpr fun i hi => hno i hi.1)
    · -- a positive count means an open descriptor
      have hu := h.files.shape.used_of_name hn hi hname
      have hne : openCount s'.fdArray (s'.directory i).inodeNumber ≠ 0 := by
        have := h.fds.count i hu
        omega
      rw [ne_eq, openCount_eq_zero] at hne
      push Not at hne
      obtain ⟨fd, hfd, hused, he⟩ := hne
      exact .inr ⟨fd, _, by rw [h.files.abs_desc hfd hused hu he.symm, hname]⟩
  have hu := h.files.shape.used_of_name hn hi hname
  rw [h.files.freeChain_eq hu] at hfree
  cases hfree
  have hun : (s'.directory i).used = false := by rw [hs']; simp
  have hother : ∀ j, j ≠ i → s'.directory j = s.directory j := fun j hj => by
    rw [hs']; exact Function.update_of_ne hj _ _
  have hfdA : s'.fdArray = s.fdArray := by rw [hs']
  have hdisk : s'.disk = s.disk := by rw [hs']
  have hnot : ¬ Used s'.directory i := fun hj => by
    rw [hj.2] at hun
    cases hun
  -- no descriptor leads to the deleted file
  have hzero : openCount s.fdArray (s.directory i).inodeNumber = 0 := by
    have := h.fds.count i hu
    omega
  have hne : ∀ fd, IsFd fd → (s.fdArray fd).used = true → Used s.directory i →
      (s.directory i).inodeNumber ≠ (s.fdArray fd).inodeNumber :=
    fun fd hfd hused _ he => openCount_eq_zero.mp hzero fd hfd hused he.symm
  refine ⟨0, s', ch, hc,
    { files := hfiles
      fds := hfds
      sized := hsized h.sized
      ready := by rw [hdisk]; exact h.ready
      bounds := h.bounds_beside hother hfdA hne fun hj => absurd hj hnot }, ?_⟩
  rw [abs_eq (s := s') (Function.update (abs s).files name.chars none) (abs s).descs (fun n => ?_)
    (h.abs_descs_beside hother hfdA hne hfiles)]
  · refine .delete _ ?_ fun fd off hd => ?_
    · rw [hname, h.files.shape.abs_file hu]; simp
    · obtain ⟨j, hfd, hused, hj, he, hdj, -⟩ :=
        h.of_desc (show (abs s).descs fd ≠ none by rw [hd]; simp)
      rw [hd, Option.some.injEq, Prod.mk.injEq, hname] at hdj
      obtain rfl := h.files.shape.dir.names j i hj hu hdj.1.symm
      exact hne fd hfd hused hj he
  · by_cases hnn : n = name.chars
    · subst hnn
      rw [Function.update_self, abs_file_none]
      intro j hj he
      have hji : j ≠ i := by
        rintro rfl
        exact hnot hj
      rw [hother j hji] at he
      exact hji (h.files.shape.dir.names j i ((used_beside hother hji).mp hj) hu (he.symm.trans hname))
    · rw [Function.update_of_ne hnn]
      refine h.abs_files_beside hother hfiles hdisk (fun _ _ => rfl) (fun _ => ?_) fun hj => absurd hj hnot
      rw [← hname]
      exact Ne.symm hnn

/-! ## fs_get_filesize, fs_listfiles, fs_lseek -/

theorem Live.size_eq {s : FS} {ch : Int → List Int} (h : Live s ch) {i : Int}
    (hi : Used s.directory i) : ((content s (s.directory i)).length : Int) = (s.directory i).size := by
  rw [length_content]
  have := (h.bounds.size i hi).1
  omega

theorem Live.getFilesize {s : FS} {ch : Int → List Int} (h : Live s ch) {fd : Int} (hfd : IsFd fd) :
    ∃ r, fsGetFilesize s fd = some (r, s) ∧
      Store.Step (abs s) (.getFilesize fd, { code := r }) (abs s) := by
  have hfd' := hfd
  unfold IsFd at hfd'
  unfold fsGetFilesize
  rw [if_neg (by omega)]
  cases hu : (s.fdArray fd).used with
  | false =>
      rw [h.dirIndex_idle hfd hu]
      refine ⟨-1, rfl, .getFilesizeFail (abs_desc_none fun hx => ?_)⟩
      rw [hu] at hx; exact absurd hx.2 (by decide)
  | true =>
      obtain ⟨i, hi, he, hidx⟩ := h.files.fd_index h.fds hfd hu
      rw [hidx]
      refine ⟨(s.directory i).size, rfl, ?_⟩
      rw [← h.size_eq hi]
      exact .getFilesize (h.files.abs_desc hfd hu hi he) (h.files.shape.abs_file hi)

theorem Live.listfiles {s : FS} {ch : Int → List Int} (h : Live s ch) :
    Store.Step (abs s) (.listfiles, { code := 0, names := fsListfiles s }) (abs s) :=
  .listfiles h.files.shape.dir.listfiles_nodup fun _ => mem_fsListfiles

/-- The descriptor `fd` moved to `off`. -/
def moveTo (s : FS) (fd off : Int) : FS :=
  { s with fdArray := Function.update s.fdArray fd { s.fdArray fd with offset := off } }

/-- A descriptor of a file gets another offset. -/
theorem Live.setOffset {s : FS} {ch : Int → List Int} (h : Live s ch) {fd i : Int} (off : Int) (hfd : IsFd fd)
    (hu : (s.fdArray fd).used = true) (hi : Used s.directory i)
    (he : (s.directory i).inodeNumber = (s.fdArray fd).inodeNumber) (h0 : 0 ≤ off)
    (h1 : off ≤ (s.directory i).size) :
    Live (moveTo s fd off) ch ∧ abs (moveTo s fd off) = { abs s with
      descs := Function.update (abs s).descs fd (some (cstr (s.directory i).name, off.toNat)) } := by
  have hfiles : Files (· = 1) (moveTo s fd off) ch :=
    ⟨⟨h.files.shape.super, h.files.shape.table, h.files.shape.dir⟩, h.files.chains⟩
  refine ⟨⟨hfiles, h.fds.setOffset fd off, h.sized, h.ready, h.bounds.setFd (fun _ => ⟨i, hi, he, h0, h1⟩)
    fun hf => absurd (hf.symm.trans hu) (by decide)⟩, abs_fds fun x => ?_⟩
  by_cases hx : x = fd
  · subst hx
    have hself : (moveTo s x off).fdArray x = { s.fdArray x with offset := off } :=
      Function.update_self x _ _
    rw [Function.update_self]
    refine (hfiles.abs_desc hfd (by rw [hself]; exact hu) hi (by rw [hself]; exact he)).trans ?_
    rw [hself]
    rfl
  · rw [Function.update_of_ne hx]
    exact h.files.abs_desc_congr h.fds hfiles (Function.update_of_ne hx _ _)
      fun j _ _ hj _ => ⟨hj, rfl, rfl⟩

theorem Live.lseek {s : FS} {ch : Int → List Int} (h : Live s ch) {fd : Int} (hfd : IsFd fd)
    (offset : Int) : ∃ r s' ch', fsLseek s fd offset = some (r, s') ∧ Live s' ch' ∧
      Store.Step (abs s) (.lseek fd offset, { code := r }) (abs s') := by
  have hfd' := hfd
  unfold IsFd maxFileDescriptor at hfd'
  unfold fsLseek
  rw [if_neg (by unfold maxFileDescriptor; omega), if_neg (by unfold maxFileDescriptor; omega)]
  cases hu : (s.fdArray fd).used with
  | false =>
      rw [if_pos (by simp)]
      refine ⟨-1, s, ch, rfl, h, .lseekFail fun name off bytes hd => ?_⟩
      rw [abs_desc_none fun hx => by rw [hu] at hx; exact absurd hx.2 (by decide)] at hd
      cases hd
  | true =>
      obtain ⟨i, hi, he, hidx⟩ := h.files.fd_index h.fds hfd hu
      have hsize := h.bounds.size i hi
      rw [if_neg (by simp), hidx]
      dsimp only
      by_cases ho : offset < 0 ∨ (s.directory i).size < offset
      · rw [if_pos ho]
        refine ⟨-1, s, ch, rfl, h, .lseekFail fun name off bytes hd hb => ?_⟩
        rw [h.files.abs_desc hfd hu hi he, Option.some.injEq, Prod.mk.injEq] at hd
        rw [← hd.1, h.files.shape.abs_file hi, Option.some.injEq] at hb
        rw [← hb, h.size_eq hi]
        exact ho
      · rw [if_neg ho]
        have hint : toInt32 offset = offset :=
          toInt32_of_isInt32 (by unfold IsInt32; unfold maxFilesize at hsize; omega)
        obtain ⟨hl, ha⟩ := h.setOffset offset hfd hu hi he (by omega) (by omega)
        rw [hint]
        refine ⟨0, moveTo s fd offset, ch, rfl, hl, ?_⟩
        rw [ha]
        exact .lseek (h.files.abs_desc hfd hu hi he) (h.files.shape.abs_file hi) (by omega)
          (by rw [h.size_eq hi]; omega)

/-! ## fs_read -/

theorem sizeT_of_lt {x : Int} (h0 : 0 ≤ x) (h1 : x < 18446744073709551616) : sizeT x = x :=
  Int.emod_eq_of_lt h0 h1

theorem extent_eq {size : Int} (h0 : 0 ≤ size) (h1 : size ≤ 2147479552) :
    extent size = some (((size.toNat - 1) / blockSize + 1 : Nat) : Int) := by
  have hdiv : (size - 1).tdiv blockSize = (((size.toNat - 1) / blockSize : Nat) : Int) := by
    by_cases hz : size = 0
    · subst hz; decide
    · rw [Int.tdiv_eq_ediv_of_nonneg (by omega)]
      unfold blockSize
      omega
  unfold extent
  rw [hdiv]
  unfold blockSize
  dsimp only
  rw [if_neg (by omega)]
  rfl

/-- The blocks that fs_read and fs_write count by the size are on the chain. -/
theorem blocks_le (size : Int) {l : List Int} (hl : size ≤ blockSize * l.length)
    (hne : l ≠ []) : (size.toNat - 1) / blockSize + 1 ≤ l.length := by
  have := List.length_pos_of_ne_nil hne
  unfold blockSize at *
  omega

/-- The buffer fs_read and fs_write fill with the file. -/
theorem Files.readAll_eq {P : UInt8 → Prop} {s : FS} {ch : Int → List Int} (h : Files P s ch)
    (hr : s.disk.Ready) {i : Int} (hi : Used s.directory i) {n : Nat} (hn : n ≤ (ch i).length) :
    ∃ buf, readAll s n (s.directory i).inodeNumber 0 (fun _ => 0) = some buf ∧
      readFile s n (s.directory i).inodeNumber 0 (fun _ => 0) = some buf ∧
      ∀ p, p < n * blockSize → buf p = blockBytes s.disk (ch i) p := by
  have hin : ∀ b ∈ ch i, InBlocks b := fun b hb => (h.chains.blocks i hi b hb).1.inBlocks
  obtain ⟨buf, hrun, hbuf⟩ := readAll_spec hr n 0 (fun _ => 0) (h.chains.chain i hi) hin hn
  have hfile := readFile_eq_readAll hr n 0 (fun _ => 0) (h.chains.chain i hi) hin hn
  rw [Option.getD_some] at hrun hfile
  refine ⟨buf, hrun, hfile.trans hrun, fun p hp => ?_⟩
  rw [hbuf p, if_pos (by unfold blockSize at *; omega)]
  simp

theorem take_map_range {f : Nat → UInt8} {m n : Nat} {rest : List UInt8} (h : n ≤ m) :
    ((List.range m).map f ++ rest).take n = (List.range n).map f := by
  rw [List.take_append_of_le_length (by simpa using h), ← List.map_take, List.take_range, Nat.min_eq_left h]

theorem take_drop_map_range {f : Nat → UInt8} {m n off : Nat} (h : off + n ≤ m) :
    (((List.range m).map f).drop off).take n = (List.range n).map fun k => f (off + k) := by
  refine List.ext_getElem ?_ fun k h1 h2 => ?_
  · simp only [List.length_take, List.length_drop, List.length_map, List.length_range]
    omega
  · simp

/-- fs_read of at least one byte on a descriptor in use, inside the file's last block: it returns
    the bytes up to the end of the file and moves the offset behind them. -/
theorem Live.read_eq {s : FS} {ch : Int → List Int} (h : Live s ch) {fd i : Int} {buf : List UInt8}
    {nbyte off m : Nat} (hfd : IsFd fd) (hu : (s.fdArray fd).used = true) (hi : Used s.directory i)
    (he : (s.directory i).inodeNumber = (s.fdArray fd).inodeNumber) (hoff : (s.fdArray fd).offset = off)
    (hoz : (off : Int) ≤ (s.directory i).size) (hpos : 1 ≤ nbyte) (hlen : nbyte ≤ buf.length)
    (hroom : off + nbyte ≤ blockSize * (((s.directory i).size.toNat - 1) / blockSize + 1))
    (hm : min nbyte ((s.directory i).size.toNat - off) = m) :
    ∃ buf', fsRead s fd buf nbyte = some ((m : Int), buf', moveTo s fd ((off + m : Nat) : Int)) ∧
      buf'.take m = ((content s (s.directory i)).drop off).take m ∧ buf'.drop nbyte = buf.drop nbyte ∧
      buf'.length = buf.length := by
  obtain ⟨hs0, hs1⟩ := h.bounds.size i hi
  have hidx : dirIndex s.directory (s.fdArray fd).inodeNumber = some i := by
    rw [← he]; exact h.files.chains.dirIndex_eq hi
  obtain ⟨buffer, -, hread, hbytes⟩ := h.files.readAll_eq h.ready hi
    (blocks_le _ (h.sized i hi) (h.files.chains.chain i hi).ne_nil)
  unfold IsFd maxFileDescriptor at hfd
  unfold fsRead
  rw [if_neg (by unfold maxFileDescriptor; omega), if_neg (by unfold maxFileDescriptor; omega),
    if_neg (by rw [hu]; simp; omega)]
  simp only [hidx, extent_eq hs0 (hs1.trans (by decide)), Int.toNat_natCast, hread]
  unfold maxFilesize at hs1
  unfold blockSize at hroom hbytes ⊢
  rw [if_neg (by omega)]
  -- both branches return `m` and move the offset by `m`
  have hres : (if sizeT (s.directory i).size < sizeT ((s.fdArray fd).offset + nbyte) then
      some ((s.directory i).size - (s.fdArray fd).offset,
        (List.range nbyte).map (fun k => buffer (off + k)) ++ buf.drop nbyte,
        moveTo s fd (s.directory i).size)
      else some (toInt32 nbyte, (List.range nbyte).map (fun k => buffer (off + k)) ++ buf.drop nbyte,
        moveTo s fd (toInt32 ((s.fdArray fd).offset + nbyte)))) =
      some ((m : Int), (List.range nbyte).map (fun k => buffer (off + k)) ++ buf.drop nbyte,
        moveTo s fd ((off + m : Nat) : Int)) := by
    rw [sizeT_of_lt hs0 (by omega), sizeT_of_lt (by omega) (by omega)]
    split
    · rw [show (s.directory i).size - (s.fdArray fd).offset = (m : Int) by omega,
        show (s.directory i).size = ((off + m : Nat) : Int) by omega]
    · rw [toInt32_of_isInt32 (by unfold IsInt32; omega), toInt32_of_isInt32 (by unfold IsInt32; omega),
        show (s.fdArray fd).offset + nbyte = ((off + m : Nat) : Int) by omega,
        show (nbyte : Int) = (m : Int) by omega]
  rw [show (s.fdArray fd).offset.toNat = off by omega]
  refine ⟨_, hres, ?_, ?_, ?_⟩
  · rw [take_map_range (by omega), h.files.content_eq hi, take_drop_map_range (by omega)]
    refine List.map_congr_left fun k hk => hbytes _ ?_
    have := List.mem_range.mp hk
    omega
  · rw [List.drop_left' (by simp)]
  · simp only [List.length_append, List.length_map, List.length_range, List.length_drop]
    omega

theorem Live.read {s : FS} {ch : Int → List Int} (h : Live s ch) {fd : Int} {buf : List UInt8} {nbyte : Nat}
    (hal : (abs s).Allows (.read fd buf nbyte)) :
    ∃ r buf' s' ch', fsRead s fd buf nbyte = some (r, buf', s') ∧ Live s' ch' ∧
      Store.Step (abs s) (.read fd buf nbyte, { code := r, buf := buf' }) (abs s') := by
  obtain ⟨hfd, hpos, hlen, hext⟩ := hal
  cases hu : (s.fdArray fd).used with
  | false =>
      have hfd' := hfd
      unfold IsFd maxFileDescriptor at hfd'
      unfold fsRead
      rw [if_neg (by unfold maxFileDescriptor; omega), if_neg (by unfold maxFileDescriptor; omega),
        if_pos (by simp [hu])]
      refine ⟨-1, buf, s, ch, rfl, h, .readFail (abs_desc_none fun hx => ?_)⟩
      rw [hu] at hx; exact absurd hx.2 (by decide)
  | true =>
      obtain ⟨i, hi, he, h0, h1⟩ := h.bounds.offset fd hfd hu
      have hdesc := h.files.abs_desc hfd hu hi he
      have hfile := h.files.shape.abs_file hi
      have hroom := hext _ _ _ hdesc hfile
      have hlenc := length_content s (s.directory i)
      rw [hlenc] at hroom
      obtain ⟨off, hoff⟩ : ∃ off : Nat, (s.fdArray fd).offset = off :=
        ⟨_, (Int.toNat_of_nonneg h0).symm⟩
      rw [hoff] at h1 hroom hdesc
      rw [Int.toNat_natCast] at hroom hdesc
      obtain ⟨buf', hrun, htake, hdrop, hbuf⟩ := h.read_eq hfd hu hi he hoff h1 hpos hlen hroom rfl
      obtain ⟨hl, ha⟩ := h.setOffset ((off + min nbyte ((s.directory i).size.toNat - off) : Nat) : Int)
        hfd hu hi he (by omega) (by omega)
      refine ⟨_, buf', _, ch, hrun, hl, ?_⟩
      rw [ha, Int.toNat_natCast, ← hlenc]
      rw [← hlenc] at htake
      exact .read hdesc hfile htake hdrop hbuf

/-! ## fs_write -/

theorem cappedLength_eq {offset : Int} (nbyte : Nat) (h0 : 0 ≤ offset) (h1 : offset ≤ maxFilesize)
    (hn : nbyte < 2 ^ 63) :
    cappedLength offset nbyte = ((min nbyte (maxFilesize.toNat - offset.toNat) : Nat) : Int) := by
  unfold cappedLength
  unfold maxFilesize at *
  rw [sizeT_of_lt (x := offset + nbyte) (by omega) (by omega)]
  split
  · rw [sizeT_of_lt (by omega) (by omega)]
    omega
  · omega

/-- Bytes written over a list of bytes, at most up to its end and possibly behind it. -/
theorem splice_eq {f g : Nat → UInt8} {buf : List UInt8} {z off m : Nat} (hoff : off ≤ z)
    (hm : m ≤ buf.length)
    (hg : ∀ p, p < max z (off + m) → g p = if off ≤ p ∧ p < off + m then buf.getD (p - off) 0 else f p) :
    (List.range (max z (off + m))).map g =
      ((List.range z).map f).take off ++ buf.take m ++ ((List.range z).map f).drop (off + m) := by
  refine List.ext_getElem ?_ fun p h1 h2 => ?_
  · simp only [List.length_map, List.length_range, List.length_append, List.length_take, List.length_drop]
    omega
  · simp only [List.length_map, List.length_range] at h1
    rw [List.getElem_map, List.getElem_range, hg p h1]
    by_cases hlt : p < off + m
    · rw [List.getElem_append_left (by simp; omega)]
      by_cases hp : p < off
      · rw [List.getElem_append_left (by simp; omega), if_neg (by omega)]
        simp
      · rw [List.getElem_append_right (by simp; omega), if_pos ⟨by omega, hlt⟩]
        simp only [List.length_take, List.length_map, List.length_range, List.getElem_take,
          Nat.min_eq_left hoff]
        rw [List.getD_eq_getElem?_getD, List.getElem?_eq_getElem (by omega)]
        rfl
    · rw [List.getElem_append_right (by simp; omega), if_neg (by omega)]
      simp only [List.length_append, List.length_take, List.length_map, List.length_range,
        List.getElem_drop, List.getElem_map, List.getElem_range, Nat.min_eq_left hoff, Nat.min_eq_left hm]
      congr 1
      omega

/-- A longer chain is not seen in the store. -/
theorem Live.grow {s s₁ : FS} {ch : Int → List Int} (h : Live s ch) {i : Int} {new : List Int}
    (hg : Grow s s₁ (s.directory i).inodeNumber (ch i) new)
    (hfiles : Files (· = 1) s₁ (Function.update ch i (ch i ++ new))) :
    Live s₁ (Function.update ch i (ch i ++ new)) ∧ s₁.directory = s.directory ∧
      s₁.fdArray = s.fdArray ∧ (abs s₁).files = (abs s).files ∧ (abs s₁).descs = (abs s).descs := by
  have hdir : s₁.directory = s.directory := by rw [hg.same]
  have hfdA : s₁.fdArray = s.fdArray := by rw [hg.same]
  have hdisk : s₁.disk = s.disk := by rw [hg.same]
  have hgrown : Sized s.directory (Function.update ch i (ch i ++ new)) := by
    intro j hj
    have hsj := h.sized j hj
    by_cases hji : j = i
    · subst hji
      rw [Function.update_self, List.length_append]
      unfold blockSize at *
      omega
    · rw [Function.update_of_ne hji]; exact hsj
  refine ⟨⟨hfiles, by rw [hdir, hfdA]; exact h.fds, by rw [hdir]; exact hgrown,
    by rw [hdisk]; exact h.ready, by rw [hdir, hfdA]; exact h.bounds⟩, hdir, hfdA, ?_, ?_⟩
  · funext n
    refine abs_files_congr h.files.shape hfiles.shape (fun j => by rw [hdir]) fun j hj _ => ?_
    rw [h.files.content_eq hj, hfiles.content_eq (by rw [hdir]; exact hj), hdir, hdisk]
    by_cases hji : j = i
    · subst hji
      refine List.map_congr_left fun p hp => ?_
      have hp' := List.mem_range.mp hp
      have hsj := h.sized j hj
      rw [Function.update_self, blockBytes_append (by unfold blockSize at *; omega)]
    · rw [Function.update_of_ne hji]
  · funext fd
    exact h.files.abs_desc_congr h.fds hfiles (by rw [hfdA]) fun j _ _ hj _ => by
      rw [hdir]; exact ⟨hj, rfl, rfl⟩

/-- fs_write behind its allocation loop when all goes well. -/
theorem writeData_eq {s s₃ : FS} {fd i m size : Int} {N : Nat} (buf : List UInt8) {buffer : Buf}
    (hsize : (if sizeT (s.directory i).size < sizeT ((s.fdArray fd).offset + m) then
      toInt32 ((s.fdArray fd).offset + m) else (s.directory i).size) = size)
    (hext : extent size = some (N : Int))
    (hread : readAll (setSize s i size) N (s.directory i).inodeNumber 0 (fun _ => 0) = some buffer)
    (hbounds : ¬ ((s.fdArray fd).offset < 0 ∨ (N : Int) * blockSize < (s.fdArray fd).offset + m ∨
      (buf.length : Int) < m))
    (hwrite : writeAll N (setSize s i size) (s.directory i).inodeNumber 0
      (memcpy buffer (s.fdArray fd).offset.toNat (fun k => buf.getD k 0) m.toNat) = (true, s₃)) :
    writeData s fd i buf m = some (toInt32 m, { s₃ with
      fdArray := Function.update s₃.fdArray fd
        { s.fdArray fd with offset := toInt32 ((s.fdArray fd).offset + m) } }) := by
  unfold setSize at hread hwrite
  simp only [writeData, hsize, hext, Int.toNat_natCast, hread, hbounds, if_false, hwrite]

/-- What it does then: the chain has room for the bytes and for the size. -/
theorem Files.writeData_eq {P : UInt8 → Prop} {s : FS} {ch : Int → List Int} (h : Files P s ch)
    (hr : s.disk.Ready) {fd i : Int} (hi : Used s.directory i) {buf : List UInt8} {off m z : Nat}
    (hoff : (s.fdArray fd).offset = off) (hz : max (s.directory i).size ((off + m : Nat) : Int) = z)
    (hle : (off : Int) ≤ (s.directory i).size) (hmax : ((off + m : Nat) : Int) ≤ maxFilesize)
    (hm : m ≤ buf.length) (hroom : z ≤ blockSize * (ch i).length) :
    ∃ d, writeData s fd i buf m = some ((m : Int),
        { moveTo (setSize s i z) fd ((off + m : Nat) : Int) with disk := d }) ∧ d.Ready ∧
      (∀ p, p < z → blockBytes d (ch i) p =
        if off ≤ p ∧ p < off + m then buf.getD (p - off) 0 else blockBytes s.disk (ch i) p) ∧
      ∀ b, InBlocks b → b ∉ ch i → ∀ k, k < blockSize → d.block b k = s.disk.block b k := by
  have hchain := h.chains.chain i hi
  have hin : ∀ b ∈ ch i, InBlocks b := fun b hb => (h.chains.blocks i hi b hb).1.inBlocks
  have hL := length_le_of_dataBlocks (h.chains.nodup i hi) fun b hb => (h.chains.blocks i hi b hb).1
  unfold diskBlocks at hL
  unfold maxFilesize at hmax
  -- the comparison and the sum are made in size_t, the size is stored as an int
  have hsize : (if sizeT (s.directory i).size < sizeT ((s.fdArray fd).offset + m) then
      toInt32 ((s.fdArray fd).offset + m) else (s.directory i).size) = z := by
    unfold blockSize at hroom
    rw [hoff, sizeT_of_lt (by omega) (by omega), sizeT_of_lt (by omega) (by omega)]
    split
    · rw [toInt32_of_isInt32 (by unfold IsInt32; omega)]
      omega
    · omega
  have hN : (z - 1) / blockSize + 1 ≤ (ch i).length := by
    have hblocks := blocks_le (z : Int) (by exact_mod_cast hroom) hchain.ne_nil
    rwa [Int.toNat_natCast] at hblocks
  have hext : extent z = some (((z - 1) / blockSize + 1 : Nat) : Int) := by
    unfold blockSize at hroom
    rw [extent_eq (by omega) (by omega), Int.toNat_natCast]
  generalize hNdef : (z - 1) / blockSize + 1 = N at hN hext
  have hNz : z ≤ N * blockSize := by
    rw [← hNdef]
    unfold blockSize
    omega
  obtain ⟨buffer, hread, hbuffer⟩ := readAll_spec (s := setSize s i z) hr N 0 (fun _ => 0) hchain hin hN
  obtain ⟨d, hwrite, hdr, -, hnew, -, hout⟩ := writeAll_spec N (s := setSize s i z) 0
    (memcpy buffer off (fun k => buf.getD k 0) m) hr hchain hin (h.chains.nodup i hi) hN
  rw [Option.getD_some] at hread hwrite
  have hrun := EC440.FileSystem.writeData_eq buf hsize hext hread
    (by rw [hoff]; unfold blockSize at *; omega) (by rw [hoff]; exact hwrite)
  rw [toInt32_of_isInt32 (by unfold IsInt32; omega), hoff,
    toInt32_of_isInt32 (by unfold IsInt32; omega)] at hrun
  refine ⟨d, hrun, hdr, fun p hp => ?_, hout⟩
  have hb := hbuffer p
  rw [if_pos ⟨by simp, by rw [Nat.zero_add]; omega⟩, Nat.zero_mul, Nat.sub_zero] at hb
  rw [hnew p (by omega), Nat.zero_mul, Nat.zero_add]
  unfold memcpy
  rw [hb]
  rfl

section
variable {s : FS} {ch : Int → List Int} (h : Live s ch) {fd i : Int} (hu : (s.fdArray fd).used = true)
  (hi : Used s.directory i) (he : (s.directory i).inodeNumber = (s.fdArray fd).inodeNumber)
include h hu hi he

/-- An open file gets more bytes, and the descriptor moves in it. -/
theorem Live.resize {z x : Int} (hsz : (s.directory i).size ≤ z) (hz : z ≤ maxFilesize)
    (hroom : z ≤ blockSize * (ch i).length) (h0 : 0 ≤ x) (hx : x ≤ z) {d : Disk} (hd : d.Ready) :
    Live { moveTo (setSize s i z) fd x with disk := d } ch := by
  obtain ⟨hs0, -⟩ := h.bounds.size i hi
  have hsame : ∀ j, SameFile (s.directory j) ((setSize s i z).directory j) := sameFile_update ⟨rfl, rfl, rfl⟩
  have hother : ∀ j, j ≠ i → (setSize s i z).directory j = s.directory j :=
    fun j hj => Function.update_of_ne hj _ _
  have hself : ((setSize s i z).directory i).size = z := by simp [setSize]
  have hkeep : ∀ j, Used s.directory j → Used (setSize s i z).directory j := fun j => (used_congr hsame).mpr
  refine
    { files := ⟨⟨h.files.shape.super, h.files.shape.table, ?_⟩, h.files.chains.congr hsame⟩
      fds := (h.fds.congr hsame (count_update rfl)).setOffset fd _
      sized := h.sized.entry fun _ => by unfold blockSize at *; dsimp only; omega
      ready := hd
      bounds := ?_ }
  · exact h.files.shape.dir.resize hi.1 (by unfold IsInt32; unfold maxFilesize at hz; omega)
  · refine Bounds.setFd (h.bounds.change (fun j hj => ?_) fun x j _ _ hj _ =>
      ⟨hkeep j hj, (hsame j).2.1, ?_⟩) (fun _ => ⟨i, hkeep i hi, ?_, h0, ?_⟩)
      fun hf => absurd (hf.symm.trans hu) (by decide)
    · by_cases hji : j = i
      · rw [hji, hself]; omega
      · rw [hother j hji]; exact h.bounds.size j ((used_congr hsame).mp hj)
    · by_cases hji : j = i
      · rw [hji, hself]; exact hsz
      · rw [hother j hji]
    · rw [(hsame i).2.1]; exact he
    · rw [hself]; exact hx

variable (hfd : IsFd fd)
include hfd

/-- fs_write behind its allocation loop, in the terms of the store. -/
theorem Live.writeData (buf : List UInt8) (off m : Nat) (hoff : (s.fdArray fd).offset = off)
    (hoz : (off : Int) ≤ (s.directory i).size) (hmax : ((off + m : Nat) : Int) ≤ maxFilesize)
    (hroom : off + m ≤ blockSize * (ch i).length) (hm : m ≤ buf.length) :
    ∃ s', EC440.FileSystem.writeData s fd i buf m = some ((m : Int), s') ∧ Live s' ch ∧
      s' = { moveTo (setSize s i (max (s.directory i).size ((off + m : Nat) : Int))) fd ((off + m : Nat) : Int) with
        disk := s'.disk } ∧
      (abs s').files = Function.update (abs s).files (cstr (s.directory i).name)
        (some ((content s (s.directory i)).take off ++ buf.take m ++
          (content s (s.directory i)).drop (off + m))) ∧
      (abs s').descs = Function.update (abs s).descs fd
        (some (cstr (s.directory i).name, off + m)) := by
  obtain ⟨hs0, hs1⟩ := h.bounds.size i hi
  have hsz := h.sized i hi
  obtain ⟨z, hz⟩ : ∃ z : Nat, (s.directory i).size = z := ⟨_, (Int.toNat_of_nonneg hs0).symm⟩
  obtain ⟨z', hz'⟩ : ∃ z', max z (off + m) = z' := ⟨_, rfl⟩
  have hmaxz : max (s.directory i).size ((off + m : Nat) : Int) = (z' : Int) := by omega
  have hroom' : z' ≤ blockSize * (ch i).length := by
    unfold blockSize at *
    omega
  obtain ⟨d, hrun, hdr, hbytes, hout⟩ := h.files.writeData_eq h.ready hi hoff hmaxz hoz hmax hm hroom'
  have hlive := h.resize hu hi he (z := z') (x := ((off + m : Nat) : Int)) (by omega) (by omega)
    (by exact_mod_cast hroom') (by omega) (by omega) hdr
  generalize hs' : ({ moveTo (setSize s i z') fd ((off + m : Nat) : Int) with disk := d } : FS) = s' at hrun hlive
  have hdir : s'.directory = Function.update s.directory i { s.directory i with size := (z' : Int) } := by
    rw [← hs']; rfl
  have hfdA : s'.fdArray = Function.update s.fdArray fd { s.fdArray fd with offset := ((off + m : Nat) : Int) } := by
    rw [← hs']; rfl
  have hdisk : s'.disk = d := by rw [← hs']
  have hsame : ∀ j, SameFile (s.directory j) (s'.directory j) := by
    rw [hdir]; exact sameFile_update ⟨rfl, rfl, rfl⟩
  have hkeep : ∀ j, Used s.directory j → Used s'.directory j := fun j => (used_congr hsame).mpr
  refine ⟨s', hrun, hlive, by rw [hmaxz, hdisk]; exact hs'.symm, ?_, ?_⟩
  · funext n
    by_cases hn : n = cstr (s.directory i).name
    · rw [hn, Function.update_self]
      have hfile := hlive.files.shape.abs_file (hkeep i hi)
      rw [(hsame i).2.2] at hfile
      have hsize' : (s'.directory i).size = z' := by rw [hdir]; simp
      rw [hfile, hlive.files.content_eq (hkeep i hi), h.files.content_eq hi, hsize', hz, Int.toNat_natCast,
        Int.toNat_natCast, ← hz', splice_eq (f := blockBytes s.disk (ch i)) (by omega) hm fun p hp => ?_]
      rw [hdisk]
      exact hbytes p (by omega)
    · rw [Function.update_of_ne hn]
      refine abs_files_congr h.files.shape hlive.files.shape (fun j => ?_) fun j hj hjn => ?_
      · rw [used_congr hsame, (hsame j).2.2]
      · have hji : j ≠ i := by rintro rfl; exact hn hjn.symm
        refine h.files.content_frame hlive.files hj (hkeep j hj)
          (by rw [hdir]; exact congrArg _ (Function.update_of_ne hji _ _)) rfl fun b hb k hk => ?_
        rw [hdisk]
        exact hout b (h.files.chains.blocks j hj b hb).1.inBlocks (h.files.chains.disjoint j i hj hi hji b hb)
          k hk
  · funext x
    by_cases hx : x = fd
    · subst hx
      have hself : s'.fdArray x = { s.fdArray x with offset := ((off + m : Nat) : Int) } := by
        rw [hfdA]; exact Function.update_self x _ _
      rw [Function.update_self, hlive.files.abs_desc hfd (by rw [hself]; exact hu) (hkeep i hi)
        (by rw [hself, (hsame i).2.1]; exact he), (hsame i).2.2, hself]
      rfl
    · rw [Function.update_of_ne hx]
      refine h.files.abs_desc_congr h.fds hlive.files (by rw [hfdA]; exact Function.update_of_ne hx _ _) ?_
      exact fun j _ _ hj _ => ⟨hkeep j hj, (hsame j).2.1, (hsame j).2.2⟩

end

theorem Live.write {s : FS} {ch : Int → List Int} (h : Live s ch) {fd : Int} {buf : List UInt8}
    {nbyte : Nat} (hal : (abs s).Allows (.write fd buf nbyte)) :
    ∃ r s' ch', fsWrite s fd buf nbyte = some (r, s') ∧ Live s' ch' ∧
      Store.Step (abs s) (.write fd buf nbyte, { code := r }) (abs s') := by
  obtain ⟨hfd, hpos, hlen, hbig⟩ := hal
  have hfd' := hfd
  unfold IsFd maxFileDescriptor at hfd'
  unfold fsWrite
  rw [if_neg (by unfold maxFileDescriptor; omega), if_neg (by unfold maxFileDescriptor; omega)]
  cases hu : (s.fdArray fd).used with
  | false =>
      rw [if_pos (by simp)]
      refine ⟨-1, s, ch, rfl, h, .writeFail (abs_desc_none fun hx => ?_)⟩
      rw [hu] at hx; exact absurd hx.2 (by decide)
  | true =>
      obtain ⟨i, hi, he, h0, h1⟩ := h.bounds.offset fd hfd hu
      have hs1 := (h.bounds.size i hi).2
      have hdesc := h.files.abs_desc hfd hu hi he
      have hidx : dirIndex s.directory (s.fdArray fd).inodeNumber = some i := by
        rw [← he]; exact h.files.chains.dirIndex_eq hi
      have hcap := cappedLength_eq nbyte h0 (by omega) (by omega)
      unfold cappedLength at hcap
      rw [if_neg (by simp)]
      dsimp only
      rw [hidx]
      dsimp only
      rw [hcap]
      obtain ⟨off, hoff⟩ : ∃ off : Nat, (s.fdArray fd).offset = off :=
        ⟨_, (Int.toNat_of_nonneg h0).symm⟩
      rw [hoff] at h1 hdesc ⊢
      rw [Int.toNat_natCast] at hdesc ⊢
      generalize hm : min nbyte (maxFilesize.toNat - off) = m
      unfold maxFilesize at hm hs1
      have hrounds : (sizeT ((off : Int) + m - 1) / blockSize).toNat = (off + m - 1) / blockSize := by
        rw [sizeT_of_lt (by omega) (by omega)]
        unfold blockSize
        omega
      rw [hrounds]
      obtain ⟨ok, s₁, new, hgrow, hg, hnew, hroom, hfull, -⟩ :=
        h.files.growChain_eq (P := (· = 1)) (by decide) rfl hi ((off + m - 1) / blockSize)
      obtain ⟨hl₁, hdir₁, hfd₁, hf₁, hd₁⟩ := h.grow hg hnew
      rw [hgrow]
      cases ok with
      | false =>
          refine ⟨-1, s₁, _, rfl, hl₁, ?_⟩
          have heq : abs s₁ = { abs s with full := true } := by
            rw [abs_eq (s := s₁) (abs s).files (abs s).descs (fun n => by rw [hf₁]) (fun x => by rw [hd₁]),
              Store.mk.injEq]
            refine ⟨rfl, rfl, ?_⟩
            have := (freeBlock_eq_none hl₁.files.shape.super).mpr (hfull rfl)
            simp [abs, this]
          rw [heq]
          exact .writeFull (by rw [hdesc]; simp)
      | true =>
          have hi₁ : Used s₁.directory i := by rw [hdir₁]; exact hi
          have hlen₁ := (hroom rfl).1
          obtain ⟨s', hrun, hl', -, hf', hd'⟩ := hl₁.writeData (by rw [hfd₁]; exact hu) hi₁
            (by rw [hdir₁, hfd₁]; exact he) hfd buf off m (by rw [hfd₁]; exact hoff)
            (by rw [hdir₁]; exact h1) (by unfold maxFilesize; omega)
            (by rw [Function.update_self]; unfold blockSize at *; omega) (by omega)
          refine ⟨m, s', _, hrun, hl', ?_⟩
          rw [abs_eq (s := s') _ _ (fun n => congrFun hf' n) (fun x => congrFun hd' x), hf₁, hd₁, hdir₁]
          have hfile := hl₁.files.shape.abs_file hi₁
          rw [hf₁, hdir₁] at hfile
          exact .write _ hdesc hfile (by unfold maxFilesize; exact hm.symm)

/-! ## Runs -/

/-- One call: it returns, and does to the store what the store's rule says. -/
theorem Live.step {s : FS} {ch : Int → List Int} (h : Live s ch) {c : Call} (hc : (abs s).Allows c) :
    ∃ r s' ch', s.step c = some (r, s') ∧ Live s' ch' ∧ Store.Step (abs s) (c, r) (abs s') := by
  cases c with
  | create name =>
      obtain ⟨r, s', ch', hrun, hl, hst⟩ := h.create name
      exact ⟨_, s', ch', by simp [FS.step, codeOnly, hrun], hl, hst⟩
  | «open» name =>
      obtain ⟨r, s', ch', hrun, hl, hst⟩ := h.open hc
      exact ⟨_, s', ch', by simp [FS.step, codeOnly, hrun], hl, hst⟩
  | close fd =>
      obtain ⟨r, s', ch', hrun, hl, hst⟩ := h.close hc
      exact ⟨_, s', ch', by simp [FS.step, codeOnly, hrun], hl, hst⟩
  | delete name =>
      obtain ⟨r, s', ch', hrun, hl, hst⟩ := h.delete hc
      exact ⟨_, s', ch', by simp [FS.step, codeOnly, hrun], hl, hst⟩
  | read fd buf nbyte =>
      obtain ⟨r, buf', s', ch', hrun, hl, hst⟩ := h.read hc
      exact ⟨_, s', ch', by simp [FS.step, hrun], hl, hst⟩
  | write fd buf nbyte =>
      obtain ⟨r, s', ch', hrun, hl, hst⟩ := h.write hc
      exact ⟨_, s', ch', by simp [FS.step, codeOnly, hrun], hl, hst⟩
  | getFilesize fd =>
      obtain ⟨r, hrun, hst⟩ := h.getFilesize hc
      exact ⟨_, s, ch, by simp [FS.step, codeOnly, hrun], h, hst⟩
  | listfiles => exact ⟨_, s, ch, rfl, h, h.listfiles⟩
  | lseek fd offset =>
      obtain ⟨r, s', ch', hrun, hl, hst⟩ := h.lseek hc offset
      exact ⟨_, s', ch', by simp [FS.step, codeOnly, hrun], hl, hst⟩
  | truncate _ _ => exact hc.elim
  | mount _ _ => exact hc.elim
  | umount _ => exact hc.elim

/-- The calls a session's store allows. -/
def StoreCall (s : FS) (c : Call) : Prop := (abs s).Allows c

theorem session_live {files : String → Option Image} {d : String} {junk : Junk} {heap : Buf} {r : Int}
    {s : FS} (h : session files d junk heap = some (r, s)) : Live s (fun _ => []) := by
  refine (session_fresh h).live fun fd => ?_
  rw [session_fds h fd]
  decide

/-- In one session fs.c refines the store: it starts with no file and no descriptor, every
    run of allowed calls is a run of the store with the same results, and every allowed call
    returns. -/
theorem session_refines_store {files : String → Option Image} {d : String} {junk : Junk} {heap : Buf}
    {r : Int} {s₀ : FS} (h : session files d junk heap = some (r, s₀)) :
    ((∀ n, (abs s₀).files n = none) ∧ ∀ fd, (abs s₀).descs fd = none) ∧
    ∀ es s, Run (Guarded FS.step StoreCall) s₀ es s →
      Run Store.Step (abs s₀) es (abs s) ∧
      ∀ c, StoreCall s c → ∃ ret s', s.step c = some (ret, s') := by
  have hfresh := session_fresh h
  have hstep : ∀ s e s', (∃ ch, Live s ch) → Guarded FS.step StoreCall s e s' →
      (∃ ch, Live s' ch) ∧ Store.Step (abs s) e (abs s') := by
    rintro s ⟨c, ret⟩ s' ⟨ch, hl⟩ ⟨hal, hrun⟩
    obtain ⟨ret', s'', ch', hrun', hl', hst⟩ := hl.step hal
    rw [hrun'] at hrun
    cases hrun
    exact ⟨⟨ch', hl'⟩, hst⟩
  refine ⟨⟨fun n => abs_file_none.mpr fun i hi => absurd hi (hfresh.noFile i), fun fd =>
    abs_desc_none fun hx => by rw [hfresh.noFd fd] at hx; exact absurd hx.2 (by decide)⟩, ?_⟩
  intro es s hrun
  have hinit : ∃ ch, Live s₀ ch := ⟨_, session_live h⟩
  refine ⟨hrun.simulation abs (I := fun s => ∃ ch, Live s ch) hinit
    (fun s e s' hi hr => (hstep s e s' hi hr).1) (fun s e s' hi hr => (hstep s e s' hi hr).2), ?_⟩
  intro c hc
  obtain ⟨ch, hl⟩ := hrun.invariant (I := fun s => ∃ ch, Live s ch) hinit
    fun s e s' hi hr => (hstep s e s' hi hr).1
  obtain ⟨ret, s', -, hs, -⟩ := hl.step hc
  exact ⟨ret, s', hs⟩

/-- The test on fs_read for runs on given calls. -/
def readFits (st : Store) (fd : Int) (nbyte : Nat) : Bool :=
  match st.descs fd with
  | none => true
  | some (name, off) =>
      match st.files name with
      | none => true
      | some bytes => off + nbyte ≤ blockSize * ((bytes.length - 1) / blockSize + 1)

theorem readFits_spec {st : Store} {fd : Int} {nbyte : Nat} (h : readFits st fd nbyte = true) :
    ∀ name off bytes, st.descs fd = some (name, off) → st.files name = some bytes →
      off + nbyte ≤ blockSize * ((bytes.length - 1) / blockSize + 1) := by
  intro name off bytes hd hf
  unfold readFits at h
  rw [hd] at h
  dsimp only at h
  rw [hf] at h
  exact of_decide_eq_true h

/-- A file is written and read back. -/
theorem session_refines_store_read : ∃ r s₀ es s,
    session (fun _ => none) "disk" zeroJunk (fun _ => 0) = some (r, s₀) ∧
      Run (Guarded FS.step StoreCall) s₀ es s ∧ (s.fdArray 0).offset = 2 ∧
      Run Store.Step (abs s₀) es (abs s) := by
  obtain ⟨r, s₀, es, s, hs, hrun, hp⟩ := session_exec StoreCall
    (fun s c => match c with | .read fd _ nbyte => readFits (abs s) fd nbyte | _ => true)
    [.create nameA, .open nameA, .write 0 [1, 2, 3] 3, .lseek 0 0, .read 0 [0, 0] 2]
    (fun s => (s.fdArray 0).offset == 2)
    (by
      intro s c hc hok
      simp only [List.mem_cons, List.not_mem_nil, or_false] at hc
      rcases hc with rfl | rfl | rfl | rfl | rfl
      · exact List.cons_ne_nil _ _
      · exact List.cons_ne_nil _ _
      · exact ⟨by decide, by decide, by decide, by decide⟩
      · exact (by decide : IsFd 0)
      · exact ⟨by decide, by decide, by decide, readFits_spec hok⟩)
    (show (session (fun _ => none) "disk" zeroJunk (fun _ => 0)).bind _ = some true by decide +kernel)
  exact ⟨r, s₀, es, s, hs, hrun, by simpa using hp, ((session_refines_store hs).2 es s hrun).1⟩

end EC440.FileSystem
