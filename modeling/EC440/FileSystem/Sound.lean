/-
  What holds in every state of one session, whatever names, descriptors and lengths its calls
  are given: the files are in order, the disk is open, no offset is negative, a descriptor not
  in use leads to no file, and the open counts of the files are right.

  fs_open of the empty name may open a descriptor on an entry that is not in use. Such a
  descriptor leads to no block; `filed` leaves it out, and the counts agree with the rest.
-/
import EC440.FileSystem.Failures

namespace EC440.FileSystem

open EC440.Lib

variable {s s' : FS} {ch : Int → List Int} {fd i r : Int} {buf : List UInt8} {nbyte : Nat}

/-- A descriptor that leads to no block counts as not in use. -/
def FileDescriptor.filed (f : FileDescriptor) : FileDescriptor :=
  if DataBlock f.inodeNumber then f else { f with used := false }

/-- The descriptors on files. -/
def filed (fds : Int → FileDescriptor) : Int → FileDescriptor := fun fd => (fds fd).filed

/-- A descriptor not in use leads to no block. -/
def Idle (fds : Int → FileDescriptor) : Prop := ∀ fd, (fds fd).used = false → ¬ DataBlock (fds fd).inodeNumber

structure Sound (s : FS) (ch : Int → List Int) : Prop where
  files : Files (· = 1) s ch
  ready : s.disk.Ready
  offset : ∀ fd, 0 ≤ (s.fdArray fd).offset
  idle : Idle s.fdArray
  fds : Fds s.directory (filed s.fdArray)

/-! ## The descriptors -/

theorem filed_update (fds : Int → FileDescriptor) (fd : Int) (f : FileDescriptor) :
    filed (Function.update fds fd f) = Function.update (filed fds) fd f.filed := by
  funext x
  unfold filed
  by_cases hx : x = fd
  · subst hx; rw [Function.update_self, Function.update_self]
  · rw [Function.update_of_ne hx, Function.update_of_ne hx]

theorem filed_of_data {f : FileDescriptor} (h : DataBlock f.inodeNumber) : f.filed = f := by
  unfold FileDescriptor.filed
  rw [if_pos h]

theorem filed_used {f : FileDescriptor} : f.filed.used = true ↔ f.used = true ∧ DataBlock f.inodeNumber := by
  unfold FileDescriptor.filed
  split
  · next h => simp [h]
  · next h => simp [h]

theorem filed_inode (f : FileDescriptor) : f.filed.inodeNumber = f.inodeNumber := by
  unfold FileDescriptor.filed
  split <;> rfl

theorem filed_offset (f : FileDescriptor) (off : Int) :
    FileDescriptor.filed { f with offset := off } = { f.filed with offset := off } := by
  unfold FileDescriptor.filed
  split <;> rfl

/-- A descriptor's new offset after fs_read. -/
theorem fsRead_moves {buf' : List UInt8} (h : Shape s) (hc : fsRead s fd buf nbyte = some (r, buf', s')) :
    s' = s ∨ ∃ off, IsFd fd ∧ (s.fdArray fd).used = true ∧ 0 ≤ off ∧ s' = moveTo s fd off := by
  obtain ⟨-, hs, -⟩ | ⟨i, n, hfd, hu, -, hi, hn, ⟨-, -, hs⟩ | ⟨h0, hroom, -, off, hoff, hs⟩⟩ := fsRead_returns hc
  · exact .inl hs
  · exact .inl hs
  refine .inr ⟨off, hfd, hu, ?_, hs⟩
  have hsize := (h.dir.entry i (dirIndex_eq_some hi).1.1).size
  obtain ⟨-, hn31⟩ := extent_lt hn
  unfold IsInt32 at hsize
  unfold sizeT at hoff
  split at hoff
  · rw [Prod.mk.injEq] at hoff
    omega
  · rw [Prod.mk.injEq, toInt32_of_isInt32 (x := (s.fdArray fd).offset + nbyte) (by unfold IsInt32; omega)] at hoff
    omega

/-- A descriptor's new offset after fs_write. -/
theorem writeData_moves {nb : Int} (h0 : 0 ≤ nb) (hc : writeData s fd i buf nb = some (r, s')) :
    s'.fdArray = s.fdArray ∨ ∃ off, 0 ≤ off ∧ s'.fdArray = (moveTo s fd off).fdArray := by
  obtain ⟨size, n, -, hn, ⟨-, -, hs⟩ | ⟨buffer, ok, s₁, -, hoff, hfit, -, hw, hs⟩⟩ := writeData_returns hc
  · exact .inl (by rw [hs]; rfl)
  have hfr := writeAll_frame n.toNat (setSize s i size) (s.directory i).inodeNumber 0
    (memcpy buffer (s.fdArray fd).offset.toNat (fun k => buf.getD k 0) nb.toNat)
  rw [hw] at hfr
  dsimp only at hfr
  have hfds : s₁.fdArray = s.fdArray := by rw [hfr]; rfl
  obtain ⟨-, -, hs⟩ | ⟨-, -, hs⟩ := hs
  · exact .inl (by rw [hs, hfds])
  · obtain ⟨-, hn31⟩ := extent_lt hn
    refine .inr ⟨toInt32 ((s.fdArray fd).offset + nb), ?_, ?_⟩
    · rw [toInt32_of_isInt32 (by unfold IsInt32; omega)]
      omega
    · rw [hs]
      dsimp only
      rw [hfds]
      rfl

/-- What a call can do to the descriptors. -/
theorem Shape.step_fds {c : Call} {ret : Ret} (h : Shape s) (hc : c.IsFs) (hs : s.step c = some (ret, s')) :
    s'.fdArray = s.fdArray ∨
    (∃ fd off, (s.fdArray fd).used = true ∧ 0 ≤ off ∧ s'.fdArray = (moveTo s fd off).fdArray) ∨
    (∃ name fd i, c = .open name ∧ IsFd fd ∧ s'.fdArray = Function.update s.fdArray fd
      { used := true, inodeNumber := (s.directory i).inodeNumber, offset := 0 }) ∨
    ∃ fd, IsFd fd ∧ s'.fdArray = Function.update s.fdArray fd { used := false, inodeNumber := -1, offset := 0 } := by
  obtain rfl | ⟨_, rfl, hx⟩ | ⟨name, rfl, hx⟩ | ⟨_, rfl, hx⟩ | ⟨_, rfl, hx⟩ | ⟨fildes, _, _, rfl, hx⟩ |
    ⟨fildes, _, _, rfl, hx⟩ | ⟨fildes, _, rfl, hx⟩ | ⟨_, _, rfl, hx⟩ := FS.step_cases hc hs
  · exact .inl rfl
  · obtain ⟨-, rfl, -⟩ | ⟨_, _, -, -, -, -, -, -, rfl⟩ := fsCreate_cases hx <;> exact .inl rfl
  · obtain ⟨-, rfl, -⟩ | ⟨fildes, i, hfd, -, -, -, -, -, -, rfl⟩ := fsOpen_cases hx
    · exact .inl rfl
    · exact .inr (.inr (.inl ⟨name, fildes, i, rfl, hfd, rfl⟩))
  · obtain ⟨-, rfl, -⟩ | ⟨_, hfd, -, -, -, -, rfl⟩ := fsClose_cases hx
    · exact .inl rfl
    · exact .inr (.inr (.inr ⟨_, hfd, rfl⟩))
  · obtain ⟨-, rfl, -⟩ | ⟨_, s₁, -, -, -, hf, -, rfl⟩ := fsDelete_cases hx
    · exact .inl rfl
    · have hs₁ := (freeChain_shape _ _ _ _ h.table hf).2
      exact .inl (by rw [hs₁])
  · obtain rfl | ⟨off, -, hu, h0, rfl⟩ := fsRead_moves h hx
    · exact .inl rfl
    · exact .inr (.inl ⟨fildes, off, hu, h0, rfl⟩)
  · obtain ⟨-, rfl, -⟩ | ⟨index, ok, s₁, -, hu, hi, hg, hrest⟩ := fsWrite_cases hx
    · exact .inl rfl
    have hs₁ := (h.grown (dirIndex_eq_some hi).1 hg).2
    have hfd : s₁.fdArray = s.fdArray := by rw [hs₁]
    obtain ⟨-, -, rfl⟩ | ⟨-, hw⟩ := hrest
    · exact .inl hfd
    obtain hsame | ⟨off, h0, hmove⟩ := writeData_moves (cappedLength_nonneg _ _) hw
    · exact .inl (hsame.trans hfd)
    · refine .inr (.inl ⟨fildes, off, hu, h0, hmove.trans ?_⟩)
      unfold moveTo
      rw [hfd]
  · obtain ⟨-, rfl, -⟩ | ⟨i, -, hu, hi, h0, h1, -, rfl⟩ := fsLseek_cases hx
    · exact .inl rfl
    · have hsize := (h.dir.entry i (dirIndex_eq_some hi).1.1).size
      unfold IsInt32 at hsize
      refine .inr (.inl ⟨fildes, _, hu, ?_, rfl⟩)
      rw [toInt32_of_isInt32 (by unfold IsInt32; omega)]
      exact h0
  · obtain ⟨-, rfl, -⟩ | ⟨_, _, _, -, -, -, -, -, -, -, -, rfl⟩ := fsTruncate_cases hx <;> exact .inl rfl

theorem Idle.step {c : Call} {ret : Ret} (hi : Idle s.fdArray) (h : Shape s) (hc : c.IsFs)
    (hs : s.step c = some (ret, s')) : Idle s'.fdArray := by
  have set : ∀ {fd f}, (f.used = false → ¬ DataBlock f.inodeNumber) → Idle (Function.update s.fdArray fd f) := by
    intro fd f hf x
    by_cases hx : x = fd
    · subst hx; rw [Function.update_self]; exact hf
    · rw [Function.update_of_ne hx]; exact hi x
  obtain he | ⟨fd, off, hu, -, he⟩ | ⟨-, fd, i, -, -, he⟩ | ⟨fd, -, he⟩ := h.step_fds hc hs
  · rw [he]; exact hi
  · rw [he]; exact set fun hf => absurd (hf.symm.trans hu) (by decide)
  · rw [he]; exact set fun hf => by cases hf
  · rw [he]; exact set fun _ => by decide

theorem offset_step {c : Call} {ret : Ret} (ho : ∀ fd, 0 ≤ (s.fdArray fd).offset) (h : Shape s) (hc : c.IsFs)
    (hs : s.step c = some (ret, s')) : ∀ fd, 0 ≤ (s'.fdArray fd).offset := by
  have set : ∀ {fd f}, 0 ≤ f.offset → ∀ x, 0 ≤ (Function.update s.fdArray fd f x).offset := by
    intro fd f hf x
    by_cases hx : x = fd
    · subst hx; rw [Function.update_self]; exact hf
    · rw [Function.update_of_ne hx]; exact ho x
  obtain he | ⟨fd, off, -, h0, he⟩ | ⟨-, fd, i, -, -, he⟩ | ⟨fd, -, he⟩ := h.step_fds hc hs
  · rw [he]; exact ho
  · rw [he]; exact set h0
  · rw [he]; exact set (Int.le_refl 0)
  · rw [he]; exact set (Int.le_refl 0)

/-! ## The counts -/

section Counts

variable {dir : Int → DirectoryEntry} {fds : Int → FileDescriptor}

/-- An entry that is not in use, and a descriptor that is not, do not matter. -/
theorem Fds.unused (h : Fds dir fds) {e : DirectoryEntry} {f : FileDescriptor} (hi : (dir i).used = false)
    (he : e.used = false) (hfd : IsFd fd) (hu : (fds fd).used = false) (hf : f.used = false) :
    Fds (Function.update dir i e) (Function.update fds fd f) := by
  have hkeep : ∀ j, Used (Function.update dir i e) j → j ≠ i ∧ Used dir j := by
    intro j hj
    have hji : j ≠ i := by
      intro hji
      have hused := hj.2
      rw [hji, Function.update_self, he] at hused
      cases hused
    exact ⟨hji, (used_update hji).mp hj⟩
  refine ⟨fun j hj => ?_, fun x hx hux => ?_⟩
  · obtain ⟨hji, hj'⟩ := hkeep j hj
    have hupd := openCount_update fds hfd f (dir j).inodeNumber
    rw [hu, hf] at hupd
    simp only [Bool.false_and, Bool.false_eq_true, if_false, Nat.add_zero] at hupd
    rw [Function.update_of_ne hji, hupd]
    exact h.count j hj'
  · have hxf : x ≠ fd := by
      intro hxf
      rw [hxf, Function.update_self, hf] at hux
      cases hux
    rw [Function.update_of_ne hxf] at hux ⊢
    obtain ⟨j, hj, hje⟩ := h.linked x hx hux
    have hji : j ≠ i := by
      intro hji
      rw [hji, Used, hi] at hj
      exact absurd hj.2 (by decide)
    exact ⟨j, (used_update hji).mpr hj, by rw [Function.update_of_ne hji]; exact hje⟩

theorem Fds.setOffset_filed (h : Fds dir (filed fds)) (fd off : Int) :
    Fds dir (filed (Function.update fds fd { fds fd with offset := off })) := by
  rw [filed_update, filed_offset]
  exact h.setOffset fd off

end Counts

/-- fs_open with any name. -/
theorem Sound.open_fds {name : CString} (h : Sound s ch) (hc : fsOpen s name = some (r, s')) :
    Fds s'.directory (filed s'.fdArray) := by
  obtain ⟨-, rfl, -⟩ | ⟨fildes, i, hfd, hun, -, hi, -, -, -, rfl⟩ := fsOpen_cases hc
  · exact h.fds
  have hidle : (filed s.fdArray fildes).used = false := by
    rw [← Bool.not_eq_true, filed, filed_used, hun]
    exact fun hx => absurd hx.1 (by decide)
  dsimp only
  rw [filed_update]
  by_cases hu : (s.directory i).used = true
  · rw [filed_of_data ((h.files.shape.dir.inode i hi).mp hu)]
    exact h.fds.open hfd hidle ⟨hi, hu⟩ (h.files.inj ⟨hi, hu⟩)
  · have hnot : ¬ DataBlock (s.directory i).inodeNumber := fun hd => hu ((h.files.shape.dir.inode i hi).mpr hd)
    rw [Bool.not_eq_true] at hu
    refine h.fds.unused hu hu hfd hidle ?_
    unfold FileDescriptor.filed
    rw [if_neg hnot]

/-- One call keeps the counts of the files, whatever its name is. -/
theorem Sound.step_counts {c : Call} {ret : Ret} (h : Sound s ch) (hc : c.IsFs) (hs : s.step c = some (ret, s')) :
    Fds s'.directory (filed s'.fdArray) := by
  obtain rfl | ⟨_, rfl, hx⟩ | ⟨_, rfl, hx⟩ | ⟨_, rfl, hx⟩ | ⟨_, rfl, hx⟩ | ⟨_, _, _, rfl, hx⟩ |
    ⟨fildes, _, _, rfl, hx⟩ | ⟨fildes, _, rfl, hx⟩ | ⟨_, _, rfl, hx⟩ := FS.step_cases hc hs
  · exact h.fds
  · obtain ⟨-, rfl, -⟩ | ⟨inode, i, -, -, hfree, -, hun, -, rfl⟩ := fsCreate_cases hx
    · exact h.fds
    refine h.fds.create hun rfl fun j hj he => ?_
    have hmem := h.files.chains.head_mem hj
    rw [he] at hmem
    exact h.files.chains.notMem_of_free (P := (· = 1)) (by decide)
      (freeBlock_eq_some h.files.shape.super hfree).2 hj hmem
  · exact h.open_fds hx
  · obtain ⟨-, rfl, -⟩ | ⟨i, hfd, hun, hi, -, -, rfl⟩ := fsClose_cases hx
    · exact h.fds
    obtain ⟨hu, he⟩ := dirIndex_eq_some hi
    have hd : DataBlock (s.fdArray _).inodeNumber := he ▸ (h.files.shape.dir.inode i hu.1).mp hu.2
    have hclosed := h.fds.close hfd (filed_used.mpr ⟨hun, hd⟩) (by rw [filed, filed_inode]; exact he) (h.files.inj hu)
    dsimp only
    rw [filed_update]
    exact hclosed
  · obtain ⟨-, rfl, -⟩ | ⟨i, s₁, hi, -, hcount, hfree, -, rfl⟩ := fsDelete_cases hx
    · exact h.fds
    have hu := fsDelete_used h.files.shape hi hfree
    rw [h.files.freeChain_eq hu] at hfree
    cases hfree
    exact h.fds.delete hu hcount rfl
  · obtain rfl | ⟨off, -, -, rfl⟩ := fsRead_cases hx
    · exact h.fds
    · exact h.fds.setOffset_filed _ off
  · obtain ⟨-, rfl, -⟩ | ⟨i, ok, s₁, -, -, hi, hrun, hrest⟩ := fsWrite_cases hx
    · exact h.fds
    have hs₁ := (h.files.shape.grown (dirIndex_eq_some hi).1 hrun).2
    have hdir : s₁.directory = s.directory := by rw [hs₁]
    have hfds : s₁.fdArray = s.fdArray := by rw [hs₁]
    obtain ⟨-, -, rfl⟩ | ⟨-, hw⟩ := hrest
    · rw [hdir, hfds]; exact h.fds
    obtain ⟨size, d, fds, rfl, -, hfd, -⟩ := writeData_cases hw
    have hfds' : Fds s.directory (filed fds) := by
      obtain rfl | ⟨off, rfl⟩ := hfd
      · rw [hfds]; exact h.fds
      · rw [hfds]; exact h.fds.setOffset_filed fildes off
    simp only [hdir]
    exact hfds'.congr (sameFile_update ⟨rfl, rfl, rfl⟩) (count_update rfl)
  · obtain ⟨-, rfl, -⟩ | ⟨i, -, -, -, -, -, -, rfl⟩ := fsLseek_cases hx
    · exact h.fds
    · exact h.fds.setOffset_filed fildes _
  · obtain ⟨-, rfl, -⟩ | ⟨i, c, table, -, -, -, -, -, -, -, -, rfl⟩ := fsTruncate_cases hx
    · exact h.fds
    · exact h.fds.congr (sameFile_update ⟨rfl, rfl, rfl⟩) (count_update rfl)

/-! ## Runs -/

theorem Sound.step {c : Call} {ret : Ret} (h : Sound s ch) (hc : c.IsFs) (hs : s.step c = some (ret, s')) :
    ∃ ch', Sound s' ch' := by
  obtain ⟨ch', hf, -⟩ := Files.step (P := (· = 1)) (by decide) rfl hc h.files hs
  exact ⟨ch',
    { files := hf
      ready := (h.files.shape.step_disk hc hs).2.ready h.ready
      offset := offset_step h.offset h.files.shape hc hs
      idle := h.idle.step h.files.shape hc hs
      fds := h.step_counts hc hs }⟩

theorem session_sound {files : String → Option Image} {d : String} {junk : Junk} {heap : Buf} {s₀ : FS}
    (h : session files d junk heap = some (r, s₀)) : Sound s₀ (fun _ => []) where
  files := (session_fresh h).files _ _
  ready := (session_fresh h).ready
  offset := fun fd => by rw [session_fds h fd]
  idle := fun fd _ => by rw [session_fds h fd]; decide
  fds := by
    refine ⟨fun i hi => absurd hi ((session_fresh h).noFile i), fun fd _ hu => ?_⟩
    rw [filed, filed_used, session_fds h fd] at hu
    exact absurd hu.1 (by decide)

/-- Every state that fs_* calls reach in a session. -/
theorem run_sound {files : String → Option Image} {d : String} {junk : Junk} {heap : Buf} {s₀ : FS}
    {es : List (Call × Ret)} (h : session files d junk heap = some (r, s₀))
    (hrun : Run (Guarded FS.step fun _ c => c.IsFs) s₀ es s) : ∃ ch, Sound s ch := by
  refine hrun.invariant (I := fun s => ∃ ch, Sound s ch) ⟨_, session_sound h⟩ ?_
  intro s e s' ⟨ch, hs⟩ ⟨hc, hstep⟩
  exact hs.step hc hstep

end EC440.FileSystem
