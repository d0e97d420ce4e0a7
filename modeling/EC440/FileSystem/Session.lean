/-
  Runs of one session: make_fs, mount_fs, then any fs_* calls.

  The chains of the files stay disjoint, acyclic and marked in the bitmap, and long enough for
  the sizes in the directory, as long as fs_truncate is not given a negative length that the
  entry's `int` stores as a large one: fs_truncate has no test for that, as fs_lseek has.
-/
import EC440.Lib.Run
import EC440.FileSystem.Invariant
import EC440.FileSystem.Mount

namespace EC440.FileSystem

open EC440.Lib

/-- An fs_* call with a non-empty name and a descriptor in 0..31. -/
def Call.InSession : Call → Prop
  | .create name => name.chars ≠ []
  | .open name => name.chars ≠ []
  | .close fildes => IsFd fildes
  | .delete name => name.chars ≠ []
  | .read fildes _ _ => IsFd fildes
  | .write fildes _ _ => IsFd fildes
  | .getFilesize fildes => IsFd fildes
  | .listfiles => True
  | .lseek fildes _ => IsFd fildes
  | .truncate fildes _ => IsFd fildes
  | .mount _ _ => False
  | .umount _ => False

instance : DecidablePred Call.InSession
  | .create name => inferInstanceAs (Decidable (name.chars ≠ []))
  | .open name => inferInstanceAs (Decidable (name.chars ≠ []))
  | .close fildes => inferInstanceAs (Decidable (IsFd fildes))
  | .delete name => inferInstanceAs (Decidable (name.chars ≠ []))
  | .read fildes _ _ => inferInstanceAs (Decidable (IsFd fildes))
  | .write fildes _ _ => inferInstanceAs (Decidable (IsFd fildes))
  | .getFilesize fildes => inferInstanceAs (Decidable (IsFd fildes))
  | .listfiles => inferInstanceAs (Decidable True)
  | .lseek fildes _ => inferInstanceAs (Decidable (IsFd fildes))
  | .truncate fildes _ => inferInstanceAs (Decidable (IsFd fildes))
  | .mount _ _ => inferInstanceAs (Decidable False)
  | .umount _ => inferInstanceAs (Decidable False)

theorem Call.InSession.isFs {c : Call} (h : c.InSession) : c.IsFs := by
  cases c <;> trivial

theorem Call.InSession.named {c : Call} (h : c.InSession) : c.Named := by
  cases c <;> first | exact h | trivial

/-- `l` are the blocks of a file with directory entry `e`. -/
structure IsChainOf (s : FS) (e : DirectoryEntry) (l : List Int) : Prop where
  links : Linked (nextOf s.table) (some e.inodeNumber) l
  nodup : l.Nodup
  data : ∀ b ∈ l, s.super.dataOffset ≤ b ∧ b < diskBlocks
  bitmap : ∀ b ∈ l, s.usedBlockBitmap b = 1
  length : max 1 ((e.size + blockSize - 1) / blockSize) ≤ l.length

/-- Every file has its blocks, and no two files share one. -/
def BlocksOk (s : FS) : Prop :=
  ∃ ch : Int → List Int, (∀ i, Used s.directory i → IsChainOf s (s.directory i) (ch i)) ∧
    ∀ i j, Used s.directory i → Used s.directory j → i ≠ j → ∀ b ∈ ch i, b ∉ ch j

theorem Files.blocksOk {s : FS} {ch : Int → List Int} (h : Files (· = 1) s ch)
    (hs : Sized s.directory ch) : BlocksOk s := by
  refine ⟨ch, fun i hi => ⟨h.chains.chain i hi, h.chains.nodup i hi, fun b hb => ?_,
    fun b hb => (h.chains.blocks i hi b hb).2, ?_⟩, h.chains.disjoint⟩
  · rw [h.shape.super]; exact (h.chains.blocks i hi b hb).1
  · have h1 := List.length_pos_of_ne_nil (h.chains.chain i hi).ne_nil
    have h2 := hs i hi
    unfold blockSize at *
    omega

/-- The state a session starts in: no file, no open descriptor. -/
structure Fresh (s : FS) (d : String) : Prop where
  shape : Shape s
  mounted : s.mounted = true
  ready : s.disk.Ready
  handle : s.disk.handle = some d
  noFile : ∀ i, ¬ Used s.directory i
  noFd : ∀ fd, (s.fdArray fd).used = false

theorem session_fresh {files : String → Option Image} {d : String} {junk : Junk} {heap : Buf} {r : Int}
    {s : FS} (h : session files d junk heap = some (r, s)) : Fresh s d := by
  obtain ⟨s', files', hs, hr, hl, -⟩ := session_ready files d junk heap
  rw [hs, Option.some.injEq, Prod.mk.injEq] at h
  obtain ⟨-, rfl⟩ := h
  refine ⟨hl.shape (emptyDir_shape junk) (emptyInode_shape junk), hl.mounted, by rw [hl.disk]; exact hr,
    by rw [hl.disk], fun i hi => ?_, hl.fds⟩
  have hu := (hl.of_used hi).2.2.2
  simp [emptyDir] at hu

/-- The descriptors of a new session are as the process began with. -/
theorem session_fds {files : String → Option Image} {d : String} {junk : Junk} {heap : Buf} {r : Int}
    {s : FS} (h : session files d junk heap = some (r, s)) (fd : Int) : s.fdArray fd = ⟨false, 0, 0⟩ := by
  obtain ⟨s', files', hs, -, -, hfd⟩ := session_ready files d junk heap
  rw [hs, Option.some.injEq, Prod.mk.injEq] at h
  obtain ⟨-, rfl⟩ := h
  exact hfd fd

theorem Fresh.files {s : FS} {d : String} (h : Fresh s d) (P : UInt8 → Prop) (ch : Int → List Int) :
    Files P s ch where
  shape := h.shape
  chains := ⟨fun i hi => absurd hi (h.noFile i), fun i hi => absurd hi (h.noFile i),
    fun i hi => absurd hi (h.noFile i), fun i _ hi => absurd hi (h.noFile i)⟩

theorem Fresh.fds {s : FS} {d : String} (h : Fresh s d) : Fds s.directory s.fdArray :=
  ⟨fun i hi => absurd hi (h.noFile i), fun fd _ hu => by rw [h.noFd fd] at hu; cases hu⟩

/-- The calls of a session that store no negative length as a large one. -/
def SessionCall (s : FS) (c : Call) : Prop := c.InSession ∧ c.NoWrap s

instance (s : FS) (c : Call) : Decidable (SessionCall s c) := inferInstanceAs (Decidable (_ ∧ _))

/-- In every run of a session whose fs_truncate calls store no negative length as a large one,
    every file has its blocks, marked in the bitmap and shared with no other file. -/
theorem session_blocksOk {files : String → Option Image} {d : String} {junk : Junk} {heap : Buf} {r : Int}
    {s₀ s : FS} {es : List (Call × Ret)} (h : session files d junk heap = some (r, s₀))
    (hrun : Run (Guarded FS.step SessionCall) s₀ es s) : BlocksOk s := by
  have hinv : ∃ ch, Files (· = 1) s ch ∧ Sized s.directory ch := by
    refine hrun.invariant (I := fun s => ∃ ch, Files (· = 1) s ch ∧ Sized s.directory ch)
      ⟨fun _ => [], (session_fresh h).files _ _, fun i hi => absurd hi ((session_fresh h).noFile i)⟩ ?_
    rintro s e s' ⟨ch, hi, hz⟩ ⟨⟨hin, hw⟩, hstep⟩
    obtain ⟨ch', hi', hz', -⟩ := Files.step (P := (· = 1)) (by decide) rfl hin.isFs hi hstep
    exact ⟨ch', hi', hz' hz hw⟩
  obtain ⟨ch, hi, hz⟩ := hinv
  exact hi.blocksOk hz

/-- A session run on given calls. -/
theorem session_exec {files : String → Option Image} {d : String} {junk : Junk} {heap : Buf}
    (G : FS → Call → Prop) (ok : FS → Call → Bool) (calls : List Call) (p : FS → Bool)
    (hok : ∀ s, ∀ c ∈ calls, ok s c = true → G s c)
    (h : ((session files d junk heap).bind fun q =>
      (exec FS.step ok q.2 calls).map fun q' => p q'.2) = some true) :
    ∃ r s₀ es s, session files d junk heap = some (r, s₀) ∧ Run (Guarded FS.step G) s₀ es s ∧
      p s = true := by
  obtain ⟨⟨r, s₀⟩, hs, h⟩ := Option.bind_eq_some_iff.mp h
  obtain ⟨⟨es, s⟩, he, hp⟩ := Option.map_eq_some_iff.mp h
  exact ⟨r, s₀, [] ++ es, s, hs, exec_run hok .start he, hp⟩

/-- The names and the uninitialised bytes of the sessions below. -/
def nameA : CString := ⟨[97], by decide⟩

def zeroJunk : Junk := ⟨List.replicate 15 0, 0, by decide⟩

/-- A file is created, opened, written and cut. -/
theorem session_blocksOk_write : ∃ r s₀ es s,
    session (fun _ => none) "disk" zeroJunk (fun _ => 0) = some (r, s₀) ∧
      Run (Guarded FS.step SessionCall) s₀ es s ∧ BlocksOk s ∧ (s.directory 0).size = 1 := by
  obtain ⟨r, s₀, es, s, hs, hrun, hp⟩ := session_exec SessionCall (fun s c => decide (SessionCall s c))
    [.create nameA, .open nameA, .write 0 [1, 2, 3] 3, .truncate 0 1] (fun s => (s.directory 0).size == 1)
    (fun s c _ h => of_decide_eq_true h)
    (show (session (fun _ => none) "disk" zeroJunk (fun _ => 0)).bind _ = some true by decide +kernel)
  exact ⟨r, s₀, es, s, hs, hrun, session_blocksOk hs hrun, by simpa using hp⟩

/-- fs_truncate(0, -4294959104) on an empty file sets its size to 8192 and leaves it one block. -/
theorem truncate_negative_breaks_blocks :
    ¬ ∀ (files : String → Option Image) (d : String) (junk : Junk) (heap : Buf) (r : Int) (s₀ s : FS)
      (es : List (Call × Ret)), session files d junk heap = some (r, s₀) →
      Run (Guarded FS.step fun _ c => c.InSession) s₀ es s → BlocksOk s := by
  intro hall
  obtain ⟨r, s₀, es, s, hs, hrun, hp⟩ := session_exec (fun _ c => c.InSession)
    (fun _ c => decide c.InSession) [.create nameA, .open nameA, .truncate 0 (-4294959104)]
    (fun s => decide ((s.directory 0).used = true ∧ (s.directory 0).inodeNumber = 20 ∧
      (s.directory 0).size = 8192 ∧ (s.table 20).nextDirectOffset = -1))
    (fun s c _ h => of_decide_eq_true h)
    (show (session (fun _ => none) "disk" zeroJunk (fun _ => 0)).bind _ = some true by decide +kernel)
  obtain ⟨hu, hino, hsize, hnext⟩ := of_decide_eq_true hp
  obtain ⟨ch, hch, -⟩ := hall _ _ _ _ _ _ _ _ hs hrun
  have hc := hch 0 ⟨by decide, hu⟩
  have hone : Linked (nextOf s.table) (some (s.directory 0).inodeNumber) [20] := by
    rw [hino]
    simp [Linked, nextOf, hnext]
  have hlen := hc.length
  rw [hc.links.unique hone, hsize] at hlen
  exact absurd hlen (by decide)

end EC440.FileSystem
