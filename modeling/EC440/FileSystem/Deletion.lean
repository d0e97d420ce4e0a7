/-
  fs_delete frees one file: its blocks, its entry, and nothing else.

  The loop follows the links that it overwrites, so that it ends, and ends with exactly the blocks
  of the chain freed, rests on the chain being without repetition and shared with no other file.
  A file that is created, opened, written and read through its descriptor, closed and deleted leaves
  the bitmap as it was before.
-/
import EC440.FileSystem.Allocation
import EC440.FileSystem.Cycles

namespace EC440.FileSystem

open EC440.Lib

variable {s s' : FS} {ch : Int → List Int} {fd i r : Int} {buf : List UInt8} {nbyte : Nat} {name : CString}

/-- No descriptor is open on the file in slot `i`. -/
def Unopened (s : FS) (i : Int) : Prop :=
  ∀ fd, IsFd fd → (s.fdArray fd).used = true → (s.fdArray fd).inodeNumber ≠ (s.directory i).inodeNumber

/-- The state with the file in slot `i` freed: the blocks `l` of its chain and its entry. -/
def freed (s : FS) (i : Int) (l : List Int) : FS :=
  { s with
    usedBlockBitmap := clearBits s.usedBlockBitmap l
    table := unlink s.table l
    directory := Function.update s.directory i
      { used := false, inodeNumber := -1, name := clearName (s.directory i).name, size := 0, count := 0 } }

/-- The count of a file is the number of descriptors open on it. -/
theorem Sound.count_eq_zero (h : Sound s ch) (hi : Used s.directory i) : (s.directory i).count ≤ 0 ↔ Unopened s i := by
  have hd := (h.files.shape.dir.inode i hi.1).mp hi.2
  rw [h.fds.count i hi, show ((openCount (filed s.fdArray) (s.directory i).inodeNumber : Nat) : Int) ≤ 0 ↔
    openCount (filed s.fdArray) (s.directory i).inodeNumber = 0 by omega, openCount_eq_zero]
  unfold Unopened filed
  constructor
  · intro hall fd hfd hu he
    exact hall fd hfd (filed_used.mpr ⟨hu, he ▸ hd⟩) (by rw [filed_inode]; exact he)
  · intro hall fd hfd hu
    rw [filed_inode]
    exact hall fd hfd (filed_used.mp hu).1

/-- The search for a name that is not empty finds the file with that name. -/
theorem Shape.nameIndex_eq (h : Shape s) (hn : name.chars ≠ []) (hi : Used s.directory i)
    (hname : name.chars = cstr (s.directory i).name) :
    firstIn (fun i => name.chars == cstr (s.directory i).name) 0 maxNumOfFiles = some i := by
  refine firstIn_unique hi.1.1 hi.1.2 (by simpa using hname) fun k h1 h2 hk => ?_
  have hk' : name.chars = cstr (s.directory k).name := by simpa using hk
  exact h.dir.names k i (h.used_of_name hn ⟨h1, h2⟩ hk') hi (hk'.symm.trans hname)

theorem Sound.delete_eq (h : Sound s ch) (hn : name.chars ≠ []) (hi : Used s.directory i)
    (hname : name.chars = cstr (s.directory i).name) (hclosed : Unopened s i) :
    fsDelete s name = some (0, freed s i (ch i)) := by
  have hcount := (h.count_eq_zero hi).mpr hclosed
  unfold fsDelete
  rw [h.files.shape.nameIndex_eq hn hi hname]
  dsimp only
  rw [if_neg (by omega), h.files.freeChain_eq hi]
  rfl

/-- fs_delete has freed the file in slot `i` alone. -/
structure DeletedOnly (s : FS) (i : Int) (s' : FS) : Prop where
  state : s' = freed s i (fileBlocks s.table (s.directory i).inodeNumber)
  others : ∀ j, Used s.directory j → j ≠ i → Used s'.directory j ∧ s'.directory j = s.directory j ∧
    fileBlocks s'.table (s'.directory j).inodeNumber = fileBlocks s.table (s.directory j).inodeNumber ∧
    content s' (s'.directory j) = content s (s.directory j)

theorem Sound.deletedOnly (h : Sound s ch) (hi : Used s.directory i) : DeletedOnly s i (freed s i (ch i)) := by
  have hch := h.files.chains.fileBlocks_eq hi
  refine ⟨by rw [hch], fun j hj hji => ?_⟩
  have hchains := h.files.chains.delete hi (e := ((freed s i (ch i)).directory i))
    (by unfold freed; simp only [Function.update_self])
  have hdir : (freed s i (ch i)).directory j = s.directory j := Function.update_of_ne hji _ _
  have hj' : Used (freed s i (ch i)).directory j := ⟨hj.1, by rw [hdir]; exact hj.2⟩
  have hblocks : fileBlocks (freed s i (ch i)).table ((freed s i (ch i)).directory j).inodeNumber =
      fileBlocks s.table (s.directory j).inodeNumber := by
    rw [hdir, h.files.chains.fileBlocks_eq hj]
    have hnew := hchains.fileBlocks_eq (i := j) ((used_update hji).mpr hj)
    rw [Function.update_of_ne hji] at hnew
    exact hnew
  refine ⟨hj', hdir, hblocks, ?_⟩
  unfold content
  rw [hblocks, hdir]
  rfl

/-! ## A file from fs_create to fs_delete -/

/-- fs_read, fs_write or fs_lseek on the descriptor `fd`. -/
def Call.OnFd (fd : Int) : Call → Prop
  | .read fildes _ _ => fildes = fd
  | .write fildes _ _ => fildes = fd
  | .lseek fildes _ => fildes = fd
  | _ => False

theorem Call.OnFd.isFs {c : Call} (h : c.OnFd fd) : c.IsFs := by
  cases c <;> trivial

/-- The file `name` in slot `i` is open on `fd` alone, and the bitmap was `bitmap` before it got its blocks. -/
structure Held (bitmap : Int → UInt8) (name : CString) (i fd : Int) (s : FS) : Prop where
  sound : ∃ ch, Sound s ch
  used : Used s.directory i
  name : name.chars = cstr (s.directory i).name
  isFd : IsFd fd
  opened : (s.fdArray fd).used = true
  inode : (s.fdArray fd).inodeNumber = (s.directory i).inodeNumber
  only : ∀ x, IsFd x → (s.fdArray x).used = true → (s.fdArray x).inodeNumber = (s.directory i).inodeNumber → x = fd
  bitmap : ∀ b, bitmap b =
    if b ∈ fileBlocks s.table (s.directory i).inodeNumber then 0 else s.usedBlockBitmap b

/-- What fs_write does to the blocks and the bitmap. -/
theorem Sound.write_blocks (h : Sound s ch) (hi : Used s.directory i)
    (he : (s.fdArray fd).inodeNumber = (s.directory i).inodeNumber) (hc : fsWrite s fd buf nbyte = some (r, s')) :
    ∃ new, fileBlocks s'.table (s.directory i).inodeNumber = fileBlocks s.table (s.directory i).inodeNumber ++ new ∧
      (∀ b ∈ new, s.usedBlockBitmap b = 0) ∧
      ∀ b, s'.usedBlockBitmap b = if b ∈ new then 1 else s.usedBlockBitmap b := by
  obtain ⟨-, rfl, -⟩ | ⟨j, ok, s₁, -, -, hidx, hrun, hrest⟩ := fsWrite_cases hc
  · exact ⟨[], by simp, by simp, by simp⟩
  obtain ⟨hj, hje⟩ := dirIndex_eq_some hidx
  obtain rfl : j = i := h.files.inj hi j hj (hje.trans he)
  obtain ⟨new, hg, hf, -⟩ := h.files.grown (P := (· = 1)) (by decide) rfl hi hrun
  have hdir : s₁.directory = s.directory := by rw [hg.same]
  have hblocks := hf.chains.fileBlocks_eq (i := j) (by rw [hdir]; exact hi)
  rw [Function.update_self, hdir] at hblocks
  have hsame : s'.table = s₁.table ∧ s'.usedBlockBitmap = s₁.usedBlockBitmap := by
    obtain ⟨-, -, rfl⟩ | ⟨-, hw⟩ := hrest
    · exact ⟨rfl, rfl⟩
    · obtain ⟨_, _, _, rfl, -⟩ := writeData_cases hw
      exact ⟨rfl, rfl⟩
  rw [hsame.1, hsame.2, h.files.chains.fileBlocks_eq hi]
  exact ⟨new, hblocks, fun b hb => (hg.fresh b hb).2, hg.bitmap⟩

/-- What a call on the descriptor leaves of the entries and the descriptors. -/
theorem Call.OnFd.keeps {c : Call} {ret : Ret} (hc : c.OnFd fd) (h : Shape s) (hs : s.step c = some (ret, s')) :
    (∀ j, SameFile (s.directory j) (s'.directory j)) ∧
      ∀ x, (s'.fdArray x).used = (s.fdArray x).used ∧ (s'.fdArray x).inodeNumber = (s.fdArray x).inodeNumber := by
  have move : ∀ {y : Int} {off : Int} {x : Int}, ((moveTo s y off).fdArray x).used = (s.fdArray x).used ∧
      ((moveTo s y off).fdArray x).inodeNumber = (s.fdArray x).inodeNumber := by
    intro y off x
    unfold moveTo
    by_cases hx : x = y
    · subst hx; simp only [Function.update_self, and_self]
    · simp only [Function.update_of_ne hx, and_self]
  have same : ∀ j, SameFile (s.directory j) (s.directory j) := fun _ => ⟨rfl, rfl, rfl⟩
  cases c with
  | read fildes buf nbyte =>
      obtain rfl | ⟨off, -, -, -, rfl⟩ := fsRead_moves h (step_read_eq_some hs)
      · exact ⟨same, fun _ => ⟨rfl, rfl⟩⟩
      · exact ⟨same, fun _ => move⟩
  | write fildes buf nbyte =>
      obtain ⟨-, rfl, -⟩ | ⟨j, ok, s₁, -, -, hidx, hrun, hrest⟩ := fsWrite_cases (codeOnly_eq_some hs).1
      · exact ⟨same, fun _ => ⟨rfl, rfl⟩⟩
      have hs₁ := (h.grown (dirIndex_eq_some hidx).1 hrun).2
      have hdir : s₁.directory = s.directory := by rw [hs₁]
      have hfd : s₁.fdArray = s.fdArray := by rw [hs₁]
      obtain ⟨-, -, rfl⟩ | ⟨-, hw⟩ := hrest
      · rw [hdir, hfd]; exact ⟨same, fun _ => ⟨rfl, rfl⟩⟩
      obtain ⟨size, d, fds, rfl, -, hfds, -⟩ := writeData_cases hw
      refine ⟨?_, fun x => ?_⟩
      · simp only [hdir]
        exact sameFile_update ⟨rfl, rfl, rfl⟩
      · obtain rfl | ⟨off, rfl⟩ := hfds
        · dsimp only
          rw [hfd]
          exact ⟨rfl, rfl⟩
        · dsimp only
          rw [hfd]
          exact move
  | lseek fildes offset =>
      obtain ⟨-, rfl, -⟩ | ⟨_, -, -, -, -, -, -, rfl⟩ := fsLseek_cases (codeOnly_eq_some hs).1
      · exact ⟨same, fun _ => ⟨rfl, rfl⟩⟩
      · exact ⟨same, fun _ => move⟩
  | _ => exact hc.elim

theorem Held.step {bitmap : Int → UInt8} {c : Call} {ret : Ret} (h : Held bitmap name i fd s) (hc : c.OnFd fd)
    (hs : s.step c = some (ret, s')) : Held bitmap name i fd s' := by
  obtain ⟨ch, hsound⟩ := h.sound
  obtain ⟨hdir, hfds⟩ := hc.keeps hsound.files.shape hs
  have hino := (hdir i).2.1
  have hbits : ∃ new, fileBlocks s'.table (s.directory i).inodeNumber =
      fileBlocks s.table (s.directory i).inodeNumber ++ new ∧ (∀ b ∈ new, s.usedBlockBitmap b = 0) ∧
      ∀ b, s'.usedBlockBitmap b = if b ∈ new then 1 else s.usedBlockBitmap b := by
    cases c with
    | read fildes buf nbyte =>
        refine ⟨[], ?_⟩
        obtain rfl | ⟨off, -, -, rfl⟩ := fsRead_cases (step_read_eq_some hs) <;> simp
    | write fildes buf nbyte =>
        cases hc
        exact hsound.write_blocks h.used h.inode (codeOnly_eq_some hs).1
    | lseek fildes offset =>
        refine ⟨[], ?_⟩
        obtain ⟨-, rfl, -⟩ | ⟨_, -, -, -, -, -, -, rfl⟩ := fsLseek_cases (codeOnly_eq_some hs).1 <;> simp
    | _ => exact hc.elim
  obtain ⟨new, hblocks, hfree, hbit⟩ := hbits
  refine ⟨hsound.step hc.isFs hs, (used_congr hdir).mpr h.used, by rw [(hdir i).2.2]; exact h.name, h.isFd,
    by rw [(hfds fd).1]; exact h.opened, by rw [(hfds fd).2, hino]; exact h.inode, fun x hx hu he => ?_, fun b => ?_⟩
  · rw [(hfds x).1] at hu
    rw [(hfds x).2, hino] at he
    exact h.only x hx hu he
  · rw [hino, hblocks, h.bitmap b, hbit b]
    by_cases hnew : b ∈ new
    · rw [if_pos (List.mem_append_right _ hnew), hfree b hnew, ite_self]
    · rw [if_neg hnew]
      simp only [List.mem_append, or_iff_left hnew]

theorem codeOnly_of {x : Option (Int × FS)} (h : x = some (r, s')) : codeOnly x = some ({ code := r }, s') := by
  rw [h]
  rfl

/-- A file that has just been created and opened. -/
theorem Sound.held {s₁ s₂ : FS} (h : Sound s ch) (hn : name.chars ≠ []) (hc : fsCreate s name = some (0, s₁))
    (ho : fsOpen s₁ name = some (fd, s₂)) (hfd : fd ≠ -1) : ∃ i, Held s.usedBlockBitmap name i fd s₂ := by
  obtain ⟨ch₁, h₁⟩ := h.step (c := .create name) trivial (codeOnly_of hc)
  have h₂ := h₁.step (c := .open name) trivial (codeOnly_of ho)
  obtain ⟨hr, -⟩ | ⟨inode, i, -, -, hfree, hi, -, -, hs₁⟩ := fsCreate_cases hc
  · exact absurd hr (by decide)
  obtain ⟨hb, hbit⟩ := freeBlock_eq_some h.files.shape.super hfree
  obtain ⟨hr, -⟩ | ⟨fildes, k, hisFd, -, -, hk, hname, -, rfl, hs₂⟩ := fsOpen_cases ho
  · exact absurd hr hfd
  -- the entry that fs_open finds is the one that fs_create filled
  have hi₁ : Used s₁.directory i := ⟨hi, by rw [hs₁]; simp⟩
  have hname₁ : cstr (s₁.directory i).name = name.chars := by rw [hs₁]; simp [cstr_strcpy]
  obtain rfl : k = i := h₁.files.shape.dir.names k i (h₁.files.shape.used_of_name hn hk hname) hi₁
    (hname.symm.trans hname₁.symm)
  have hino : (s₁.directory k).inodeNumber = inode := by rw [hs₁]; simp
  have hsame : ∀ j, SameFile (s₁.directory j) (s₂.directory j) := by
    rw [hs₂]; exact sameFile_update ⟨rfl, rfl, rfl⟩
  have hino₂ : (s₂.directory k).inodeNumber = inode := (hsame k).2.1.trans hino
  have hblocks : fileBlocks s₁.table inode = [inode] := by
    refine fileBlocks_eq ?_ (List.nodup_singleton _) fun b hmem => ?_
    · rw [hs₁]
      simp [Linked, nextOf]
    · rw [List.mem_singleton] at hmem
      rw [hmem]
      exact hb
  have htab : s₂.table = s₁.table := by rw [hs₂]
  have hbits : s₂.usedBlockBitmap = Function.update s.usedBlockBitmap inode 1 := by rw [hs₂, hs₁]
  refine ⟨k, h₂, (used_congr hsame).mpr hi₁, hname₁.symm.trans (congrArg cstr (hsame k).2.2.symm), hisFd,
    by rw [hs₂]; simp, by rw [hino₂, hs₂]; simp [hino], fun x hx hu he => ?_, fun b => ?_⟩
  · -- a descriptor on the block would belong to a file that had it before
    by_contra hne
    have hold : s₂.fdArray x = s.fdArray x := by
      rw [hs₂, hs₁]
      exact Function.update_of_ne hne _ _
    rw [hold] at hu he
    rw [hino₂] at he
    obtain ⟨j, hj, hje⟩ := h.fds.linked x hx (filed_used.mpr ⟨hu, he ▸ hb⟩)
    rw [filed, filed_inode, he] at hje
    exact h.files.chains.notMem_of_free (P := (· = 1)) (by decide) hbit hj (hje ▸ h.files.chains.head_mem hj)
  · rw [hino₂, htab, hblocks, hbits]
    by_cases hbi : b = inode
    · rw [hbi, hbit, if_pos (List.mem_singleton_self _)]
    · rw [Function.update_of_ne hbi, if_neg (by rw [List.mem_singleton]; exact hbi)]

/-- fs_close and fs_delete give the file's blocks back. -/
theorem Held.restore {bitmap : Int → UInt8} (h : Held bitmap name i fd s) (hn : name.chars ≠ []) :
    ∃ s₁ s₂, fsClose s fd = some (0, s₁) ∧ fsDelete s₁ name = some (0, s₂) ∧ s₂.usedBlockBitmap = bitmap := by
  obtain ⟨ch, hs⟩ := h.sound
  have hfd := h.isFd
  unfold IsFd at hfd
  have hidx : dirIndex s.directory (s.fdArray fd).inodeNumber = some i := by
    rw [h.inode]
    exact hs.files.chains.dirIndex_eq h.used
  have hcount : (s.directory i).count ≠ -2147483648 := by
    rw [hs.fds.count i h.used]
    omega
  generalize hs₁ : ({ s with
    fdArray := Function.update s.fdArray fd { used := false, inodeNumber := -1, offset := 0 }
    directory := Function.update s.directory i { s.directory i with count := (s.directory i).count - 1 } } : FS) = s₁
  have hclose : fsClose s fd = some (0, s₁) := by
    unfold fsClose
    rw [if_neg (by omega), hidx]
    dsimp only
    rw [if_neg (by rw [h.opened]; decide), if_neg hcount, hs₁]
  obtain ⟨ch₁, h₁⟩ := hs.step (c := .close fd) trivial (codeOnly_of hclose)
  have hsame : ∀ j, SameFile (s.directory j) (s₁.directory j) := by
    rw [← hs₁]; exact sameFile_update ⟨rfl, rfl, rfl⟩
  have hi₁ : Used s₁.directory i := (used_congr hsame).mpr h.used
  have hclosed : Unopened s₁ i := by
    intro x hx hu he
    have hne : x ≠ fd := by
      intro hxf
      rw [← hs₁, hxf] at hu
      simp at hu
    have hold : s₁.fdArray x = s.fdArray x := by
      rw [← hs₁]
      exact Function.update_of_ne hne _ _
    rw [hold] at hu he
    rw [(hsame i).2.1] at he
    exact hne (h.only x hx hu he)
  have hdelete := h₁.delete_eq hn hi₁ (h.name.trans (congrArg cstr (hsame i).2.2.symm)) hclosed
  refine ⟨s₁, _, hclose, hdelete, funext fun b => ?_⟩
  have htab : s₁.table = s.table := by rw [← hs₁]
  have hbits : s₁.usedBlockBitmap = s.usedBlockBitmap := by rw [← hs₁]
  rw [h.bitmap b, ← (hsame i).2.1, ← htab, h₁.files.chains.fileBlocks_eq hi₁]
  unfold freed clearBits
  rw [hbits]

/-- In every state of a session, fs_delete of a file on which no descriptor is open returns 0 and frees
    that file's blocks and entry alone; and a file that is created, opened, written, read and moved in
    through its descriptor, closed and deleted leaves the bitmap as it was. -/
theorem fsDelete_frees_one {files : String → Option Image} {d : String} {junk : Junk} {heap : Buf} {s₀ : FS}
    {es : List (Call × Ret)} (h : session files d junk heap = some (r, s₀))
    (hrun : Run (Guarded FS.step fun _ c => c.IsFs) s₀ es s) (hn : name.chars ≠ []) :
    (∀ i, Used s.directory i → name.chars = cstr (s.directory i).name → Unopened s i →
      ∃ s', fsDelete s name = some (0, s') ∧ DeletedOnly s i s') ∧
    ∀ fd s₁ s₂ s₃ es', fsCreate s name = some (0, s₁) → fsOpen s₁ name = some (fd, s₂) → fd ≠ -1 →
      Run (Guarded FS.step fun _ c => c.OnFd fd) s₂ es' s₃ →
      ∃ s₄ s₅, fsClose s₃ fd = some (0, s₄) ∧ fsDelete s₄ name = some (0, s₅) ∧
        s₅.usedBlockBitmap = s.usedBlockBitmap := by
  obtain ⟨ch, hs⟩ := run_sound h hrun
  refine ⟨fun i hi hname hclosed => ?_, fun fd s₁ s₂ s₃ es' hc ho hfd hcalls => ?_⟩
  · exact ⟨_, hs.delete_eq hn hi hname hclosed, hs.deletedOnly hi⟩
  · obtain ⟨i, hheld⟩ := hs.held hn hc ho hfd
    have hend : Held s.usedBlockBitmap name i fd s₃ :=
      hcalls.invariant (I := Held s.usedBlockBitmap name i fd) hheld fun _ _ _ hi hg => hi.step hg.1 hg.2
    exact hend.restore hn

def nameC : CString := ⟨[99], by decide⟩

/-- The file `a` is deleted; the file `c` gets two blocks and gives them back. -/
theorem fsDelete_frees_one_two : ∃ r s₀ es s s' s₄ s₅,
    session (fun _ => none) "disk" zeroJunk (fun _ => 0) = some (r, s₀) ∧
      Run (Guarded FS.step fun _ c => c.IsFs) s₀ es s ∧
      (fsDelete s nameA = some (0, s') ∧ DeletedOnly s 0 s') ∧
      fsDelete s₄ nameC = some (0, s₅) ∧ s₅.usedBlockBitmap = s.usedBlockBitmap := by
  obtain ⟨r, s₀, es, s, hs, hrun, hp⟩ := session_exec (fun _ c => c.IsFs) (fun _ c => decide c.IsFs)
    [.create nameA, .open nameA, .write 0 [1, 2, 3] 3, .close 0]
    (fun s => (decide (Used s.directory 0 ∧ nameA.chars = cstr (s.directory 0).name) && noOpenFd s) &&
      (fsCreate s nameC).any fun p₁ => p₁.1 == 0 && (fsOpen p₁.2 nameC).any fun p₂ => p₂.1 == 0 &&
        (p₂.2.step (.write 0 (List.replicate 4097 7) 4097)).isSome)
    (fun s c _ h => of_decide_eq_true h)
    (show (session (fun _ => none) "disk" zeroJunk (fun _ => 0)).bind _ = some true by decide +kernel)
  rw [Bool.and_eq_true, Bool.and_eq_true] at hp
  obtain ⟨⟨hfile, hno⟩, hcalls⟩ := hp
  obtain ⟨hused, hname⟩ := of_decide_eq_true hfile
  obtain ⟨⟨c₁, s₁⟩, hcreate, hp⟩ := (Option.any_eq_true _ _).mp hcalls
  rw [Bool.and_eq_true] at hp
  obtain ⟨⟨fd, s₂⟩, hopen, hp'⟩ := (Option.any_eq_true _ _).mp hp.2
  rw [Bool.and_eq_true] at hp'
  obtain ⟨⟨ret, s₃⟩, hwrite⟩ := Option.isSome_iff_exists.mp hp'.2
  obtain rfl : c₁ = 0 := by simpa using hp.1
  obtain rfl : fd = 0 := by simpa using hp'.1
  have hall := fsDelete_frees_one hs hrun (show nameA.chars ≠ [] by decide)
  obtain ⟨s', hdelete⟩ := hall.1 0 hused hname fun fd hfd hu => by
    rw [noOpenFd_spec hno fd hfd] at hu
    cases hu
  have hall' := fsDelete_frees_one hs hrun (show nameC.chars ≠ [] by decide)
  have hguard : Guarded FS.step (fun _ c => c.OnFd 0) s₂ (.write 0 (List.replicate 4097 7) 4097, ret) s₃ :=
    ⟨(rfl : (0 : Int) = 0), hwrite⟩
  obtain ⟨s₄, s₅, -, hgone, hbits⟩ := hall'.2 0 s₁ s₂ s₃ _ hcreate hopen (by decide) (Run.start.step hguard)
  exact ⟨r, s₀, es, s, s', s₄, s₅, hs, hrun, hdelete, hgone, hbits⟩

end EC440.FileSystem
