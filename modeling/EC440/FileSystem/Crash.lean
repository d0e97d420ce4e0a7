/-
  What is left of the files when the process ends without umount_fs.

  The calls between mount_fs and umount_fs keep the superblock, the directory and the inode table
  in memory and write only data blocks. A new process therefore finds the directory and the table
  of the last umount_fs that succeeded, or of make_fs, over the data blocks of now: the files of
  that time with the lengths of that time, and with the bytes of now where the blocks of the file
  are still its own.
-/
import EC440.FileSystem.Volume

namespace EC440.FileSystem

open EC440.Lib

variable {s s' t : FS} {ch ch' : Int → List Int} {fd i r : Int} {d : String}

/-- A call, or the end of the process and the start of a new one. -/
inductive Event where
  | call (c : Call)
  | crash

/-- A new process begins with its globals zero and no disk open. -/
def FS.event (s : FS) : Event → Option (Ret × FS)
  | .call c => s.step c
  | .crash => some ({ code := 0 }, boot s.disk.files)

/-- The calls of a volume's user, in processes that may end between any two of them. -/
def EventCall (d : String) (s : FS) : Event → Prop
  | .call c => VolumeCall d s c
  | .crash => True

def Volume.files : Volume → List UInt8 → Option (List UInt8)
  | .mounted st => st.files
  | .unmounted files => files

/-- The names of the files that the call deletes or cuts. -/
def Volume.cuts : Volume → Call → Ret → Set (List UInt8)
  | _, .delete name, ret => {n | ret.code = 0 ∧ n = name.chars}
  | .mounted st, .truncate fd _, ret => {n | ret.code = 0 ∧ ∃ off, st.descs fd = some (n, off)}
  | _, _, _ => ∅

/-- A volume with what outlives the process: the lengths of the files at the last umount_fs, and the
    names of the files neither deleted nor cut since. -/
structure Durable where
  volume : Volume
  lengths : List UInt8 → Option Nat
  intact : Set (List UInt8)

inductive Durable.Step : Durable → Event × Ret → Durable → Prop
  | call {v : Volume} {st : Store} {lengths : List UInt8 → Option Nat} {intact : Set (List UInt8)} {c : Call}
      {ret : Ret} : Volume.Step v (c, ret) (.mounted st) →
      Durable.Step ⟨v, lengths, intact⟩ (.call c, ret) ⟨.mounted st, lengths, intact \ v.cuts c ret⟩
  | unmounted {v : Volume} {files : List UInt8 → Option (List UInt8)} {lengths : List UInt8 → Option Nat}
      {intact : Set (List UInt8)} {c : Call} {ret : Ret} : Volume.Step v (c, ret) (.unmounted files) →
      Durable.Step ⟨v, lengths, intact⟩ (.call c, ret)
        ⟨.unmounted files, fun n => (files n).map List.length, Set.univ⟩
  | crash {v : Volume} {files : List UInt8 → Option (List UInt8)} {lengths : List UInt8 → Option Nat}
      {intact : Set (List UInt8)} {ret : Ret} : (∀ n, (files n).map List.length = lengths n) →
      (∀ n ∈ intact, files n = (lengths n).bind fun k => (v.files n).map (List.take k)) →
      Durable.Step ⟨v, lengths, intact⟩ (.crash, ret) ⟨.unmounted files, lengths, Set.univ⟩

/-! ## The metadata blocks -/

/-- The blocks outside the data area hold what they held. -/
def KeepsMetadata (d d' : Disk) : Prop :=
  ∀ b, InBlocks b → ¬ DataBlock b → ∀ k, k < blockSize → d'.block b k = d.block b k

theorem KeepsMetadata.refl (d : Disk) : KeepsMetadata d d := fun _ _ _ _ _ => rfl

theorem blockWrite_range {d d' : Disk} {b : Int} {src : Buf} {off : Nat} (h : blockWrite d b src off = some d') :
    InBlocks b := by
  unfold blockWrite at h
  split at h
  · split at h
    · cases h
    · unfold InBlocks
      omega
  · cases h

theorem blockWrite_metadata {d d' : Disk} {b : Int} {src : Buf} {off : Nat} (hr : d.Ready) (hb : DataBlock b)
    (h : blockWrite d b src off = some d') : KeepsMetadata d d' := by
  obtain ⟨d'', hw, -, -, hblock⟩ := blockWrite_ready hr hb.inBlocks.1 hb.inBlocks.2 src off
  rw [h, Option.some.injEq] at hw
  subst hw
  intro c hc hnot k hk
  rw [hblock c k hc.1 hc.2 hk, if_neg fun he => hnot (by rwa [he])]

/-- fs_write's last loop writes data blocks only. -/
theorem writeAll_metadata : ∀ (n : Nat) (s : FS) (inode : Int) (i : Nat) (buffer : Buf), s.disk.Ready →
    TableShape s.table → (InBlocks inode → DataBlock inode) →
    KeepsMetadata s.disk (writeAll n s inode i buffer).2.disk
  | 0, s, _, _, _, _, _, _ => .refl s.disk
  | n + 1, s, inode, i, buffer, hr, ht, hb => by
      unfold writeAll
      split
      · exact .refl s.disk
      · next d hd =>
          have hin := blockWrite_range hd
          have hone := blockWrite_metadata hr (hb hin) hd
          have hrest := writeAll_metadata n { s with disk := d } (s.table inode).nextDirectOffset (i + 1) buffer
            ((blockWrite_kept hd).ready hr) ht fun hnext => ht.next hin hnext
          exact fun c hc hnot k hk => (hrest c hc hnot k hk).trans (hone c hc hnot k hk)

theorem writeData_metadata {buf : List UInt8} {nbyte : Int} (h : Shape s) (hr : s.disk.Ready) (hi : Used s.directory i)
    (hw : writeData s fd i buf nbyte = some (r, s')) : KeepsMetadata s.disk s'.disk := by
  have hb : DataBlock (s.directory i).inodeNumber := (h.dir.inode i hi.1).mp hi.2
  obtain ⟨size, n, -, -, ⟨-, -, rfl⟩ | ⟨buffer, ok, s₁, -, -, -, -, hall, hrest⟩⟩ := writeData_returns hw
  · exact .refl s.disk
  have hkeep := writeAll_metadata n.toNat (setSize s i size) (s.directory i).inodeNumber 0
    (memcpy buffer (s.fdArray fd).offset.toNat (fun k => buf.getD k 0) nbyte.toNat) hr h.table fun _ => hb
  rw [hall] at hkeep
  obtain ⟨-, -, rfl⟩ | ⟨-, -, rfl⟩ := hrest
  · exact hkeep
  · exact hkeep

/-- No fs_* call writes outside the data area. -/
theorem Shape.step_metadata {c : Call} {ret : Ret} (hc : c.IsFs) (h : Shape s) (hr : s.disk.Ready)
    (hs : s.step c = some (ret, s')) : KeepsMetadata s.disk s'.disk := by
  have keep : ∀ {t : FS}, t.disk = s.disk → KeepsMetadata s.disk t.disk := fun hd => by
    rw [hd]
    exact .refl s.disk
  obtain rfl | ⟨_, rfl, hx⟩ | ⟨_, rfl, hx⟩ | ⟨_, rfl, hx⟩ | ⟨_, rfl, hx⟩ | ⟨_, _, _, rfl, hx⟩ |
    ⟨_, _, _, rfl, hx⟩ | ⟨_, _, rfl, hx⟩ | ⟨_, _, rfl, hx⟩ := FS.step_cases hc hs
  · exact keep rfl
  · obtain ⟨-, rfl, -⟩ | ⟨_, _, -, -, -, -, -, -, rfl⟩ := fsCreate_cases hx <;> exact keep rfl
  · obtain ⟨-, rfl, -⟩ | ⟨_, _, -, -, -, -, -, -, -, rfl⟩ := fsOpen_cases hx <;> exact keep rfl
  · obtain ⟨-, rfl, -⟩ | ⟨_, -, -, -, -, -, rfl⟩ := fsClose_cases hx <;> exact keep rfl
  · obtain ⟨-, rfl, -⟩ | ⟨_, s₁, -, -, -, hf, -, rfl⟩ := fsDelete_cases hx
    · exact keep rfl
    · have hs₁ := (freeChain_shape _ _ _ _ h.table hf).2
      exact keep (by rw [hs₁])
  · obtain rfl | ⟨_, -, -, rfl⟩ := fsRead_cases hx <;> exact keep rfl
  · obtain ⟨-, rfl, -⟩ | ⟨index, ok, s₁, -, -, hi, hg, hrest⟩ := fsWrite_cases hx
    · exact keep rfl
    have hu := (dirIndex_eq_some hi).1
    obtain ⟨ht, hs₁⟩ := h.grown hu hg
    have hd : s₁.disk = s.disk := by rw [hs₁]
    have hdir : s₁.directory = s.directory := by rw [hs₁]
    obtain ⟨-, -, rfl⟩ | ⟨-, hw⟩ := hrest
    · exact keep hd
    · have hshape : Shape s₁ := ⟨by rw [hs₁]; exact h.super, ht, by rw [hdir]; exact h.dir⟩
      have hkeep := writeData_metadata hshape (by rw [hd]; exact hr) (by rw [hdir]; exact hu) hw
      rwa [hd] at hkeep
  · obtain ⟨-, rfl, -⟩ | ⟨_, -, -, -, -, -, -, rfl⟩ := fsLseek_cases hx <;> exact keep rfl
  · obtain ⟨-, rfl, -⟩ | ⟨_, _, _, -, -, -, -, -, -, -, -, rfl⟩ := fsTruncate_cases hx <;> exact keep rfl

/-! ## The disk under a mounted file system -/

theorem KeepsMetadata.holds {d d' : Disk} {dir : Int → DirectoryEntry} {table : Int → Inode}
    (h : KeepsMetadata d d') (hr : d'.Ready) (hd : Holds d dir table) : Holds d' dir table where
  ready := hr
  super := fun k hk => by
    rw [h 0 (by decide) (by decide) k (by unfold blockSize; omega)]
    exact hd.super k hk
  dir := fun k hk => by
    rw [h 1 (by decide) (by decide) k (by unfold blockSize; omega)]
    exact hd.dir k hk
  table := fun i hi k hk => by
    rw [h (4 + i) ⟨by omega, by unfold diskBlocks; omega⟩ (by rw [dataBlock_iff]; omega) k hk]
    exact hd.table i hi k hk

/-- Disks with the same metadata have the same directory and the same table. -/
structure SameMetadata (d d' : Disk) : Prop where
  dir : ∀ i, IsSlot i → storedDir d' i = storedDir d i
  table : ∀ b, InBlocks b → storedTable d' b = storedTable d b
  image : OnImage d'

theorem KeepsMetadata.same {d d' : Disk} (h : KeepsMetadata d d') (hr : d'.Ready) (hd : OnImage d) :
    SameMetadata d d' := by
  have hholds := h.holds hr hd.holds
  exact ⟨fun i hi => hholds.storedDir_eq hd.dir hi, fun b hb => hholds.storedTable_eq hd.table hb,
    hholds.onImage hd.dir hd.table⟩

theorem SameMetadata.used {d d' : Disk} (h : SameMetadata d d') :
    Used (storedDir d') i ↔ Used (storedDir d) i := by
  refine and_congr_right fun hi => ?_
  rw [h.dir i hi]

theorem SameMetadata.stored {d d' : Disk} (h : SameMetadata d d') (hs : Stored d ch) : Stored d' ch := by
  have hof : ∀ i, Used (storedDir d') i → Used (storedDir d) i ∧ storedDir d' i = storedDir d i :=
    fun i hi => ⟨h.used.mp hi, h.dir i hi.1⟩
  refine ⟨h.image, hs.chains.transfer hof h.table fun _ _ _ _ => trivial, fun i hi => ?_, fun i hi => ?_,
    fun i hi => ?_, fun i hi => hs.front i (hof i hi).1⟩
  · rw [(hof i hi).2]
    exact hs.sized i (hof i hi).1
  · rw [(hof i hi).2]
    exact hs.size i (hof i hi).1
  · rw [(hof i hi).2]
    exact hs.count i (hof i hi).1

/-- The length of a file of that name on the disk. -/
def storedLength (d : Disk) (name : List UInt8) : Option Nat := ((abs (loaded d)).files name).map List.length

theorem Stored.loaded_used {d : Disk} (h : Stored d ch) :
    Used (loaded d).directory i ↔ Used (storedDir d) i := by
  have hl := h.image.holds.loaded h.image.dir h.image.table
  exact ⟨fun hi => (hl.of_used hi).2.2, fun hi => (hl.used hi (h.front i hi)).1⟩

theorem Stored.loaded_dir {d : Disk} (h : Stored d ch) (hi : Used (storedDir d) i) :
    (loaded d).directory i = storedDir d i := if_pos (h.front i hi)

theorem Stored.file {d : Disk} (h : Stored d ch) (hi : Used (storedDir d) i) :
    (abs (loaded d)).files (cstr (storedDir d i).name) = some (content (loaded d) (storedDir d i)) := by
  have hl := h.image.holds.loaded h.image.dir h.image.table
  have hfile := (hl.shape h.image.dir h.image.table).abs_file (h.loaded_used.mpr hi)
  rwa [h.loaded_dir hi] at hfile

theorem Stored.length_iff {d : Disk} (h : Stored d ch) {n : List UInt8} {k : Nat} : storedLength d n = some k ↔
    ∃ i, Used (storedDir d) i ∧ cstr (storedDir d i).name = n ∧ (storedDir d i).size.toNat = k := by
  unfold storedLength
  constructor
  · intro hk
    obtain ⟨bytes, hbytes, hlen⟩ := Option.map_eq_some_iff.mp hk
    obtain ⟨i, hi, rfl⟩ := abs_file_used (by rw [hbytes]; simp : (abs (loaded d)).files n ≠ none)
    have hi' := h.loaded_used.mp hi
    rw [h.loaded_dir hi', h.file hi', Option.some.injEq] at hbytes
    rw [h.loaded_dir hi']
    exact ⟨i, hi', rfl, by rw [← hlen, ← hbytes, length_content]⟩
  · rintro ⟨i, hi, rfl, rfl⟩
    rw [h.file hi, Option.map_some, length_content]

theorem SameMetadata.length {d d' : Disk} (h : SameMetadata d d') (hs : Stored d ch) (n : List UInt8) :
    storedLength d' n = storedLength d n := by
  refine Option.ext fun k => ?_
  rw [hs.length_iff, (h.stored hs).length_iff]
  refine exists_congr fun i => ⟨fun hi => ?_, fun hi => ?_⟩
  · have he := h.dir i hi.1.1
    rw [← he]
    exact ⟨h.used.mp hi.1, hi.2⟩
  · have he := h.dir i hi.1.1
    rw [he]
    exact ⟨h.used.mpr hi.1, hi.2⟩

/-! ## The blocks of a file over a call -/

/-- The file of the entry `e` with the blocks `l` is still in slot `i`, and begins with these blocks. -/
structure Follows (e : DirectoryEntry) (l : List Int) (s : FS) (i : Int) : Prop where
  used : Used s.directory i
  same : SameFile e (s.directory i)
  blocks : l <+: fileBlocks s.table (s.directory i).inodeNumber

theorem Follows.trans {e : DirectoryEntry} {l : List Int} (h : Follows e l s i)
    (h' : Follows (s.directory i) (fileBlocks s.table (s.directory i).inodeNumber) s' i) : Follows e l s' i where
  used := h'.used
  same := ⟨h'.same.1.trans h.same.1, h'.same.2.1.trans h.same.2.1, h'.same.2.2.trans h.same.2.2⟩
  blocks := h.blocks.trans h'.blocks

/-- A call that leaves the table and the names of the files as they are. -/
theorem follows_of_sameFile (hi : Used s.directory i) (hd : ∀ j, SameFile (s.directory j) (s'.directory j))
    (ht : s'.table = s.table) :
    Follows (s.directory i) (fileBlocks s.table (s.directory i).inodeNumber) s' i where
  used := (used_congr hd).mpr hi
  same := hd i
  blocks := by rw [ht, (hd i).2.1]

/-- A call after which the file has a chain that begins with the old one. -/
theorem Files.follows {P Q : UInt8 → Prop} (h : Files P s ch) (h' : Files Q s' ch') (hi : Used s.directory i)
    (hd : SameFile (s.directory i) (s'.directory i)) (hch : ch i <+: ch' i) :
    Follows (s.directory i) (fileBlocks s.table (s.directory i).inodeNumber) s' i := by
  have hi' : Used s'.directory i := ⟨hi.1, by rw [hd.1]; exact hi.2⟩
  refine ⟨hi', hd, ?_⟩
  rw [h.chains.fileBlocks_eq hi, h'.chains.fileBlocks_eq hi']
  exact hch

/-- A call on another file. -/
theorem Files.follows_beside {P Q : UInt8 → Prop} {e : DirectoryEntry} {j : Int} {l : List Int} (h : Files P s ch)
    (h' : Files Q s' (Function.update ch j l)) (hi : Used s.directory i) (hij : i ≠ j)
    (hd : s'.directory = Function.update s.directory j e) :
    Follows (s.directory i) (fileBlocks s.table (s.directory i).inodeNumber) s' i := by
  refine h.follows h' hi ?_ (by rw [Function.update_of_ne hij])
  rw [hd, Function.update_of_ne hij]
  exact sameFile_refl _

/-- With the blocks of the files marked the files are in order over the bitmap as it is. -/
theorem Live.files_of_marked (h : Live (marked s) ch) (hm : BlocksMarked s) : Files (· ≠ 0) s ch where
  shape := ⟨h.files.shape.super, h.files.shape.table, h.files.shape.dir⟩
  chains := h.files.chains.transfer (fun _ hi => ⟨hi, rfl⟩) (fun _ _ => rfl) fun i hi b hb => by
    have he := h.files.chains.fileBlocks_eq hi
    exact hm i hi b ((congrArg (b ∈ ·) he).mpr hb)

theorem Live.files_any (h : Live (marked s) ch) : Files (fun _ => True) s ch where
  shape := ⟨h.files.shape.super, h.files.shape.table, h.files.shape.dir⟩
  chains := h.files.chains.transfer (fun _ hi => ⟨hi, rfl⟩) (fun _ _ => rfl) fun _ _ _ _ => trivial

theorem Live.follows_write {buf : List UInt8} {nbyte : Nat} (h : Live (marked s) ch) (hm : BlocksMarked s)
    (hi : Used s.directory i) (hx : fsWrite s fd buf nbyte = some (r, s')) :
    Follows (s.directory i) (fileBlocks s.table (s.directory i).inodeNumber) s' i := by
  have hf := h.files_of_marked hm
  obtain ⟨-, rfl, -⟩ | ⟨j, ok, s₁, -, -, hidx, hgrow, hrest⟩ := fsWrite_cases hx
  · exact follows_of_sameFile hi (fun _ => sameFile_refl _) rfl
  obtain ⟨new, hg, hf₁, -⟩ := hf.grown (by decide) (by decide) (dirIndex_eq_some hidx).1 hgrow
  have hdir : s₁.directory = s.directory := by rw [hg.same]
  have hfirst : Follows (s.directory i) (fileBlocks s.table (s.directory i).inodeNumber) s₁ i := by
    refine hf.follows hf₁ hi (by rw [hdir]; exact sameFile_refl _) ?_
    by_cases hij : i = j
    · rw [hij, Function.update_self]
      exact List.prefix_append _ _
    · rw [Function.update_of_ne hij]
  obtain ⟨-, -, rfl⟩ | ⟨-, hw⟩ := hrest
  · exact hfirst
  · obtain ⟨size, d, fds, rfl, -⟩ := writeData_cases hw
    exact hfirst.trans (follows_of_sameFile hfirst.used (sameFile_update ⟨rfl, rfl, rfl⟩) rfl)

/-- A call that does not delete or cut a file leaves it its blocks. -/
theorem VolumeCall.follows {c : Call} {ret : Ret} (h : Live (marked s) ch) (hc : VolumeCall d s c) (hfs : c.IsFs)
    (hs : s.step c = some (ret, s')) (hi : Used s.directory i)
    (hcut : cstr (s.directory i).name ∉ (Volume.mounted (abs (marked s))).cuts c ret) :
    Follows (s.directory i) (fileBlocks s.table (s.directory i).inodeNumber) s' i := by
  have same : Follows (s.directory i) (fileBlocks s.table (s.directory i).inodeNumber) s i :=
    follows_of_sameFile hi (fun _ => sameFile_refl _) rfl
  have hf := h.files_any
  obtain rfl | ⟨_, rfl, hx⟩ | ⟨_, rfl, hx⟩ | ⟨_, rfl, hx⟩ | ⟨_, rfl, hx⟩ | ⟨_, _, _, rfl, hx⟩ |
    ⟨x, buf, nbyte, rfl, hx⟩ | ⟨_, _, rfl, hx⟩ | ⟨_, _, rfl, hx⟩ := FS.step_cases hfs hs
  · exact same
  · have hm := h.files_of_marked hc.2.2
    obtain ⟨-, rfl, -⟩ | ⟨inode, j, -, -, hfree, hj, hun, -, rfl⟩ := fsCreate_cases hx
    · exact same
    have hij : i ≠ j := by
      rintro rfl
      exact absurd (hi.2.symm.trans hun) (by decide)
    obtain ⟨hb, hbit⟩ := freeBlock_eq_some hm.shape.super hfree
    exact hm.follows_beside ⟨hm.shape.create hx, hm.chains.create (by decide) (by decide) hb hbit rfl 1⟩ hi hij rfl
  · obtain ⟨-, rfl, -⟩ | ⟨_, _, -, -, -, -, -, -, -, rfl⟩ := fsOpen_cases hx
    · exact same
    · exact follows_of_sameFile hi (sameFile_update ⟨rfl, rfl, rfl⟩) rfl
  · obtain ⟨-, rfl, -⟩ | ⟨_, -, -, -, -, -, rfl⟩ := fsClose_cases hx
    · exact same
    · exact follows_of_sameFile hi (sameFile_update ⟨rfl, rfl, rfl⟩) rfl
  · have hdel := (hf.delete hx).1
    obtain ⟨-, rfl, -⟩ | ⟨j, s₁, hj, hname, -, hfree, hr, rfl⟩ := fsDelete_cases hx
    · exact same
    have hij : i ≠ j := by
      rintro rfl
      exact hcut ⟨hr, hname.symm⟩
    rw [← Function.update_eq_self j ch] at hdel
    have hdir : s₁.directory = s.directory := by rw [(freeChain_shape _ _ _ _ hf.shape.table hfree).2]
    exact hf.follows_beside hdel hi hij (by rw [hdir])
  · obtain rfl | ⟨_, -, -, rfl⟩ := fsRead_cases hx
    · exact same
    · exact follows_of_sameFile hi (fun _ => sameFile_refl _) rfl
  · obtain ⟨-, ha, hfit | hm⟩ := hc
    · have hk := h.keepsBitmap (c := .write x buf nbyte) hfit ha hs
      exact follows_of_sameFile hi hk.dir hk.table
    · exact h.follows_write hm hi hx
  · obtain ⟨-, rfl, -⟩ | ⟨_, -, -, -, -, -, -, rfl⟩ := fsLseek_cases hx
    · exact same
    · exact follows_of_sameFile hi (fun _ => sameFile_refl _) rfl
  · obtain ⟨-, rfl⟩ | ⟨j, pre, b, post, hfd, hu, hidx, -, -, -, hf', hr, rfl⟩ := hf.truncate_eq hx
    · exact same
    have hij : i ≠ j := by
      rintro rfl
      have hdesc := h.files.abs_desc hfd hu hi (dirIndex_eq_some hidx).2
      exact hcut ⟨hr, _, hdesc⟩
    exact hf.follows_beside hf' hi hij rfl

/-! ## The lengths of the files over a call -/

/-- Only fs_delete and fs_truncate make a file shorter. -/
theorem Volume.Step.files {st st' : Store} {c : Call} {ret : Ret}
    (h : Volume.Step (.mounted st) (c, ret) (.mounted st'))
    (hbuf : ∀ fd buf nbyte, c = .write fd buf nbyte → nbyte ≤ buf.length) {n : List UInt8}
    (hn : n ∉ (Volume.mounted st).cuts c ret) {bytes : List UInt8} (hb : st.files n = some bytes) :
    ∃ bytes', st'.files n = some bytes' ∧ bytes.length ≤ bytes'.length := by
  have same : st'.files n = st.files n → ∃ bytes', st'.files n = some bytes' ∧ bytes.length ≤ bytes'.length :=
    fun he => ⟨bytes, he.trans hb, Nat.le_refl _⟩
  cases h with
  | call h =>
      cases h with
      | create full hlen hnew _ _ =>
          refine same (Function.update_of_ne ?_ _ _)
          rintro rfl
          exact absurd (hnew.symm.trans hb) (by simp)
      | delete full hfile _ => exact same (Function.update_of_ne (fun he => hn ⟨rfl, he⟩) _ _)
      | @write fd buf old name nbyte off m full hdesc hfile hm =>
          by_cases he : n = name
          · subst he
            rw [hb, Option.some.injEq] at hfile
            subst hfile
            refine ⟨_, Function.update_self _ _ _, ?_⟩
            have hlen := hbuf fd buf nbyte rfl
            simp only [List.length_append, List.length_take, List.length_drop]
            omega
          · exact same (Function.update_of_ne he _ _)
      | _ => exact same rfl
  | truncate full hdesc _ _ _ =>
      refine same (Function.update_of_ne ?_ _ _)
      rintro rfl
      exact hn ⟨rfl, _, hdesc⟩
  | truncateFail _ => exact same rfl
  | umountFail _ => exact same rfl
  | mountFail _ => exact same rfl

/-- A file that is neither deleted nor cut is at least as long as at the last umount_fs. -/
def Durable.Grown (a : Durable) : Prop :=
  ∀ n ∈ a.intact, ∀ k, a.lengths n = some k → ∃ bytes, a.volume.files n = some bytes ∧ k ≤ bytes.length

/-- The disk of the process, open or not. -/
def diskOf (d : String) (s : FS) : Disk := ⟨s.disk.files, some d⟩

/-- `a` is what the state means: its volume, and what the disk keeps of it. -/
structure Saves (d : String) (s : FS) (a : Durable) : Prop where
  volume_eq : a.volume = volume d s
  usable : Usable d s
  stored : ∃ ch, Stored (diskOf d s) ch
  lengths : ∀ n, a.lengths n = storedLength (diskOf d s) n
  grown : a.Grown
  follows : s.mounted = true → ∀ i, Used (storedDir (diskOf d s)) i →
    cstr (storedDir (diskOf d s) i).name ∈ a.intact → Follows (storedDir (diskOf d s) i)
      (fileBlocks (storedTable (diskOf d s)) (storedDir (diskOf d s) i).inodeNumber) s i

theorem Usable.mounted (h : Usable d s) (hm : s.mounted = true) :
    ∃ ch, s.disk = diskOf d s ∧ Live (marked s) ch := by
  obtain ⟨ch, ⟨-, hh, hl⟩ | hp⟩ := h
  · exact ⟨ch, by unfold diskOf; rw [← hh], hl⟩
  · exact absurd (hp.mounted.symm.trans hm) (by decide)

theorem Usable.parked (h : Usable d s) (hm : s.mounted = false) : ∃ ch, Parked d s ch := by
  obtain ⟨ch, ⟨hm', -⟩ | hp⟩ := h
  · exact absurd (hm'.symm.trans hm) (by decide)
  · exact ⟨ch, hp⟩

/-- What the disk holds of a file that is neither deleted nor cut: its first bytes. -/
theorem Follows.content {D : Disk} (h : Stored D ch) (hd : s.disk = D) (hi : Used (storedDir D) i)
    (hf : Follows (storedDir D i) (fileBlocks (storedTable D) (storedDir D i).inodeNumber) s i)
    (hle : (storedDir D i).size.toNat ≤ (s.directory i).size.toNat) :
    content (loaded D) (storedDir D i) = (content s (s.directory i)).take (storedDir D i).size.toNat := by
  obtain ⟨rest, hrest⟩ := hf.blocks
  have hsized := h.sized i hi
  rw [← h.chains.fileBlocks_eq hi] at hsized
  unfold EC440.FileSystem.content
  rw [← List.map_take, List.take_range, Nat.min_eq_left hle]
  refine List.map_congr_left fun p hp => ?_
  have hp' := List.mem_range.mp hp
  rw [← hrest, blockBytes_append (by unfold blockSize at *; omega), hd]
  rfl

theorem Saves.crash {a : Durable} (h : Saves d s a) (ret : Ret) :
    ∃ a', Durable.Step a (.crash, ret) a' ∧ Saves d (boot s.disk.files) a' := by
  obtain ⟨v, lengths, intact⟩ := a
  obtain ⟨ch, hst⟩ := h.stored
  have hv : v = volume d s := h.volume_eq
  have hlen : ∀ n, lengths n = storedLength (diskOf d s) n := h.lengths
  refine ⟨⟨.unmounted (abs (loaded (diskOf d s))).files, lengths, Set.univ⟩,
    .crash (fun n => (hlen n).symm) fun n hn => ?_,
    ⟨(volume_unmounted (s := boot s.disk.files) rfl).symm, ⟨ch, .inr ⟨rfl, rfl, fun _ _ => (by decide : ¬ DataBlock 0), hst⟩⟩,
      ⟨ch, hst⟩, hlen, ?_, fun hm => by cases hm⟩⟩
  · rw [hlen n]
    cases hk : storedLength (diskOf d s) n with
    | none => exact Option.map_eq_none_iff.mp hk
    | some k =>
        rw [Option.bind_some]
        obtain ⟨i, hi, rfl, rfl⟩ := hst.length_iff.mp hk
        rw [hst.file hi]
        cases hm : s.mounted with
        | false =>
            rw [hv, volume_unmounted hm]
            dsimp only [Volume.files]
            have hfile := hst.file hi
            unfold diskOf at hfile ⊢
            rw [hfile, Option.map_some, List.take_of_length_le (by rw [length_content])]
        | true =>
            obtain ⟨ch', hd, hl⟩ := h.usable.mounted hm
            have hf := h.follows hm i hi hn
            obtain ⟨bytes, hbytes, hle⟩ := h.grown _ hn _ ((hlen _).trans hk)
            rw [hv, volume_mounted hm] at hbytes ⊢
            have hfile := hl.files.shape.abs_file hf.used
            rw [show (marked s).directory i = s.directory i from rfl, hf.same.2.2] at hfile
            have hsame : bytes = content s (s.directory i) := Option.some.inj (hbytes.symm.trans hfile)
            rw [hsame, length_content] at hle
            rw [hf.content hst hd hi hle]
            exact (congrArg (Option.map _) hfile).symm
  · intro n _ k hk
    obtain ⟨bytes, hbytes, hl⟩ := Option.map_eq_some_iff.mp ((hlen n).symm.trans hk)
    exact ⟨bytes, hbytes, Nat.le_of_eq hl.symm⟩

/-- What a call can do to the disk and the mount. -/
theorem Usable.step_cases {c : Call} {ret : Ret} (h : Usable d s) (hst : Stored (diskOf d s) ch)
    (hc : VolumeCall d s c) (hs : s.step c = some (ret, s')) :
    (s' = s ∧ ¬ c.IsFs) ∨ (c.IsFs ∧ s.mounted = true ∧ s'.mounted = true ∧ SameMetadata (diskOf d s) (diskOf d s')) ∨
    (s.mounted = true ∧ s'.mounted = false) ∨
    (s.mounted = false ∧ ∃ heap, Loaded s' (diskOf d s) (storedDir (diskOf d s)) (storedTable (diskOf d s)) heap) := by
  obtain hfs | ⟨name, rfl⟩ | ⟨name, heap, rfl⟩ := c.isFs_or
  · have hm := hc.mounted hfs
    obtain ⟨ch', hd, hl⟩ := h.mounted hm
    have hshape : Shape s := ⟨hl.files.shape.super, hl.files.shape.table, hl.files.shape.dir⟩
    obtain ⟨hm', hk⟩ := hshape.step_disk hfs hs
    have hd' : s'.disk = diskOf d s' := by
      have hh := hk.handle
      rw [hd] at hh
      unfold diskOf
      rw [← show s'.disk.handle = some d from hh]
    have hready : s.disk.Ready := hl.ready
    have hkeep := hshape.step_metadata hfs hready hs
    have hready' := hk.ready hready
    rw [hd, hd'] at hkeep
    rw [hd'] at hready'
    exact .inr (.inl ⟨hfs, hm, hm'.trans hm, hkeep.same hready' hst.image⟩)
  · obtain ⟨hx, -⟩ := codeOnly_eq_some hs
    cases name with
    | none =>
        exact .inl ⟨(Prod.mk.inj (Option.some.inj hx)).2.symm, id⟩
    | some name =>
        cases hm : s.mounted with
        | true =>
            obtain ⟨ch', ⟨-, hh, hl⟩ | hp⟩ := h
            · obtain ⟨hclosed, hfront⟩ := hc rfl hm
              obtain ⟨t, hu, hp, -⟩ := hl.umount hm hh name hclosed hfront
              rw [hu, Option.some.injEq, Prod.mk.injEq] at hx
              rw [← hx.2]
              exact .inr (.inr (.inl ⟨rfl, hp.mounted⟩))
            · exact absurd (hp.mounted.symm.trans hm) (by decide)
        | false =>
            unfold umountFs at hx
            rw [hm, Bool.not_false, if_pos rfl, ite_self] at hx
            exact .inl ⟨(Prod.mk.inj (Option.some.inj hx)).2.symm, id⟩
  · obtain ⟨hx, -⟩ := codeOnly_eq_some hs
    obtain rfl | rfl := hc
    · exact .inl ⟨(Prod.mk.inj (Option.some.inj hx)).2.symm, id⟩
    · cases hm : s.mounted with
      | true =>
          unfold mountFs at hx
          rw [hm, if_pos rfl, ite_self] at hx
          exact .inl ⟨(Prod.mk.inj (Option.some.inj hx)).2.symm, id⟩
      | false =>
          obtain ⟨ch', hp⟩ := h.parked hm
          obtain ⟨t, hmount, -, -, hload⟩ := hp.mount heap
          rw [hmount, Option.some.injEq, Prod.mk.injEq] at hx
          rw [← hx.2]
          exact .inr (.inr (.inr ⟨rfl, heap, hload⟩))

theorem Saves.step {a : Durable} {c : Call} {ret : Ret} (h : Saves d s a) (hc : VolumeCall d s c)
    (hs : s.step c = some (ret, s')) : ∃ a', Durable.Step a (.call c, ret) a' ∧ Saves d s' a' := by
  obtain ⟨v, lengths, intact⟩ := a
  obtain ⟨ch, hst⟩ := h.stored
  have hv : v = volume d s := h.volume_eq
  subst hv
  have hlen : ∀ n, lengths n = storedLength (diskOf d s) n := h.lengths
  obtain ⟨ret', t, hrun, hu, hstep⟩ := h.usable.step hc
  rw [hs, Option.some.injEq, Prod.mk.injEq] at hrun
  obtain ⟨rfl, rfl⟩ := hrun
  cases hm' : s'.mounted with
  | false =>
      obtain ⟨ch', hp⟩ := hu.parked hm'
      rw [volume_unmounted hm'] at hstep
      refine ⟨_, .unmounted hstep, ⟨(volume_unmounted hm').symm, hu, ⟨ch', hp.stored⟩, fun _ => rfl, ?_,
        fun hm => absurd (hm'.symm.trans hm) (by decide)⟩⟩
      intro n _ k hk
      obtain ⟨bytes, hbytes, hl⟩ := Option.map_eq_some_iff.mp hk
      exact ⟨bytes, hbytes, Nat.le_of_eq hl.symm⟩
  | true =>
      rw [volume_mounted hm'] at hstep
      refine ⟨_, .call hstep, ?_⟩
      obtain ⟨rfl, -⟩ | ⟨hfs, hm, -, hmeta⟩ | ⟨-, hm⟩ | ⟨hm, heap, hload⟩ := h.usable.step_cases hst hc hs
      · refine ⟨(volume_mounted hm').symm, hu, ⟨ch, hst⟩, hlen, fun n hn k hk => ?_, fun _ i hi hn =>
          h.follows hm' i hi hn.1⟩
        obtain ⟨bytes, hbytes, hle⟩ := h.grown n hn.1 k hk
        rw [volume_mounted hm'] at hbytes
        exact ⟨bytes, hbytes, hle⟩
      · obtain ⟨ch', hd, hl⟩ := h.usable.mounted hm
        rw [volume_mounted hm] at hstep
        have hgrown := h.grown
        unfold Durable.Grown at hgrown
        dsimp only at hgrown
        rw [volume_mounted hm] at hgrown
        refine ⟨(volume_mounted hm').symm, hu, ⟨ch, hmeta.stored hst⟩,
          fun n => (hlen n).trans (hmeta.length hst n).symm, fun n hn k hk => ?_, fun _ i hi hn => ?_⟩
        · rw [volume_mounted hm] at hn
          obtain ⟨bytes, hbytes, hle⟩ := hgrown n hn.1 k hk
          obtain ⟨bytes', hbytes', hle'⟩ := hstep.files (fun fd buf nbyte he => by subst he; exact hc.2.1.2.2.1)
            hn.2 hbytes
          exact ⟨bytes', hbytes', hle.trans hle'⟩
        · rw [volume_mounted hm] at hn
          have hi' := hmeta.used.mp hi
          have he := hmeta.dir i hi.1
          rw [he] at hn ⊢
          have hf := h.follows hm i hi' hn.1
          rw [← hf.same.2.2] at hn
          have hblocks : fileBlocks (storedTable (diskOf d s')) (storedDir (diskOf d s) i).inodeNumber =
              fileBlocks (storedTable (diskOf d s)) (storedDir (diskOf d s) i).inodeNumber := by
            have hst' := (hmeta.stored hst).chains.fileBlocks_eq hi
            rw [he] at hst'
            rw [hst', hst.chains.fileBlocks_eq hi']
          rw [hblocks]
          exact hf.trans (hc.follows hl hfs hs hf.used hn.2)
      · exact absurd (hm.symm.trans hm') (by decide)
      · have hd' : diskOf d s' = diskOf d s := by
          unfold diskOf
          rw [hload.disk]
          rfl
        refine ⟨(volume_mounted hm').symm, hu, ?_, ?_, fun n _ k hk => ?_, ?_⟩
        · rw [hd']
          exact ⟨ch, hst⟩
        · rw [hd']
          exact hlen
        · obtain ⟨bytes, hbytes, hl⟩ := Option.map_eq_some_iff.mp ((hlen n).symm.trans hk)
          exact ⟨bytes, (congrFun (hst.mounted hload).1 n).trans hbytes, Nat.le_of_eq hl.symm⟩
        · rw [hd']
          intro _ i hi _
          obtain ⟨hi', he⟩ := hload.used hi (hst.front i hi)
          have hb := ((hst.image.dir.inode i hi.1).mp hi.2).inBlocks
          exact ⟨hi', by rw [he]; exact sameFile_refl _, by rw [he, hload.fileBlocks_eq hb]⟩

/-- One call, or the end of the process. -/
theorem Saves.event {a : Durable} {e : Event × Ret} (h : Saves d s a) (hs : Guarded FS.event (EventCall d) s e s') :
    ∃ a', Durable.Step a e a' ∧ Saves d s' a' := by
  obtain ⟨e, ret⟩ := e
  obtain ⟨hc, hs⟩ := hs
  cases e with
  | call c => exact h.step hc hs
  | crash =>
      cases hs
      exact h.crash _

/-- A new session's disk holds the empty directory of make_fs. -/
theorem session_holds {files : String → Option Image} {junk : Junk} {heap : Buf} {s₀ : FS}
    (h : session files d junk heap = some (r, s₀)) :
    Holds (diskOf d s₀) (fun _ => emptyDir junk) (fun _ => emptyInode junk) := by
  obtain ⟨files', hmake, hholds⟩ := makeFs_ready files d junk
  obtain ⟨t, ht, hl, -⟩ := mountFs_ready (s := { boot files with disk := ⟨files', none⟩ }) rfl rfl hholds
    (emptyDir_shape junk) (emptyInode_shape junk) heap
  unfold session at h
  rw [hmake, ht, Option.some.injEq, Prod.mk.injEq] at h
  obtain ⟨-, rfl⟩ := h
  unfold diskOf
  rw [hl.disk]
  exact hholds

theorem Holds.noFile {D : Disk} {junk : Junk} (h : Holds D (fun _ => emptyDir junk) (fun _ => emptyInode junk)) (i : Int) :
    ¬ Used (storedDir D) i := by
  intro hi
  have he := h.storedDir_eq (emptyDir_shape junk) hi.1
  have hu := hi.2
  rw [he] at hu
  simp [emptyDir] at hu

theorem Holds.stored_empty {D : Disk} {junk : Junk} (h : Holds D (fun _ => emptyDir junk) (fun _ => emptyInode junk)) :
    Stored D (fun _ => []) where
  image := h.onImage (emptyDir_shape junk) (emptyInode_shape junk)
  chains := ⟨fun i hi => absurd hi (h.noFile i), fun i hi => absurd hi (h.noFile i),
    fun i hi => absurd hi (h.noFile i), fun i _ hi => absurd hi (h.noFile i)⟩
  sized := fun i hi => absurd hi (h.noFile i)
  size := fun i hi => absurd hi (h.noFile i)
  count := fun i hi => absurd hi (h.noFile i)
  front := fun i hi => absurd hi (h.noFile i)

theorem session_saves {files : String → Option Image} {junk : Junk} {heap : Buf} {s₀ : FS}
    (h : session files d junk heap = some (r, s₀)) :
    Saves d s₀ ⟨volume d s₀, fun _ => none, Set.univ⟩ := by
  have hfresh := session_fresh h
  have hlive : Live (withBitmap s₀ s₀.usedBlockBitmap) (fun _ => []) := session_live h
  have hholds := session_holds h
  have hst := hholds.stored_empty
  refine ⟨rfl, ⟨_, .inl ⟨hfresh.mounted, hfresh.handle, hlive.mark⟩⟩, ⟨_, hst⟩, fun n => ?_,
    fun _ _ _ hk => (Option.some_ne_none _ hk.symm).elim, fun _ i hi => absurd hi (hholds.noFile i)⟩
  refine (Option.eq_none_iff_forall_ne_some.mpr fun k hk => ?_).symm
  obtain ⟨i, hi, -⟩ := hst.length_iff.mp hk
  exact hholds.noFile i hi

/-- However often the process ends without umount_fs, fs.c keeps what the volume's rule promises: the
    files of the last umount_fs are there with their lengths, and a file that was neither deleted nor
    cut since begins with the bytes that it had when the process ended; and every allowed call still
    returns. -/
theorem crashes_refine_durable {files : String → Option Image} {junk : Junk} {heap : Buf} {s₀ : FS}
    (h : session files d junk heap = some (r, s₀)) {es : List (Event × Ret)} {s : FS}
    (hrun : Run (Guarded FS.event (EventCall d)) s₀ es s) :
    (∃ a, Run Durable.Step ⟨volume d s₀, fun _ => none, Set.univ⟩ es a ∧ a.volume = volume d s) ∧
    ∀ c, VolumeCall d s c → ∃ ret s', s.step c = some (ret, s') := by
  have hsim : ∀ s e s' a, Saves d s a → Guarded FS.event (EventCall d) s e s' →
      ∃ a', Durable.Step a e a' ∧ Saves d s' a' := fun _ _ _ _ h hs => h.event hs
  obtain ⟨a, ha, hs⟩ := hrun.simulates (session_saves h) hsim
  refine ⟨⟨a, ha, hs.volume_eq⟩, fun c hc => ?_⟩
  obtain ⟨ret, s', hstep, -⟩ := hs.usable.step hc
  exact ⟨ret, s', hstep⟩

/-- The test on the calls for runs on given events. -/
def eventTest (s : FS) : Event → Bool
  | .call c => volumeTest s c
  | .crash => true

/-- Four bytes are written over three after the last umount_fs: a new process finds three of them. -/
theorem crashes_refine_durable_append : ∃ r s₀ es s,
    session (fun _ => none) "disk" zeroJunk (fun _ => 0) = some (r, s₀) ∧
      Run (Guarded FS.event (EventCall "disk")) s₀ es s ∧ content s (s.directory 0) = [7, 8, 9] ∧
      ∃ a, Run Durable.Step ⟨volume "disk" s₀, fun _ => none, Set.univ⟩ es a ∧ a.volume = volume "disk" s := by
  have hex : (session (fun _ => none) "disk" zeroJunk (fun _ => 0)).bind (fun q =>
      (exec FS.event eventTest q.2 (.crash :: ([.mount (some "disk") (fun _ => 0), .create nameA, .open nameA,
        .write 0 [1, 2, 3] 3, .close 0, .umount (some "disk"), .mount (some "disk") (fun _ => 0), .open nameA,
        .write 0 [7, 8, 9, 10] 4].map Event.call ++ [.crash, .call (.mount (some "disk") (fun _ => 0))]))).map
        fun q' => content q'.2 (q'.2.directory 0) == [7, 8, 9]) = some true := by
    decide +kernel
  obtain ⟨⟨r, s₀⟩, hs, hex⟩ := Option.bind_eq_some_iff.mp hex
  obtain ⟨⟨es, s⟩, he, hp⟩ := Option.map_eq_some_iff.mp hex
  have hrun : Run (Guarded FS.event (EventCall "disk")) s₀ ([] ++ es) s := by
    refine exec_run (fun s e hmem hok => ?_) .start he
    simp only [List.map_cons, List.map_nil, List.cons_append, List.nil_append, List.mem_cons, List.not_mem_nil,
      or_false] at hmem
    rcases hmem with rfl | rfl | rfl | rfl | rfl | rfl | rfl | rfl | rfl | rfl | rfl | rfl
    · trivial
    · exact .inr rfl
    · exact volumeTest_create (List.cons_ne_nil _ _) hok
    · exact ⟨hok, List.cons_ne_nil _ _⟩
    · exact volumeTest_write (by decide) (by decide) (by decide) (by decide) hok
    · exact ⟨hok, (by decide : IsFd 0)⟩
    · exact volumeTest_umount hok
    · exact .inr rfl
    · exact ⟨hok, List.cons_ne_nil _ _⟩
    · exact volumeTest_write (by decide) (by decide) (by decide) (by decide) hok
    · trivial
    · exact .inr rfl
  exact ⟨r, s₀, _, s, hs, hrun, by simpa using hp, (crashes_refine_durable hs hrun).1⟩

end EC440.FileSystem
