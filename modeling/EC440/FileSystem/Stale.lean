/-
  No stale data: what fs_read returns from a file does not depend on the bytes written to
  another one, though freed blocks are handed out again without being cleared.

  Two runs of a session make the same calls, except that the bytes given to fs_write may differ
  when the descriptor is open on the file `g`. Their states then differ in the disk alone, and
  the files other than `g` hold the same bytes (`Agree`). The argument is that every byte below
  the size of a file was written through that file, which needs offsets that are not behind the
  end: an fs_write there leaves a gap with the bytes that the new block had before.
-/
import EC440.FileSystem.Offsets

namespace EC440.FileSystem

open EC440.Lib

variable {s s' t t' : FS} {ch ch' : Int → List Int} {fd i r : Int} {g : List UInt8}

/-! ## Calls that use neither the bitmap nor the disk -/

/-- Other bytes in the bitmap, and another disk. fs_open, fs_close, fs_get_filesize, fs_lseek and fs_truncate
    use neither. -/
abbrev retouch (b : (Int → UInt8) → Int → UInt8) (g : Disk → Disk) (s : FS) : FS :=
  { s with usedBlockBitmap := b s.usedBlockBitmap, disk := g s.disk }

theorem outsideFds_retouch (b : (Int → UInt8) → Int → UInt8) (g : Disk → Disk) (s : FS) :
    outsideFds (retouch b g s) = (outsideFds s).map fun p => (p.1, retouch b g p.2) := by
  unfold outsideFds
  dsimp only [retouch]
  split
  · rfl
  · rfl

theorem fsOpen_retouch (b : (Int → UInt8) → Int → UInt8) (g : Disk → Disk) (s : FS) (name : CString) :
    fsOpen (retouch b g s) name = (fsOpen s name).map fun p => (p.1, retouch b g p.2) := by
  unfold fsOpen
  dsimp only [retouch]
  split
  · rfl
  split
  · rfl
  split
  · rfl
  · rfl

theorem fsClose_retouch (b : (Int → UInt8) → Int → UInt8) (g : Disk → Disk) (s : FS) (fildes : Int) :
    fsClose (retouch b g s) fildes = (fsClose s fildes).map fun p => (p.1, retouch b g p.2) := by
  unfold fsClose
  dsimp only [retouch]
  split
  · exact outsideFds_retouch b g s
  split
  · rfl
  split
  · rfl
  split
  · rfl
  · rfl

theorem fsLseek_retouch (b : (Int → UInt8) → Int → UInt8) (g : Disk → Disk) (s : FS) (fildes offset : Int) :
    fsLseek (retouch b g s) fildes offset = (fsLseek s fildes offset).map fun p => (p.1, retouch b g p.2) := by
  unfold fsLseek
  dsimp only [retouch]
  split
  · rfl
  split
  · rfl
  split
  · rfl
  split
  · rfl
  split
  · rfl
  · rfl

theorem fsGetFilesize_retouch (b : (Int → UInt8) → Int → UInt8) (g : Disk → Disk) (s : FS) (fildes : Int) :
    fsGetFilesize (retouch b g s) fildes = (fsGetFilesize s fildes).map fun p => (p.1, retouch b g p.2) := by
  unfold fsGetFilesize
  dsimp only [retouch]
  split
  · exact outsideFds_retouch b g s
  split
  · rfl
  · rfl

theorem fsTruncate_retouch (b : (Int → UInt8) → Int → UInt8) (g : Disk → Disk) (s : FS) (fildes length : Int) :
    fsTruncate (retouch b g s) fildes length = (fsTruncate s fildes length).map fun p => (p.1, retouch b g p.2) := by
  unfold fsTruncate
  dsimp only [retouch]
  split
  · rfl
  split
  · rfl
  split
  · rfl
  split
  · rfl
  split
  · rfl
  split
  · rfl
  split
  · rfl
  split
  · rfl
  split
  · rfl
  · rfl

/-! ## The disk is read by fs_read and fs_write only -/

/-- The state with another disk. -/
abbrev withDisk (s : FS) (d : Disk) : FS := { s with disk := d }

/-- What a call returns, with another disk in the state. -/
def putDisk {α : Type} (x : Option (α × FS)) (d : Disk) : Option (α × FS) :=
  x.map fun p => (p.1, withDisk p.2 d)

theorem freeChain_withDisk (d : Disk) : ∀ (n : Nat) (s : FS) (inode : Int),
    freeChain n (withDisk s d) inode = (freeChain n s inode).map fun s' => withDisk s' d := by
  intro n
  induction n with
  | zero => intro s inode; rfl
  | succ n ih =>
      intro s inode
      unfold freeChain
      dsimp only [withDisk]
      split
      · rfl
      split
      · exact ih { s with
          usedBlockBitmap := Function.update s.usedBlockBitmap inode 0
          table := setNext s.table inode (-2) } _
      · rfl

theorem growChain_withDisk (d : Disk) : ∀ (n : Nat) (s : FS) (inode : Int),
    growChain n (withDisk s d) inode = putDisk (growChain n s inode) d := by
  intro n
  induction n with
  | zero => intro s inode; rfl
  | succ n ih =>
      intro s inode
      unfold growChain
      dsimp only [withDisk, putDisk, freeBlock]
      split
      · rfl
      split
      · split
        · rfl
        split
        · next j _ =>
            exact ih { s with
              usedBlockBitmap := Function.update s.usedBlockBitmap j 1
              table := setNext (setNext s.table inode j) j (-1) } _
        · split
          · rfl
          · exact ih s _
      · exact ih s _

theorem fsCreate_withDisk (s : FS) (d : Disk) (name : CString) :
    fsCreate (withDisk s d) name = putDisk (fsCreate s name) d := by
  unfold fsCreate
  dsimp only [withDisk, putDisk, freeBlock]
  split
  · rfl
  split
  · rfl
  split
  · rfl
  split
  · rfl
  split
  · rfl
  split
  · rfl
  · rfl

theorem fsDelete_withDisk (s : FS) (d : Disk) (name : CString) :
    fsDelete (withDisk s d) name = putDisk (fsDelete s name) d := by
  unfold fsDelete
  dsimp only [withDisk, putDisk, freeBlock]
  split
  · rfl
  next i _ =>
  split
  · rfl
  · rw [freeChain_withDisk d (diskBlocks.toNat + 1) s (s.directory i).inodeNumber]
    cases freeChain (diskBlocks.toNat + 1) s (s.directory i).inodeNumber with
    | none => rfl
    | some s₁ => rfl

/-! ## The bytes of the files -/

/-- fs_truncate keeps the first bytes of the file. -/
theorem Cut.files {length : Int} (h : Live s ch) (hc : Cut s ch i length s' ch') :
    (abs s').files = Function.update (abs s).files (cstr (s.directory i).name)
      (some ((content s (s.directory i)).take length.toNat)) := by
  obtain ⟨pre, c, post, hch, hch', hroom⟩ := hc.chain
  have hdir : s'.directory = Function.update s.directory i { s.directory i with size := length } := by
    rw [hc.same]; rfl
  have hdisk : s'.disk = s.disk := by rw [hc.same]; rfl
  have hsame : ∀ j, SameFile (s.directory j) (s'.directory j) := by
    rw [hdir]; exact sameFile_update ⟨rfl, rfl, rfl⟩
  have hi' : Used s'.directory i := (used_congr hsame).mpr hc.used
  have hsize : (s'.directory i).size = length := by rw [hdir, Function.update_self]
  funext n
  by_cases hn : n = cstr (s.directory i).name
  · have hfile := hc.live.files.shape.abs_file hi'
    rw [(hsame i).2.2] at hfile
    have hself : ch' i = pre ++ [c] := by rw [hch', Function.update_self]
    have htake := h.files.content_take hc.live.files hc.used hi' hdisk (l := post) (by rw [hch, hself]; simp)
      (by rw [hsize]; exact hc.le) (by rw [hsize, hself, List.length_append, List.length_singleton]; exact hroom)
    rw [hn, Function.update_self, hfile, htake, hsize]
  · rw [Function.update_of_ne hn]
    refine abs_files_congr h.files.shape hc.live.files.shape (fun j => ?_) fun j hj hjn => ?_
    · rw [used_congr hsame, (hsame j).2.2]
    · have hji : j ≠ i := by rintro rfl; exact hn hjn.symm
      refine h.files.content_frame hc.live.files hj ((used_congr hsame).mpr hj) ?_ ?_ fun b _ k _ => by rw [hdisk]
      · rw [hdir, Function.update_of_ne hji]
      · rw [hch', Function.update_of_ne hji]

/-- What a call other than fs_write and fs_truncate does to the files. -/
def Call.onFiles (c : Call) (code : Int) (files : List UInt8 → Option (List UInt8)) :
    List UInt8 → Option (List UInt8) :=
  match c with
  | .create name => if code = 0 then Function.update files name.chars (some []) else files
  | .delete name => if code = 0 then Function.update files name.chars none else files
  | _ => files

theorem Store.Step.files_eq {a a' : Store} {c : Call} {ret : Ret} (h : Store.Step a (c, ret) a')
    (hc : ∀ fd buf nbyte, c ≠ .write fd buf nbyte) : a'.files = c.onFiles ret.code a.files := by
  cases h with
  | create => rfl
  | createFail => rfl
  | delete => rfl
  | deleteFail => rfl
  | write => exact absurd rfl (hc _ _ _)
  | writeFull => exact absurd rfl (hc _ _ _)
  | writeFail => exact absurd rfl (hc _ _ _)
  | _ => rfl

/-- Files that agree but for `g` still do when a file gets the same bytes in both, or is `g`. -/
theorem update_agree {a b : List UInt8 → Option (List UInt8)} {name : List UInt8} {v w : Option (List UInt8)}
    (hab : ∀ n, n ≠ g → a n = b n) (hvw : name ≠ g → v = w) {n : List UInt8} (hn : n ≠ g) :
    Function.update a name v n = Function.update b name w n := by
  by_cases hx : n = name
  · rw [hx, Function.update_self, Function.update_self, hvw (hx ▸ hn)]
  · rw [Function.update_of_ne hx, Function.update_of_ne hx, hab n hn]

theorem Call.onFiles_agree {a b : List UInt8 → Option (List UInt8)} (c : Call) (code : Int)
    (hab : ∀ n, n ≠ g → a n = b n) {n : List UInt8} (hn : n ≠ g) : c.onFiles code a n = c.onFiles code b n := by
  unfold Call.onFiles
  cases c with
  | create name =>
      dsimp only
      split
      · exact update_agree hab (fun _ => rfl) hn
      · exact hab n hn
  | delete name =>
      dsimp only
      split
      · exact update_agree hab (fun _ => rfl) hn
      · exact hab n hn
  | _ => exact hab n hn

/-! ## Two runs -/

/-- The states differ in the disk, and the files other than `g` hold the same bytes. -/
structure Agree (g : List UInt8) (s t : FS) : Prop where
  left : ∃ ch, Live s ch
  right : ∃ ch, Live t ch
  same : t = withDisk s t.disk
  files : ∀ n, n ≠ g → (abs s).files n = (abs t).files n

/-- The descriptor is open on the file `g`. -/
def OpenOn (g : List UInt8) (s : FS) (fd : Int) : Prop :=
  ∃ i, dirIndex s.directory (s.fdArray fd).inodeNumber = some i ∧ cstr (s.directory i).name = g

/-- The two calls are the same, or are fs_write calls on `g` that differ in the bytes. -/
def SameBut (g : List UInt8) (s : FS) (c c' : Call) : Prop :=
  c = c' ∨ ∃ fd buf buf' nbyte, c = .write fd buf nbyte ∧ c' = .write fd buf' nbyte ∧
    buf.length = buf'.length ∧ OpenOn g s fd

/-- A call that neither reads nor writes does not look at the disk. -/
theorem FS.step_withDisk {c : Call} {ret : Ret} {d : Disk} (hc : c.InSession)
    (hr : ∀ fd buf nbyte, c ≠ .read fd buf nbyte) (hw : ∀ fd buf nbyte, c ≠ .write fd buf nbyte)
    (h : s.step c = some (ret, s')) : (withDisk s d).step c = some (ret, withDisk s' d) := by
  have code : ∀ {x y : Option (Int × FS)}, x = putDisk y d → codeOnly y = some (ret, s') →
      codeOnly x = some (ret, withDisk s' d) := by
    intro x y hx hy
    obtain ⟨⟨k, s₁⟩, hy, he⟩ := Option.map_eq_some_iff.mp hy
    rw [Prod.mk.injEq] at he
    rw [hx, hy, ← he.1, ← he.2]
    rfl
  cases c with
  | create name => exact code (fsCreate_withDisk s d name) h
  | «open» name => exact code (fsOpen_retouch id (fun _ => d) s name) h
  | close fildes => exact code (fsClose_retouch id (fun _ => d) s fildes) h
  | delete name => exact code (fsDelete_withDisk s d name) h
  | read fildes buf nbyte => exact absurd rfl (hr _ _ _)
  | write fildes buf nbyte => exact absurd rfl (hw _ _ _)
  | getFilesize fildes => exact code (fsGetFilesize_retouch id (fun _ => d) s fildes) h
  | listfiles =>
      simp only [FS.step, Option.some.injEq, Prod.mk.injEq] at h ⊢
      exact ⟨h.1, by rw [h.2]⟩
  | lseek fildes offset => exact code (fsLseek_retouch id (fun _ => d) s fildes offset) h
  | truncate fildes length => exact code (fsTruncate_retouch id (fun _ => d) s fildes length) h
  | mount _ _ => exact hc.elim
  | umount _ => exact hc.elim

/-- Calls that the store knows, fs_write apart. -/
theorem Agree.plain {c : Call} {ret ret' : Ret} (h : Agree g s t) (hc : c.InSession)
    (ha : (abs s).Allows c) (hb : (abs t).Allows c)
    (hr : ∀ fd buf nbyte, c ≠ .read fd buf nbyte) (hw : ∀ fd buf nbyte, c ≠ .write fd buf nbyte)
    (hs : s.step c = some (ret, s')) (ht : t.step c = some (ret', t')) : Agree g s' t' := by
  obtain ⟨ch, hl⟩ := h.left
  obtain ⟨ch', hl'⟩ := h.right
  have hsame := FS.step_withDisk (d := t.disk) hc hr hw hs
  rw [← h.same, ht, Option.some.injEq, Prod.mk.injEq] at hsame
  obtain ⟨hret, ht'⟩ := hsame
  obtain ⟨r₁, s₁, ch₁, hrun, hl₁, hst⟩ := hl.step ha
  rw [hs, Option.some.injEq, Prod.mk.injEq] at hrun
  obtain ⟨rfl, rfl⟩ := hrun
  obtain ⟨r₂, s₂, ch₂, hrun, hl₂, hst'⟩ := hl'.step hb
  rw [ht, Option.some.injEq, Prod.mk.injEq] at hrun
  obtain ⟨rfl, rfl⟩ := hrun
  refine ⟨⟨_, hl₁⟩, ⟨_, hl₂⟩, ?_, fun n hn => ?_⟩
  · rw [ht']
  · rw [hst.files_eq hw, hst'.files_eq hw, hret]
    exact Call.onFiles_agree c _ h.files hn

section Agree

variable {buf buf' : List UInt8} {nbyte : Nat} {r' : Int}

theorem Agree.directory (h : Agree g s t) : t.directory = s.directory := by rw [h.same]

theorem Agree.fdArray (h : Agree g s t) : t.fdArray = s.fdArray := by rw [h.same]

/-- A file other than `g` has the same bytes in both states. -/
theorem Agree.content (h : Agree g s t) (hi : Used s.directory i) (hg : cstr (s.directory i).name ≠ g) :
    content s (s.directory i) = content t (s.directory i) := by
  obtain ⟨ch, hl⟩ := h.left
  obtain ⟨ch', hl'⟩ := h.right
  have hs := hl.files.shape.abs_file hi
  have ht := hl'.files.shape.abs_file (i := i) (by rw [h.directory]; exact hi)
  rw [h.directory] at ht
  rw [h.files _ hg, ht, Option.some.injEq] at hs
  exact hs.symm

theorem Agree.truncate {length : Int} (h : Agree g s t) (hc : OffsetCall s (.truncate fd length))
    (hs : fsTruncate s fd length = some (r, s')) (ht : fsTruncate t fd length = some (r', t')) :
    Agree g s' t' := by
  obtain ⟨ch, hl⟩ := h.left
  obtain ⟨ch', hl'⟩ := h.right
  have hsame : fsTruncate (withDisk s t.disk) fd length = putDisk (fsTruncate s fd length) t.disk :=
    fsTruncate_retouch id (fun _ => t.disk) s fd length
  rw [← h.same, ht, hs, putDisk, Option.map_some, Option.some.injEq, Prod.mk.injEq] at hsame
  obtain ⟨hret, ht'⟩ := hsame
  have hk : KeepsOffsets t fd length := by
    have := hc.2
    unfold Call.KeepsOffsets KeepsOffsets at this
    unfold KeepsOffsets
    rw [h.directory, h.fdArray]
    exact this
  obtain ⟨hr, hs₁⟩ | ⟨i, ch₁, he, hr, hcut⟩ := hl.truncate hs hc.2
  · obtain ⟨hr', ht₁⟩ | ⟨j, ch₂, he', hr', hcut'⟩ := hl'.truncate ht hk
    · rw [hs₁, ht₁]
      exact h
    · dsimp only at hret
      omega
  · obtain ⟨hr', ht₁⟩ | ⟨j, ch₂, he', hr', hcut'⟩ := hl'.truncate ht hk
    · dsimp only at hret
      omega
    · have huse := hcut'.used
      rw [h.directory] at huse
      rw [h.directory, h.fdArray] at he'
      have hij : j = i := hl.files.inj hcut.used j huse (he'.trans he.symm)
      subst hij
      refine ⟨⟨_, hcut.live⟩, ⟨_, hcut'.live⟩, by rw [ht'], fun n hn => ?_⟩
      rw [hcut.files hl, hcut'.files hl', h.directory]
      exact update_agree h.files (fun hg => by rw [h.content huse hg]) hn

/-- fs_read returns the same from files other than `g`, and as much from `g`. -/
theorem Agree.read {b b' : List UInt8} (h : Agree g s t) (hs : fsRead s fd buf nbyte = some (r, b, s'))
    (ht : fsRead t fd buf nbyte = some (r', b', t')) :
    Agree g s' t' ∧ r = r' ∧ (¬ OpenOn g s fd → b.take r.toNat = b'.take r.toNat) := by
  obtain ⟨ch, hl⟩ := h.left
  obtain ⟨ch', hl'⟩ := h.right
  obtain ⟨hr, hs₁, hwhy⟩ | ⟨i, off, m, hfd, hu, hpos, hi, he, hoff, hm, hr, hs₁, hle, htake⟩ := hl.read_cases hs
  · obtain ⟨hr', ht₁, -⟩ | ⟨j, off', m', hfd', hu', hpos', -⟩ := hl'.read_cases ht
    · rw [hs₁, ht₁, hr, hr']
      exact ⟨h, rfl, fun _ => rfl⟩
    · rw [h.fdArray] at hu'
      obtain hun | h0 := hwhy
      · exact absurd (hun hfd') (by rw [hu']; decide)
      · omega
  · obtain ⟨hr', ht₁, hwhy⟩ | ⟨j, off', m', -, -, -, hj, he', hoff', hm', hr', ht₁, -, htake'⟩ := hl'.read_cases ht
    · rw [h.fdArray] at hwhy
      obtain hun | h0 := hwhy
      · exact absurd (hun hfd) (by rw [hu]; decide)
      · omega
    rw [h.directory] at hj he' hm' htake'
    rw [h.fdArray] at he' hoff'
    have hij : j = i := hl.files.inj hi j hj (he'.trans he.symm)
    subst hij
    obtain rfl : off' = off := by omega
    rw [hm] at hm'
    subst hm'
    refine ⟨⟨?_, ?_, ?_, ?_⟩, by rw [hr, hr'], fun hno => ?_⟩
    · rw [hs₁]
      exact ⟨_, (hl.setOffset _ hfd hu hi he (by omega) hle).1⟩
    · rw [ht₁]
      exact ⟨_, (hl'.setOffset _ hfd (by rw [h.fdArray]; exact hu) (by rw [h.directory]; exact hi)
        (by rw [h.directory, h.fdArray]; exact he) (by omega) (by rw [h.directory]; exact hle)).1⟩
    · rw [ht₁, hs₁, h.same]
      rfl
    · rw [hs₁, ht₁]
      exact h.files
    · have hg : cstr (s.directory j).name ≠ g := fun hg =>
        hno ⟨j, by rw [← he]; exact hl.files.chains.dirIndex_eq hi, hg⟩
      rw [hr, Int.toNat_natCast, htake, htake', h.content hi hg]

theorem Agree.write (h : Agree g s t) (hb : buf = buf' ∨ OpenOn g s fd)
    (hs : fsWrite s fd buf nbyte = some (r, s')) (ht : fsWrite t fd buf' nbyte = some (r', t')) :
    Agree g s' t' := by
  obtain ⟨ch, hl⟩ := h.left
  obtain ⟨ch', hl'⟩ := h.right
  obtain ⟨-, hs₁, hun⟩ | ⟨i, new, s₁, ok, hfd, hu, hi, he, hgrow, hg, hl₁, hrest⟩ := hl.write_cases hs
  · obtain ⟨-, ht₁, -⟩ | ⟨j, new', t₁, ok', hfd', hu', -⟩ := hl'.write_cases ht
    · rw [hs₁, ht₁]
      exact h
    · rw [h.fdArray] at hu'
      exact absurd (hun hfd') (by rw [hu']; decide)
  obtain ⟨-, -, hun⟩ | ⟨j, new', t₁, ok', -, -, hj, he', hgrow', hg', hl₁', hrest'⟩ := hl'.write_cases ht
  · rw [h.fdArray] at hun
    exact absurd (hun hfd) (by rw [hu]; decide)
  rw [h.directory] at hj he' hgrow'
  rw [h.fdArray] at he' hgrow'
  have hij : j = i := hl.files.inj hi j hj (he'.trans he.symm)
  subst hij
  -- both allocation loops do the same
  rw [h.same, growChain_withDisk, hgrow, putDisk, Option.map_some, Option.some.injEq, Prod.mk.injEq] at hgrow'
  obtain ⟨rfl, rfl⟩ := hgrow'
  obtain ⟨hok, -, hs'⟩ | ⟨hok, off, m, hoff, hm, -, hls, hs', hfs⟩ := hrest
  · obtain ⟨-, -, ht'⟩ | ⟨hok', -⟩ := hrest'
    · rw [hs', ht']
      refine ⟨⟨_, hl₁⟩, ⟨_, hl₁'⟩, rfl, fun n hn => ?_⟩
      rw [(hl.grow hg hl₁.files).2.2.2.1, (hl'.grow hg' hl₁'.files).2.2.2.1]
      exact h.files n hn
    · rw [hok] at hok'
      cases hok'
  · obtain ⟨hok', -, -⟩ | ⟨-, off', m', hoff', hm', -, hlt, ht', hft⟩ := hrest'
    · rw [hok] at hok'
      cases hok'
    rw [h.fdArray] at hoff' hm'
    obtain rfl : off' = off := by omega
    obtain rfl : m' = m := by omega
    refine ⟨⟨_, hls⟩, ⟨_, hlt⟩, ?_, fun n hn => ?_⟩
    · rw [ht', hs', h.directory]
      rfl
    · rw [hfs, hft, h.directory]
      refine update_agree h.files (fun hname => ?_) hn
      obtain rfl | ⟨k, hk, hkg⟩ := hb
      · rw [h.content hi hname]
      · rw [← he, hl.files.chains.dirIndex_eq hi, Option.some.injEq] at hk
        exact absurd (hk ▸ hkg) hname

end Agree

/-! ## Runs -/

/-- The two runs side by side. -/
def pairStep (p : FS × FS) (c : Call × Call) : Option ((Ret × Ret) × (FS × FS)) :=
  (p.1.step c.1).bind fun x => (p.2.step c.2).map fun y => ((x.1, y.1), (x.2, y.2))

/-- The calls of two runs that differ only in the bytes written to `g`. -/
def PairCall (g : List UInt8) (G : FS → Call → Prop) (p : FS × FS) (c : Call × Call) : Prop :=
  SameBut g p.1 c.1 c.2 ∧ G p.1 c.1 ∧ G p.2 c.2

theorem pairStep_eq_some {p p' : FS × FS} {c : Call × Call} {ret : Ret × Ret}
    (h : pairStep p c = some (ret, p')) :
    p.1.step c.1 = some (ret.1, p'.1) ∧ p.2.step c.2 = some (ret.2, p'.2) := by
  obtain ⟨x, hx, h⟩ := Option.bind_eq_some_iff.mp h
  obtain ⟨y, hy, h⟩ := Option.map_eq_some_iff.mp h
  obtain ⟨rfl, rfl⟩ := Prod.mk.inj h
  exact ⟨hx, hy⟩

/-- One call in each run. -/
theorem Agree.step {c c' : Call} {ret ret' : Ret} (h : Agree g s t) (hc : SameBut g s c c')
    (ho : OffsetCall s c) (hs : s.step c = some (ret, s')) (ht : t.step c' = some (ret', t')) : Agree g s' t' := by
  obtain rfl | ⟨fd, buf, buf', nbyte, rfl, rfl, -, hopen⟩ := hc
  · cases c with
    | read fd buf nbyte => exact (h.read (step_read_eq_some hs) (step_read_eq_some ht)).1
    | write fd buf nbyte => exact h.write (.inl rfl) (codeOnly_eq_some hs).1 (codeOnly_eq_some ht).1
    | truncate fd length => exact h.truncate ho (codeOnly_eq_some hs).1 (codeOnly_eq_some ht).1
    | _ => exact h.plain ho.1 ho.1 ho.1 (by intros; simp) (by intros; simp) hs ht
  · exact h.write (.inr hopen) (codeOnly_eq_some hs).1 (codeOnly_eq_some ht).1

/-- Two runs of one session that differ only in the bytes written to `g`, and whose fs_truncate
    calls leave no descriptor behind the new end: fs_read returns the same bytes from every file
    other than `g`. -/
theorem session_reads_agree {files : String → Option Image} {d : String} {junk : Junk} {heap : Buf} {s₀ : FS}
    {es : List ((Call × Call) × (Ret × Ret))} {buf : List UInt8} {nbyte : Nat} {ret ret' : Ret}
    (h : session files d junk heap = some (r, s₀))
    (hrun : Run (Guarded pairStep (PairCall g OffsetCall)) (s₀, s₀) es (s, t)) (hno : ¬ OpenOn g s fd)
    (hs : s.step (.read fd buf nbyte) = some (ret, s')) (ht : t.step (.read fd buf nbyte) = some (ret', t')) :
    ret.code = ret'.code ∧ ret.buf.take ret.code.toNat = ret'.buf.take ret.code.toNat := by
  have hagree : Agree g s t := by
    refine hrun.invariant (I := fun p => Agree g p.1 p.2) ?_ ?_
    · exact ⟨⟨_, session_live h⟩, ⟨_, session_live h⟩, rfl, fun _ _ => rfl⟩
    · intro p e p' hp hstep
      obtain ⟨⟨hc, ho, -⟩, hstep⟩ := hstep
      obtain ⟨hl, hr⟩ := pairStep_eq_some hstep
      exact hp.step hc ho hl hr
  obtain ⟨-, hk, hb⟩ := hagree.read (step_read_eq_some hs) (step_read_eq_some ht)
  exact ⟨hk, hb hno⟩

/-- Two runs on given calls, and a test on their last states. -/
theorem session_pair_exec {files : String → Option Image} {d : String} {junk : Junk} {heap : Buf}
    (G : FS × FS → Call × Call → Prop) (ok : FS × FS → Call × Call → Bool) (calls : List (Call × Call))
    (p : FS × FS → Bool) (hok : ∀ q, ∀ c ∈ calls, ok q c = true → G q c)
    (h : ((session files d junk heap).bind fun q =>
      (exec pairStep ok (q.2, q.2) calls).map fun q' => p q'.2) = some true) :
    ∃ r s₀ es s t, session files d junk heap = some (r, s₀) ∧ Run (Guarded pairStep G) (s₀, s₀) es (s, t) ∧
      p (s, t) = true := by
  obtain ⟨⟨r, s₀⟩, hs, h⟩ := Option.bind_eq_some_iff.mp h
  obtain ⟨⟨es, s, t⟩, he, hp⟩ := Option.map_eq_some_iff.mp h
  exact ⟨r, s₀, [] ++ es, s, t, hs, exec_run hok .start he, hp⟩

/-- What fs_read of two bytes on descriptor 0 returns. -/
def readTwo (s : FS) : Option (Ret × FS) := s.step (.read 0 [0, 0] 2)

/-- The test of `OpenOn` for runs on given calls. -/
def openTest (g : List UInt8) (s : FS) (fd : Int) : Bool :=
  (dirIndex s.directory (s.fdArray fd).inodeNumber).any fun i => cstr (s.directory i).name == g

theorem openTest_iff : openTest g s fd = true ↔ OpenOn g s fd := by
  unfold openTest OpenOn
  rw [Option.any_eq_true]
  constructor
  · intro ⟨i, hi, hn⟩
    exact ⟨i, hi, by simpa using hn⟩
  · intro ⟨i, hi, hn⟩
    exact ⟨i, hi, by simpa using hn⟩

/-- The test of `PairCall` for runs on given calls. -/
def pairTest (g : List UInt8) (ok : FS → Call → Bool) (p : FS × FS) (c : Call × Call) : Bool :=
  ok p.1 c.1 && ok p.2 c.2 && match c with
    | (.write fd buf _, .write _ buf' _) => buf == buf' || openTest g p.1 fd
    | _ => true

def nameB : CString := ⟨[98], by decide⟩

/-- The same call in both runs. -/
def both (c : Call) : Call × Call := (c, c)

/-- `PairCall` for a list of calls that has one pair of different ones, writing to `g`. -/
theorem pairTest_spec {G : FS → Call → Prop} {ok : FS → Call → Bool} (hG : ∀ s c, ok s c = true → G s c)
    (fd : Int) {buf buf' : List UInt8} (nbyte : Nat) (hlen : buf.length = buf'.length) (hne : buf ≠ buf')
    {p : FS × FS} {c : Call × Call} (hc : c.1 = c.2 ∨ c = (.write fd buf nbyte, .write fd buf' nbyte))
    (h : pairTest g ok p c = true) : PairCall g G p c := by
  unfold pairTest at h
  rw [Bool.and_eq_true, Bool.and_eq_true] at h
  obtain ⟨⟨h1, h2⟩, h3⟩ := h
  refine ⟨?_, hG _ _ h1, hG _ _ h2⟩
  obtain heq | rfl := hc
  · exact .inl heq
  · dsimp only at h3
    rw [Bool.or_eq_true, beq_iff_eq] at h3
    exact .inr ⟨fd, buf, buf', nbyte, rfl, rfl, hlen, openTest_iff.mp (h3.resolve_left hne)⟩

/-- A block of the deleted file `b`, written with different bytes in the two runs, is given to `a`. -/
theorem session_reads_agree_reuse : ∃ r s₀ es s t ret s' ret' t',
    session (fun _ => none) "disk" zeroJunk (fun _ => 0) = some (r, s₀) ∧
      Run (Guarded pairStep (PairCall nameB.chars OffsetCall)) (s₀, s₀) es (s, t) ∧
      s.disk.block 20 3 ≠ t.disk.block 20 3 ∧
      s.step (.read 0 [0, 0] 2) = some (ret, s') ∧ t.step (.read 0 [0, 0] 2) = some (ret', t') ∧
      ret.code = 2 ∧ ret.buf.take 2 = ret'.buf.take 2 := by
  obtain ⟨r, s₀, es, s, t, hs, hrun, hp⟩ := session_pair_exec (PairCall nameB.chars OffsetCall)
    (pairTest nameB.chars offsetTest)
    [both (.create nameB), both (.open nameB), (.write 0 [1, 1, 1, 1] 4, .write 0 [2, 2, 2, 2] 4), both (.close 0),
      both (.delete nameB), both (.create nameA), both (.open nameA), both (.write 0 [7, 8, 9] 3), both (.lseek 0 0)]
    (fun p => decide (p.1.disk.block 20 3 ≠ p.2.disk.block 20 3) && !openTest nameB.chars p.1 0 &&
      (readTwo p.1).any (fun x => x.1.code == 2) && (readTwo p.2).isSome)
    (by
      intro q c hc
      have hlen : ([1, 1, 1, 1] : List UInt8).length = ([2, 2, 2, 2] : List UInt8).length := rfl
      refine pairTest_spec (fun _ _ => offsetTest_spec) 0 4 hlen (by decide) ?_
      simp only [List.mem_cons, List.not_mem_nil, or_false] at hc
      rcases hc with rfl | rfl | rfl | rfl | rfl | rfl | rfl | rfl | rfl
      all_goals first | exact .inl rfl | exact .inr rfl)
    (show (session (fun _ => none) "disk" zeroJunk (fun _ => 0)).bind _ = some true by decide +kernel)
  rw [Bool.and_eq_true, Bool.and_eq_true, Bool.and_eq_true] at hp
  obtain ⟨⟨⟨hne, hno⟩, h1⟩, h2⟩ := hp
  obtain ⟨⟨ret, s'⟩, hread, hcode⟩ := (Option.any_eq_true _ _).mp h1
  obtain ⟨⟨ret', t'⟩, hread'⟩ := Option.isSome_iff_exists.mp h2
  have hno' : ¬ OpenOn nameB.chars s 0 := fun ho => by
    rw [openTest_iff.mpr ho] at hno
    cases hno
  have hcode2 : ret.code = 2 := by simpa using hcode
  have hbytes := (session_reads_agree hs hrun hno' hread hread').2
  rw [hcode2] at hbytes
  exact ⟨r, s₀, es, s, t, ret, s', ret', t', hs, hrun, of_decide_eq_true hne, hread, hread', hcode2, hbytes⟩

/-- The call is not an fs_truncate to a length outside the file. -/
def Call.CutsInside (s : FS) : Call → Prop
  | .truncate fildes length => 0 ≤ length ∧
      ∀ i, dirIndex s.directory (s.fdArray fildes).inodeNumber = some i → length ≤ (s.directory i).size
  | _ => True

/-- The test of a session's call that cuts files inside only. -/
def insideTest (s : FS) (c : Call) : Bool :=
  decide c.InSession && match c with
    | .truncate fildes length => decide (0 ≤ length) &&
        (dirIndex s.directory (s.fdArray fildes).inodeNumber).all fun i => decide (length ≤ (s.directory i).size)
    | _ => true

theorem insideTest_spec {c : Call} (h : insideTest s c = true) : c.InSession ∧ c.CutsInside s := by
  obtain ⟨hin, ht⟩ := Bool.and_eq_true_iff.mp h
  refine ⟨of_decide_eq_true hin, ?_⟩
  cases c with
  | truncate fildes length =>
      dsimp only at ht
      rw [Bool.and_eq_true] at ht
      refine ⟨of_decide_eq_true ht.1, fun i hi => ?_⟩
      have := ht.2
      rw [hi, Option.all_some] at this
      exact of_decide_eq_true this
  | _ => trivial

/-- `a` is cut to nothing with its descriptor at 4098, then written to in a block that was `b`'s: the
    bytes of `b` in front of it are now bytes of `a`. -/
theorem truncate_shows_stale_bytes :
    ¬ ∀ (g : List UInt8) (files : String → Option Image) (d : String) (junk : Junk) (heap : Buf) (r : Int)
      (s₀ s t s' t' : FS) (es : List ((Call × Call) × (Ret × Ret))) (fd : Int) (buf : List UInt8) (nbyte : Nat)
      (ret ret' : Ret), session files d junk heap = some (r, s₀) →
      Run (Guarded pairStep (PairCall g fun s c => c.InSession ∧ c.CutsInside s)) (s₀, s₀) es (s, t) →
      ¬ OpenOn g s fd → s.step (.read fd buf nbyte) = some (ret, s') →
      t.step (.read fd buf nbyte) = some (ret', t') →
      ret.buf.take ret.code.toNat = ret'.buf.take ret.code.toNat := by
  intro hall
  obtain ⟨r, s₀, es, s, t, hs, hrun, hp⟩ := session_pair_exec
    (PairCall nameB.chars fun s c => c.InSession ∧ c.CutsInside s) (pairTest nameB.chars insideTest)
    [both (.create nameA), both (.open nameA), both (.write 0 (List.replicate 4098 7) 4098), both (.create nameB),
      both (.open nameB), (.write 1 [1, 1] 2, .write 1 [2, 2] 2), both (.close 1), both (.delete nameB),
      both (.truncate 0 0), both (.write 0 [9] 1), both (.lseek 0 4096)]
    (fun p => !openTest nameB.chars p.1 0 && (readTwo p.1).any (fun x => x.1 == { code := 2, buf := [1, 1] }) &&
      (readTwo p.2).any (fun x => x.1 == { code := 2, buf := [2, 2] }))
    (by
      intro q c hc
      have hlen : ([1, 1] : List UInt8).length = ([2, 2] : List UInt8).length := rfl
      refine pairTest_spec (fun _ _ => insideTest_spec) 1 2 hlen (by decide) ?_
      simp only [List.mem_cons, List.not_mem_nil, or_false] at hc
      rcases hc with rfl | rfl | rfl | rfl | rfl | rfl | rfl | rfl | rfl | rfl | rfl
      all_goals first | exact .inl rfl | exact .inr rfl)
    (show (session (fun _ => none) "disk" zeroJunk (fun _ => 0)).bind _ = some true by decide +kernel)
  rw [Bool.and_eq_true, Bool.and_eq_true] at hp
  obtain ⟨⟨hno, h1⟩, h2⟩ := hp
  obtain ⟨⟨ret, s'⟩, hread, hret⟩ := (Option.any_eq_true _ _).mp h1
  obtain ⟨⟨ret', t'⟩, hread', hret'⟩ := (Option.any_eq_true _ _).mp h2
  rw [beq_iff_eq] at hret hret'
  have hno' : ¬ OpenOn nameB.chars s 0 := fun ho => by
    rw [openTest_iff.mpr ho] at hno
    cases hno
  have hbytes := hall _ _ _ _ _ _ _ _ _ _ _ _ _ _ _ _ _ hs hrun hno' hread hread'
  dsimp only at hret hret'
  rw [hret, hret'] at hbytes
  exact absurd hbytes (by decide)

end EC440.FileSystem
