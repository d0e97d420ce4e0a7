/-
  What every call keeps, whatever the names, descriptors and arguments and whatever the bitmap
  holds: the superblock is the one make_fs wrote, links lead only to data blocks or out of the
  table, a directory entry is in use exactly when its inode number is a data block, names of
  files are unique and an unused entry has the empty name.
-/
import EC440.FileSystem.Calls

namespace EC440.FileSystem

open EC440.Lib

/-- A cell of Table is free (-2), or is a data block that ends a chain or leads to one. -/
def TableShape (table : Int → Inode) : Prop :=
  ∀ b, InBlocks b → (table b).nextDirectOffset = -2 ∨
    (DataBlock b ∧ ((table b).nextDirectOffset = -1 ∨ DataBlock (table b).nextDirectOffset))

structure DirShape (dir : Int → DirectoryEntry) : Prop where
  entry : ∀ i, IsSlot i → (dir i).Storable
  inode : ∀ i, IsSlot i → ((dir i).used = true ↔ DataBlock (dir i).inodeNumber)
  emptyName : ∀ i, IsSlot i → (dir i).used = false → cstr (dir i).name = []
  names : ∀ i j, Used dir i → Used dir j → cstr (dir i).name = cstr (dir j).name → i = j

structure Shape (s : FS) : Prop where
  super : s.super = makeSuper
  table : TableShape s.table
  dir : DirShape s.directory

/-- Two entries stand for the same file. -/
def SameFile (e e' : DirectoryEntry) : Prop :=
  e'.used = e.used ∧ e'.inodeNumber = e.inodeNumber ∧ e'.name = e.name

theorem sameFile_update {dir : Int → DirectoryEntry} {i : Int} {e : DirectoryEntry}
    (h : SameFile (dir i) e) (j : Int) : SameFile (dir j) (Function.update dir i e j) := by
  by_cases hj : j = i
  · subst hj; simpa using h
  · rw [Function.update_of_ne hj]; exact ⟨rfl, rfl, rfl⟩

theorem used_congr {dir dir' : Int → DirectoryEntry} (hs : ∀ j, SameFile (dir j) (dir' j)) {i : Int} :
    Used dir' i ↔ Used dir i := by
  unfold Used; rw [(hs i).1]

theorem used_update {dir : Int → DirectoryEntry} {i j : Int} {e : DirectoryEntry} (hij : j ≠ i) :
    Used (Function.update dir i e) j ↔ Used dir j := by
  unfold Used; rw [Function.update_of_ne hij]

theorem DirShape.congr {dir dir' : Int → DirectoryEntry} (h : DirShape dir)
    (hs : ∀ j, SameFile (dir j) (dir' j)) (hst : ∀ i, IsSlot i → (dir' i).Storable) :
    DirShape dir' where
  entry := hst
  inode := fun i hi => by rw [(hs i).1, (hs i).2.1]; exact h.inode i hi
  emptyName := fun i hi => by rw [(hs i).1, (hs i).2.2]; exact h.emptyName i hi
  names := fun i j hi hj => by
    rw [(hs i).2.2, (hs j).2.2]
    exact h.names i j ((used_congr hs).mp hi) ((used_congr hs).mp hj)

theorem storable_update {dir : Int → DirectoryEntry} (h : ∀ i, IsSlot i → (dir i).Storable) {i : Int}
    {e : DirectoryEntry} (he : e.Storable) :
    ∀ j, IsSlot j → (Function.update dir i e j).Storable := by
  intro j hj
  by_cases hji : j = i
  · subst hji; simpa using he
  · rw [Function.update_of_ne hji]; exact h j hj

/-! ## The table under the loops -/

theorem TableShape.setFree {table : Int → Inode} (h : TableShape table) (b : Int) :
    TableShape (setNext table b (-2)) := by
  intro c hc
  by_cases hcb : c = b
  · subst hcb; exact .inl (setNext_self _ _ _)
  · rw [setNext_of_ne hcb]; exact h c hc

theorem TableShape.setLink {table : Int → Inode} (h : TableShape table) {b v : Int} (hb : DataBlock b)
    (hv : v = -1 ∨ DataBlock v) : TableShape (setNext table b v) := by
  intro c hc
  by_cases hcb : c = b
  · subst hcb; rw [setNext_self]; exact .inr ⟨hb, hv⟩
  · rw [setNext_of_ne hcb]; exact h c hc

theorem TableShape.create {table : Int → Inode} (h : TableShape table) {b : Int} (hb : DataBlock b) :
    TableShape (Function.update table b { type := 1, nextDirectOffset := -1 }) := by
  intro c hc
  by_cases hcb : c = b
  · subst hcb; rw [Function.update_self]; exact .inr ⟨hb, .inl rfl⟩
  · rw [Function.update_of_ne hcb]; exact h c hc

/-- A link out of a data block that stays in the table leads to a data block. -/
theorem TableShape.next {table : Int → Inode} (h : TableShape table) {b : Int} (hb : InBlocks b)
    (hn : InBlocks (table b).nextDirectOffset) : DataBlock (table b).nextDirectOffset := by
  rcases h b hb with h1 | ⟨_, h1 | h1⟩
  · rw [h1] at hn; exact absurd hn.1 (by decide)
  · rw [h1] at hn; exact absurd hn.1 (by decide)
  · exact h1

theorem growChain_shape : ∀ (n : Nat) (s : FS) (a : Int) (ok : Bool) (s' : FS),
    s.super = makeSuper → TableShape s.table → (InBlocks a → DataBlock a) →
    growChain n s a = some (ok, s') →
    TableShape s'.table ∧ s' = { s with table := s'.table, usedBlockBitmap := s'.usedBlockBitmap }
  | 0, s, a, ok, s', _, ht, _, h => by
      simp only [growChain, Option.some.injEq, Prod.mk.injEq] at h
      obtain ⟨-, rfl⟩ := h
      exact ⟨ht, rfl⟩
  | n + 1, s, a, ok, s', hs, ht, ha, h => by
      simp only [growChain] at h
      split at h
      · cases h
      next hin =>
      have hin := not_not.mp hin
      split at h
      · split at h
        · cases h
        split at h
        · next j hj =>
            have hj' := (freeBlock_eq_some hs hj).1
            have ht' : TableShape (setNext (setNext s.table a j) j (-1)) :=
              (ht.setLink (ha hin) (.inr hj')).setLink hj' (.inl rfl)
            have ih := growChain_shape n { s with
                usedBlockBitmap := Function.update s.usedBlockBitmap j 1
                table := setNext (setNext s.table a j) j (-1) } _ ok s' hs ht'
              (fun hb => ht'.next hin hb) h
            exact ⟨ih.1, by rw [ih.2]⟩
        · split at h
          · cases h; exact ⟨ht, rfl⟩
          · exact growChain_shape n s _ ok s' hs ht (fun hb => ht.next hin hb) h
      · exact growChain_shape n s _ ok s' hs ht (fun hb => ht.next hin hb) h

theorem freeChain_shape : ∀ (n : Nat) (s : FS) (a : Int) (s' : FS),
    TableShape s.table → freeChain n s a = some s' →
    TableShape s'.table ∧ s' = { s with table := s'.table, usedBlockBitmap := s'.usedBlockBitmap }
  | 0, _, _, _, _, h => by simp [freeChain] at h
  | n + 1, s, a, s', ht, h => by
      simp only [freeChain] at h
      split at h
      · cases h
      split at h
      · have ih := freeChain_shape n _ _ s' (ht.setFree a) h
        exact ⟨ih.1, by rw [ih.2]⟩
      · cases h
        exact ⟨ht.setFree a, rfl⟩

/-- fs_delete never returns from an entry that is not in use. -/
theorem freeChain_notData {n : Nat} {s : FS} {a : Int} (ht : TableShape s.table) (ha : ¬ DataBlock a) :
    freeChain n s a = none := by
  cases n with
  | zero => rfl
  | succ n =>
      simp only [freeChain]
      split
      · rfl
      next hin =>
      rcases ht a (not_not.mp hin) with h | h
      · rw [if_pos (by rw [h]; decide), h]
        cases n with
        | zero => rfl
        | succ n => simp [freeChain, InBlocks]
      · exact absurd h.1 ha

theorem cutChain_shape : ∀ (n : Nat) (table : Int → Inode) (a : Int) (table' : Int → Inode),
    TableShape table → cutChain n table a = some table' → TableShape table'
  | 0, _, _, _, _, h => by simp [cutChain] at h
  | n + 1, table, a, table', ht, h => by
      simp only [cutChain] at h
      split at h
      · cases h; exact ht
      split at h
      · exact cutChain_shape n _ _ _ (ht.setFree a) h
      · cases h

theorem skipChain_data : ∀ (n : Nat) {table : Int → Inode} {a c : Int}, TableShape table →
    (InBlocks a → DataBlock a) → skipChain table n a = some c → InBlocks c → DataBlock c
  | 0, _, a, c, _, ha, h, hc => by
      simp only [skipChain, Option.some.injEq] at h
      subst h; exact ha hc
  | n + 1, table, a, c, ht, ha, h, hc => by
      simp only [skipChain] at h
      split at h
      · next hin => exact skipChain_data n ht (fun hb => ht.next hin hb) h hc
      · cases h

/-! ## The calls -/

/-- A change of one entry's count. -/
theorem DirShape.recount {dir : Int → DirectoryEntry} (h : DirShape dir) {i count : Int} (hi : IsSlot i)
    (hc : IsInt32 count) : DirShape (Function.update dir i { dir i with count := count }) :=
  h.congr (sameFile_update ⟨rfl, rfl, rfl⟩) (storable_update h.entry
    ⟨(h.entry i hi).inode, (h.entry i hi).name, (h.entry i hi).size, hc⟩)

theorem Shape.open {s s' : FS} {name : CString} {r : Int} (h : Shape s)
    (hc : fsOpen s name = some (r, s')) : Shape s' := by
  obtain ⟨-, rfl, -⟩ | ⟨fildes, i, -, -, -, hi, -, hcount, -, rfl⟩ := fsOpen_cases hc
  · exact h
  have hcnt := (h.dir.entry i hi).count
  refine ⟨h.super, h.table, h.dir.recount hi ?_⟩
  unfold IsInt32 at *
  omega

theorem Shape.close {s s' : FS} {fildes r : Int} (h : Shape s)
    (hc : fsClose s fildes = some (r, s')) : Shape s' := by
  obtain ⟨-, rfl, -⟩ | ⟨index, -, -, hi, hcount, -, rfl⟩ := fsClose_cases hc
  · exact h
  have hslot := (dirIndex_eq_some hi).1.1
  have hcnt := (h.dir.entry index hslot).count
  refine ⟨h.super, h.table, h.dir.recount hslot ?_⟩
  unfold IsInt32 at *
  omega

theorem isInt32_dataBlock {b : Int} (h : DataBlock b) : IsInt32 b := by
  rw [dataBlock_iff] at h
  unfold IsInt32
  omega

theorem isInt32_zero : IsInt32 0 := by decide

theorem isInt32_neg_one : IsInt32 (-1) := by decide

theorem DirShape.create {dir : Int → DirectoryEntry} (h : DirShape dir) {i inode : Int} {name : CString}
    (hi : IsSlot i) (hb : DataBlock inode) (hlen : name.chars.length ≤ maxFilenameLength)
    (hnew : ∀ i, Used dir i → name.chars ≠ cstr (dir i).name) :
    DirShape (Function.update dir i
      { used := true, inodeNumber := inode, name := strcpy (dir i).name name, size := 0, count := 0 }) where
  entry := storable_update h.entry
    ⟨isInt32_dataBlock hb, length_strcpy (h.entry i hi).name hlen, isInt32_zero, isInt32_zero⟩
  inode := by
    intro j hj
    by_cases hji : j = i
    · subst hji; simpa using hb
    · rw [Function.update_of_ne hji]; exact h.inode j hj
  emptyName := by
    intro j hj hu
    by_cases hji : j = i
    · subst hji; simp at hu
    · rw [Function.update_of_ne hji] at hu ⊢; exact h.emptyName j hj hu
  names := by
    intro j k hj hk he
    by_cases hji : j = i <;> by_cases hki : k = i
    · rw [hji, hki]
    · subst hji
      rw [Function.update_self, Function.update_of_ne hki, cstr_strcpy] at he
      exact absurd he (hnew k ((used_update hki).mp hk))
    · subst hki
      rw [Function.update_self, Function.update_of_ne hji, cstr_strcpy] at he
      exact absurd he.symm (hnew j ((used_update hji).mp hj))
    · rw [Function.update_of_ne hji, Function.update_of_ne hki] at he
      exact h.names j k ((used_update hji).mp hj) ((used_update hki).mp hk) he

theorem DirShape.delete {dir : Int → DirectoryEntry} (h : DirShape dir) {i : Int} (hi : IsSlot i) :
    DirShape (Function.update dir i
      { used := false, inodeNumber := -1, name := clearName (dir i).name, size := 0, count := 0 }) where
  entry := storable_update h.entry
    ⟨isInt32_neg_one, length_clearName (h.entry i hi).name, isInt32_zero, isInt32_zero⟩
  inode := by
    intro j hj
    by_cases hji : j = i
    · subst hji
      simp [dataBlock_iff]
    · rw [Function.update_of_ne hji]; exact h.inode j hj
  emptyName := by
    intro j hj hu
    by_cases hji : j = i
    · subst hji; simp only [Function.update_self]; exact cstr_clearName _
    · rw [Function.update_of_ne hji] at hu ⊢; exact h.emptyName j hj hu
  names := by
    intro j k hj hk he
    have hji : j ≠ i := by rintro rfl; simp [Used] at hj
    have hki : k ≠ i := by rintro rfl; simp [Used] at hk
    rw [Function.update_of_ne hji, Function.update_of_ne hki] at he
    exact h.names j k ((used_update hji).mp hj) ((used_update hki).mp hk) he

theorem Shape.create {s s' : FS} {name : CString} {r : Int} (h : Shape s)
    (hc : fsCreate s name = some (r, s')) : Shape s' := by
  obtain ⟨-, rfl, -⟩ | ⟨inode, i, hlen, hnew, hfree, hi, -, -, rfl⟩ := fsCreate_cases hc
  · exact h
  have hb := (freeBlock_eq_some h.super hfree).1
  exact ⟨h.super, h.table.create hb, h.dir.create hi hb hlen hnew⟩

/-- fs_delete removes only entries in use. -/
theorem fsDelete_used {s s₁ : FS} {n : Nat} {index : Int} (h : Shape s) (hi : IsSlot index)
    (hf : freeChain n s (s.directory index).inodeNumber = some s₁) : Used s.directory index := by
  refine ⟨hi, ?_⟩
  by_contra hu
  have hnd : ¬ DataBlock (s.directory index).inodeNumber := fun hd => hu ((h.dir.inode index hi).mpr hd)
  rw [freeChain_notData h.table hnd] at hf
  cases hf

theorem Shape.delete {s s' : FS} {name : CString} {r : Int} (h : Shape s)
    (hc : fsDelete s name = some (r, s')) : Shape s' := by
  obtain ⟨-, rfl, -⟩ | ⟨index, s₁, hi, -, -, hf, -, rfl⟩ := fsDelete_cases hc
  · exact h
  obtain ⟨ht, hs₁⟩ := freeChain_shape _ _ _ _ h.table hf
  have hdir : s₁.directory = s.directory := by rw [hs₁]
  have hsup : s₁.super = s.super := by rw [hs₁]
  refine ⟨hsup.trans h.super, ht, ?_⟩
  simp only [hdir]
  exact h.dir.delete hi

theorem Shape.read {s s' : FS} {fildes r : Int} {buf buf' : List UInt8} {nbyte : Nat} (h : Shape s)
    (hc : fsRead s fildes buf nbyte = some (r, buf', s')) : Shape s' := by
  obtain rfl | ⟨off, -, -, rfl⟩ := fsRead_cases hc
  · exact h
  · exact ⟨h.super, h.table, h.dir⟩

theorem Shape.lseek {s s' : FS} {fildes offset r : Int} (h : Shape s)
    (hc : fsLseek s fildes offset = some (r, s')) : Shape s' := by
  obtain ⟨-, rfl, -⟩ | ⟨i, -, -, -, -, -, -, rfl⟩ := fsLseek_cases hc
  · exact h
  · exact ⟨h.super, h.table, h.dir⟩

/-- A change of one entry's size. -/
theorem DirShape.resize {dir : Int → DirectoryEntry} (h : DirShape dir) {i size : Int} (hi : IsSlot i)
    (hs : IsInt32 size) : DirShape (Function.update dir i { dir i with size := size }) :=
  h.congr (sameFile_update ⟨rfl, rfl, rfl⟩) (storable_update h.entry
    ⟨(h.entry i hi).inode, (h.entry i hi).name, hs, (h.entry i hi).count⟩)

/-- The allocation loop on the chain of a file. -/
theorem Shape.grown {s s₁ : FS} {i : Int} {n : Nat} {ok : Bool} (h : Shape s) (hi : Used s.directory i)
    (hg : growChain n s (s.directory i).inodeNumber = some (ok, s₁)) :
    TableShape s₁.table ∧ s₁ = { s with table := s₁.table, usedBlockBitmap := s₁.usedBlockBitmap } :=
  growChain_shape _ _ _ _ _ h.super h.table (fun _ => (h.dir.inode i hi.1).mp hi.2) hg

theorem Shape.write {s s' : FS} {fildes r : Int} {buf : List UInt8} {nbyte : Nat} (h : Shape s)
    (hc : fsWrite s fildes buf nbyte = some (r, s')) : Shape s' := by
  obtain ⟨-, rfl, -⟩ | ⟨index, ok, s₁, -, -, hi, hg, hrest⟩ := fsWrite_cases hc
  · exact h
  have hu := (dirIndex_eq_some hi).1
  obtain ⟨ht, hs₁⟩ := h.grown hu hg
  have hsup : s₁.super = makeSuper := by rw [hs₁]; exact h.super
  have hdir : s₁.directory = s.directory := by rw [hs₁]
  obtain ⟨-, -, rfl⟩ | ⟨-, hw⟩ := hrest
  · exact ⟨hsup, ht, by rw [hdir]; exact h.dir⟩
  obtain ⟨size, d, fds, rfl, -, -, hsize⟩ := writeData_cases hw
  refine ⟨hsup, ht, ?_⟩
  have hint : IsInt32 size := by
    rcases hsize with rfl | ⟨rfl, -⟩
    · rw [hdir]; exact (h.dir.entry index hu.1).size
    · exact isInt32_toInt32 _
  simp only [hdir]
  exact h.dir.resize hu.1 hint

theorem Shape.truncate {s s' : FS} {fildes length r : Int} (h : Shape s)
    (hc : fsTruncate s fildes length = some (r, s')) : Shape s' := by
  obtain ⟨-, rfl, -⟩ | ⟨i, c, table, -, -, hi, -, hskip, hcut, hin, -, rfl⟩ := fsTruncate_cases hc
  · exact h
  have hu := (dirIndex_eq_some hi).1
  have hdata : DataBlock (s.directory i).inodeNumber := (h.dir.inode i hu.1).mp hu.2
  have hcd := skipChain_data _ h.table (fun _ => hdata) hskip hin
  exact ⟨h.super, (cutChain_shape _ _ _ _ h.table hcut).setLink hcd (.inl rfl),
    h.dir.resize hu.1 (isInt32_toInt32 _)⟩

/-- A call other than mount_fs and umount_fs. -/
def Call.IsFs : Call → Prop
  | .mount _ _ => False
  | .umount _ => False
  | _ => True

theorem codeOnly_eq_some {x : Option (Int × FS)} {r : Ret} {s' : FS} (h : codeOnly x = some (r, s')) :
    x = some (r.code, s') ∧ r = { code := r.code } := by
  unfold codeOnly at h
  rw [Option.map_eq_some_iff] at h
  obtain ⟨⟨c, t⟩, hx, he⟩ := h
  simp only [Prod.mk.injEq] at he
  obtain ⟨rfl, rfl⟩ := he
  exact ⟨hx, rfl⟩

theorem step_read_eq_some {s s' : FS} {fildes : Int} {buf : List UInt8} {nbyte : Nat} {r : Ret}
    (h : s.step (.read fildes buf nbyte) = some (r, s')) :
    fsRead s fildes buf nbyte = some (r.code, r.buf, s') := by
  obtain ⟨⟨c, b, t⟩, hx, he⟩ := Option.map_eq_some_iff.mp h
  obtain ⟨rfl, rfl⟩ := Prod.mk.inj he
  exact hx

/-- What one call runs; `s' = s` covers fs_get_filesize and fs_listfiles. -/
theorem FS.step_cases {s s' : FS} {c : Call} {r : Ret} (hc : c.IsFs) (h : s.step c = some (r, s')) :
    s' = s ∨
    (∃ name, c = .create name ∧ fsCreate s name = some (r.code, s')) ∨
    (∃ name, c = .open name ∧ fsOpen s name = some (r.code, s')) ∨
    (∃ fildes, c = .close fildes ∧ fsClose s fildes = some (r.code, s')) ∨
    (∃ name, c = .delete name ∧ fsDelete s name = some (r.code, s')) ∨
    (∃ fildes buf nbyte, c = .read fildes buf nbyte ∧
      fsRead s fildes buf nbyte = some (r.code, r.buf, s')) ∨
    (∃ fildes buf nbyte, c = .write fildes buf nbyte ∧ fsWrite s fildes buf nbyte = some (r.code, s')) ∨
    (∃ fildes offset, c = .lseek fildes offset ∧ fsLseek s fildes offset = some (r.code, s')) ∨
    (∃ fildes length, c = .truncate fildes length ∧
      fsTruncate s fildes length = some (r.code, s')) := by
  cases c with
  | create name => exact .inr (.inl ⟨name, rfl, (codeOnly_eq_some h).1⟩)
  | «open» name => exact .inr (.inr (.inl ⟨name, rfl, (codeOnly_eq_some h).1⟩))
  | close fildes => exact .inr (.inr (.inr (.inl ⟨fildes, rfl, (codeOnly_eq_some h).1⟩)))
  | delete name => exact .inr (.inr (.inr (.inr (.inl ⟨name, rfl, (codeOnly_eq_some h).1⟩))))
  | read fildes buf nbyte =>
      exact .inr (.inr (.inr (.inr (.inr (.inl ⟨fildes, buf, nbyte, rfl, step_read_eq_some h⟩)))))
  | write fildes buf nbyte =>
      exact .inr (.inr (.inr (.inr (.inr (.inr (.inl
        ⟨fildes, buf, nbyte, rfl, (codeOnly_eq_some h).1⟩))))))
  | getFilesize fildes => exact .inl (fsGetFilesize_cases (codeOnly_eq_some h).1)
  | listfiles =>
      simp only [FS.step, Option.some.injEq, Prod.mk.injEq] at h
      exact .inl h.2.symm
  | lseek fildes offset =>
      exact .inr (.inr (.inr (.inr (.inr (.inr (.inr (.inl
        ⟨fildes, offset, rfl, (codeOnly_eq_some h).1⟩)))))))
  | truncate fildes length =>
      exact .inr (.inr (.inr (.inr (.inr (.inr (.inr (.inr
        ⟨fildes, length, rfl, (codeOnly_eq_some h).1⟩)))))))
  | mount _ _ => exact hc.elim
  | umount _ => exact hc.elim

/-- Every fs_* call keeps the shape. -/
theorem Shape.step {s s' : FS} {c : Call} {r : Ret} (hc : c.IsFs) (h : Shape s)
    (hs : s.step c = some (r, s')) : Shape s' := by
  obtain rfl | ⟨_, rfl, hx⟩ | ⟨_, rfl, hx⟩ | ⟨_, rfl, hx⟩ | ⟨_, rfl, hx⟩ | ⟨_, _, _, rfl, hx⟩ |
    ⟨_, _, _, rfl, hx⟩ | ⟨_, _, rfl, hx⟩ | ⟨_, _, rfl, hx⟩ := FS.step_cases hc hs
  · exact h
  · exact h.create hx
  · exact h.open hx
  · exact h.close hx
  · exact h.delete hx
  · exact h.read hx
  · exact h.write hx
  · exact h.lseek hx
  · exact h.truncate hx

/-- No fs_* call mounts, unmounts, opens or closes the disk. -/
theorem Shape.step_disk {s s' : FS} {c : Call} {r : Ret} (hc : c.IsFs) (h : Shape s)
    (hs : s.step c = some (r, s')) : s'.mounted = s.mounted ∧ Disk.Kept s.disk s'.disk := by
  have keep : ∀ {t : FS}, t.mounted = s.mounted → t.disk = s.disk →
      t.mounted = s.mounted ∧ Disk.Kept s.disk t.disk :=
    fun hm hd => ⟨hm, by rw [hd]; exact .refl _⟩
  obtain rfl | ⟨_, rfl, hx⟩ | ⟨_, rfl, hx⟩ | ⟨_, rfl, hx⟩ | ⟨_, rfl, hx⟩ | ⟨_, _, _, rfl, hx⟩ |
    ⟨_, _, _, rfl, hx⟩ | ⟨_, _, rfl, hx⟩ | ⟨_, _, rfl, hx⟩ := FS.step_cases hc hs
  · exact keep rfl rfl
  · obtain ⟨-, rfl, -⟩ | ⟨_, _, -, -, -, -, -, -, rfl⟩ := fsCreate_cases hx <;> exact keep rfl rfl
  · obtain ⟨-, rfl, -⟩ | ⟨_, _, -, -, -, -, -, -, -, rfl⟩ := fsOpen_cases hx <;> exact keep rfl rfl
  · obtain ⟨-, rfl, -⟩ | ⟨_, -, -, -, -, -, rfl⟩ := fsClose_cases hx <;> exact keep rfl rfl
  · obtain ⟨-, rfl, -⟩ | ⟨_, s₁, -, -, -, hf, -, rfl⟩ := fsDelete_cases hx
    · exact keep rfl rfl
    · have hs₁ := (freeChain_shape _ _ _ _ h.table hf).2
      exact keep (by rw [hs₁]) (by rw [hs₁])
  · obtain rfl | ⟨_, -, -, rfl⟩ := fsRead_cases hx <;> exact keep rfl rfl
  · obtain ⟨-, rfl, -⟩ | ⟨index, ok, s₁, -, -, hi, hg, hrest⟩ := fsWrite_cases hx
    · exact keep rfl rfl
    have hs₁ := (h.grown (dirIndex_eq_some hi).1 hg).2
    have hd : s₁.disk = s.disk := by rw [hs₁]
    have hm : s₁.mounted = s.mounted := by rw [hs₁]
    obtain ⟨-, -, rfl⟩ | ⟨-, hw⟩ := hrest
    · exact keep hm hd
    · obtain ⟨_, d, _, rfl, hk, -⟩ := writeData_cases hw
      rw [hd] at hk
      exact ⟨hm, hk⟩
  · obtain ⟨-, rfl, -⟩ | ⟨_, -, -, -, -, -, -, rfl⟩ := fsLseek_cases hx <;> exact keep rfl rfl
  · obtain ⟨-, rfl, -⟩ | ⟨_, _, _, -, -, -, -, -, -, -, -, rfl⟩ := fsTruncate_cases hx <;>
      exact keep rfl rfl

end EC440.FileSystem
