/-
  Which blocks are in use. In one session that begins with all data blocks free, a block is
  marked in the bitmap as long as it is on the chain of a file, and no longer: fs_create and
  fs_write mark what they take, fs_delete clears what it frees.

  fs_truncate unlinks the blocks behind the new end and leaves them marked. No file has such a
  block any more, and no call clears its mark.
-/
import EC440.FileSystem.Persist

namespace EC440.FileSystem

open EC440.Lib

/-- The calls of a session whose fs_truncate calls cut no block off. -/
def KeepingCall (s : FS) (c : Call) : Prop := c.InSession ∧ c.KeepsBlocks s

theorem Files.bitmapOk {s : FS} {ch : Int → List Int} (h : Files (· = 1) s ch) (hm : Marked s ch) :
    BitmapOk s := by
  intro j h1 h2
  have hd : DataBlock j := by
    rw [h.shape.super] at h1
    exact ⟨h1, h2⟩
  constructor
  · intro hj
    obtain ⟨i, hi, hji⟩ := hm j hd hj
    refine ⟨i, hi, ?_⟩
    rw [h.chains.fileBlocks_eq hi]
    exact hji
  · intro hj
    obtain ⟨i, hi, hji⟩ := hj
    rw [h.chains.fileBlocks_eq hi] at hji
    rw [(h.chains.blocks i hi j hji).2]
    decide

/-- Nothing is marked on a file system without files. -/
theorem BitmapOk.all_free {s : FS} (h : BitmapOk s) (hno : ∀ i, ¬ Used s.directory i) {j : Int}
    (h1 : s.super.dataOffset ≤ j) (h2 : j < diskBlocks) : s.usedBlockBitmap j = 0 := by
  by_contra hj
  obtain ⟨i, hi, -⟩ := (h j h1 h2).mp hj
  exact hno i hi

/-- A session that begins with all data blocks free: in every run whose fs_truncate calls cut no
    block off, exactly the blocks of files are marked, and none when there is no file. -/
theorem session_bitmapOk {files : String → Option Image} {d : String} {junk : Junk} {heap : Buf} {r : Int}
    {s₀ s : FS} {es : List (Call × Ret)} (h : session files d junk heap = some (r, s₀))
    (hfree : ∀ j, DataBlock j → s₀.usedBlockBitmap j = 0) (hrun : Run (Guarded FS.step KeepingCall) s₀ es s) :
    BitmapOk s ∧ ((∀ i, ¬ Used s.directory i) →
      ∀ j, s.super.dataOffset ≤ j → j < diskBlocks → s.usedBlockBitmap j = 0) := by
  have hinv : ∃ ch, Files (· = 1) s ch ∧ Marked s ch := by
    refine hrun.invariant (I := fun s => ∃ ch, Files (· = 1) s ch ∧ Marked s ch) ?_ ?_
    · exact ⟨fun _ => [], (session_fresh h).files _ _, fun b hd hb => absurd (hfree b hd) hb⟩
    · intro s e s' ⟨ch, hf, hm⟩ ⟨⟨hin, hk⟩, hstep⟩
      obtain ⟨ch', hf', -, hm'⟩ := Files.step (P := (· = 1)) (by decide) rfl hin.isFs hf hstep
      exact ⟨ch', hf', hm' hm hk⟩
  obtain ⟨ch, hf, hm⟩ := hinv
  have hok := hf.bitmapOk hm
  exact ⟨hok, fun hno j h1 h2 => hok.all_free hno h1 h2⟩

instance (s : FS) (fildes length : Int) : Decidable (KeepsBlocks s fildes length) :=
  match hi : dirIndex s.directory (s.fdArray fildes).inodeNumber with
  | none => isTrue fun _ i hi' => by rw [hi] at hi'; cases hi'
  | some i =>
      decidable_of_iff ((s.fdArray fildes).used = true → length ≤ (s.directory i).size →
        (fileBlocks s.table (s.directory i).inodeNumber).length ≤ blocksOf length) (by
          constructor
          · intro h hu j hj
            rw [hi, Option.some.injEq] at hj
            rw [← hj]
            exact h hu
          · intro h hu
            exact h hu i hi)

instance (s : FS) : DecidablePred (Call.KeepsBlocks s)
  | .truncate fildes length => inferInstanceAs (Decidable (KeepsBlocks s fildes length))
  | .create _ | .open _ | .close _ | .delete _ | .read _ _ _ | .write _ _ _ | .getFilesize _
  | .listfiles | .lseek _ _ | .mount _ _ | .umount _ => isTrue trivial

instance (s : FS) (c : Call) : Decidable (KeepingCall s c) := inferInstanceAs (Decidable (_ ∧ _))

/-- What malloc returned for used_block_bitmap. -/
theorem session_bitmap {files : String → Option Image} {d : String} {junk : Junk} {heap : Buf} {r : Int}
    {s : FS} (h : session files d junk heap = some (r, s)) {j : Int} (hj : DataBlock j) :
    s.usedBlockBitmap j = heap j.toNat := by
  obtain ⟨s', files', hs, -, hl, -⟩ := session_ready files d junk heap
  rw [hs, Option.some.injEq, Prod.mk.injEq] at h
  rw [← h.2]
  exact hl.bitmap j hj

/-- A file gets two blocks, is cut inside its second block, closed and deleted. -/
theorem session_bitmapOk_delete : ∃ r s₀ es s,
    session (fun _ => none) "disk" zeroJunk (fun _ => 0) = some (r, s₀) ∧
      Run (Guarded FS.step KeepingCall) s₀ es s ∧ BitmapOk s ∧ s.usedBlockBitmap 21 = 0 := by
  obtain ⟨r, s₀, es, s, hs, hrun, hp⟩ := session_exec KeepingCall (fun s c => decide (KeepingCall s c))
    [.create nameA, .open nameA, .write 0 (List.replicate 4098 7) 4098, .truncate 0 4097, .close 0, .delete nameA]
    (fun s => s.usedBlockBitmap 21 == 0) (fun s c _ h => of_decide_eq_true h)
    (show (session (fun _ => none) "disk" zeroJunk (fun _ => 0)).bind _ = some true by decide +kernel)
  exact ⟨r, s₀, es, s, hs, hrun, (session_bitmapOk hs (fun j hj => session_bitmap hs hj) hrun).1, by simpa using hp⟩

/-- fs_create, fs_open, fs_close, fs_delete, fs_write of at least one byte, fs_lseek, and fs_truncate to
    a length that is not negative. -/
def Call.Plain : Call → Prop
  | .write fildes _ nbyte => IsFd fildes ∧ 1 ≤ nbyte
  | .truncate fildes length => IsFd fildes ∧ 0 ≤ length
  | .read _ _ _ | .getFilesize _ | .listfiles => False
  | c => c.InSession

instance : DecidablePred Call.Plain
  | .write fildes _ nbyte => inferInstanceAs (Decidable (IsFd fildes ∧ 1 ≤ nbyte))
  | .truncate fildes length => inferInstanceAs (Decidable (IsFd fildes ∧ 0 ≤ length))
  | .read _ _ _ | .getFilesize _ | .listfiles => isFalse id
  | .create name => inferInstanceAs (Decidable (Call.create name).InSession)
  | .open name => inferInstanceAs (Decidable (Call.open name).InSession)
  | .close fildes => inferInstanceAs (Decidable (Call.close fildes).InSession)
  | .delete name => inferInstanceAs (Decidable (Call.delete name).InSession)
  | .lseek fildes offset => inferInstanceAs (Decidable (Call.lseek fildes offset).InSession)
  | .mount _ _ | .umount _ => isFalse id

/-- fs_truncate(0, 0) on a file of two blocks leaves the second one marked, on no chain. -/
theorem truncate_leaks_block :
    ¬ ∀ (files : String → Option Image) (d : String) (junk : Junk) (heap : Buf) (r : Int) (s₀ s : FS)
      (es : List (Call × Ret)), session files d junk heap = some (r, s₀) →
      (∀ j, DataBlock j → s₀.usedBlockBitmap j = 0) →
      Run (Guarded FS.step fun _ c => c.Plain) s₀ es s → BitmapOk s := by
  intro hall
  obtain ⟨r, s₀, es, s, hs, hrun, hp⟩ := session_exec (fun _ c => c.Plain) (fun _ c => decide c.Plain)
    [.create nameA, .open nameA, .write 0 (List.replicate 4097 7) 4097, .truncate 0 0]
    (fun s => decide (s.super.dataOffset ≤ 21 ∧ s.usedBlockBitmap 21 ≠ 0) &&
      (List.range 64).all fun i : Nat => !(s.directory i).used ||
        !(fileBlocks s.table (s.directory i).inodeNumber).contains 21)
    (fun s c _ h => of_decide_eq_true h)
    (show (session (fun _ => none) "disk" zeroJunk (fun _ => 0)).bind _ = some true by decide +kernel)
  rw [Bool.and_eq_true] at hp
  obtain ⟨h1, h2⟩ := of_decide_eq_true hp.1
  have hok := hall _ _ _ _ _ _ _ _ hs (fun j hj => session_bitmap hs hj) hrun
  obtain ⟨i, hi, hmem⟩ := (hok 21 h1 (by decide)).mp h2
  have hslot := hi.1
  unfold IsSlot maxNumOfFiles at hslot
  have hno := List.all_eq_true.mp hp.2 i.toNat (List.mem_range.mpr (by omega))
  rw [Int.toNat_of_nonneg hslot.1, hi.2] at hno
  simp only [Bool.not_true, Bool.false_or, Bool.not_eq_true', List.contains_eq_mem, decide_eq_false_iff_not] at hno
  exact hno hmem

end EC440.FileSystem
