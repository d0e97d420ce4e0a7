/-
  tls_handle_page_fault. The fault address is rounded down to its page by a mask, and the page is
  looked for in every LSA of the table. In every state that calls without tls_destroy reach, the
  walk meets only live items and pages, and finds the page exactly when the address lies in one.
-/
import EC440.Tls.Protection
import Mathlib.Data.Nat.Bitwise

namespace EC440.Tls

open EC440.Lib

/-- HASH -/
def hash : Nat := 23

/-- Which branch the handler takes: pthread_exit, or the default action of the signal. -/
inductive FaultAction
  | exitThread
  | reraise
  deriving DecidableEq, Repr

/-- `si_addr & ~(page_size - 1)` -/
def faultPage (pageSize : Nat) (addr : UInt64) : UInt64 := addr &&& ~~~(UInt64.ofNat pageSize - 1)

namespace State

/-- The loop over the pages of an LSA. pthread_exit does not return, so a match ends the search. -/
def faultInTls (s : State) (pFault : UInt64) (tls : ThreadLocalStorage) : Option Bool :=
  tls.pages.anyM fun page => (s.pages page).map fun p => p.address == pFault.toNat

/-- The walk along a bucket. -/
def faultInBucket (s : State) (pFault : UInt64) (bucket : List Nat) : Option Bool :=
  bucket.anyM fun element => (s.items element).bind fun it => s.faultInTls pFault it.tls

/-- `none` where the walk meets freed memory. -/
def tlsHandlePageFault (addr : UInt64) (s : State) : Option FaultAction :=
  let pFault := faultPage s.pageSize addr
  ((List.range hash).anyM fun i => s.faultInBucket pFault (s.table i)).map fun found =>
    if found then .exitThread else .reraise

/-- The address lies in a page of some thread's LSA. -/
def InLsa (s : State) (addr : Nat) : Prop :=
  ∃ t i it, s.Owns t i it ∧ ∃ page ∈ it.tls.pages, ∃ p, s.pages page = some p ∧
    p.address ≤ addr ∧ addr < p.address + s.pageSize

end State

/-! ## The mask -/

theorem pageMask_toNat (n : Nat) : (UInt64.ofNat (2 ^ n) - 1).toNat = 2 ^ min n 64 - 1 := by
  rcases Nat.lt_or_ge n 64 with hn | hn
  · have hlt : 2 ^ n < 2 ^ 64 := Nat.pow_lt_pow_right (by decide) hn
    have hpos : 0 < 2 ^ n := Nat.two_pow_pos n
    rw [Nat.min_eq_left hn.le, UInt64.toNat_sub, UInt64.toNat_ofNat_of_lt' hlt]
    change (2 ^ 64 - 1 + 2 ^ n) % 2 ^ 64 = _
    omega
  · have hzero : UInt64.ofNat (2 ^ n) = 0 := by
      apply UInt64.toNat_inj.mp
      rw [UInt64.toNat_ofNat']
      exact Nat.mod_eq_zero_of_dvd (pow_dvd_pow 2 hn)
    rw [Nat.min_eq_right hn, hzero]
    rfl

/-- The bits of an address that the mask leaves. -/
theorem testBit_faultPage (n i : Nat) (x : UInt64) :
    (faultPage (2 ^ n) x).toNat.testBit i = (x.toNat.testBit i && decide (min n 64 ≤ i)) := by
  have hlt : 2 ^ min n 64 - 1 < 2 ^ 64 := by
    have hle : 2 ^ min n 64 ≤ 2 ^ 64 := Nat.pow_le_pow_right (by decide) (Nat.min_le_right n 64)
    have hpos : 0 < 2 ^ min n 64 := Nat.two_pow_pos _
    omega
  unfold faultPage
  rw [UInt64.toNat_and, Nat.testBit_and, UInt64.toNat_not, pageMask_toNat,
    show UInt64.size - 1 - (2 ^ min n 64 - 1) = 2 ^ 64 - (2 ^ min n 64 - 1 + 1) by rw [Nat.sub_sub, Nat.add_comm]; rfl,
    Nat.testBit_two_pow_sub_succ hlt, Nat.testBit_two_pow_sub_one, ← decide_not]
  simp only [Nat.not_lt]
  rcases Nat.lt_or_ge i 64 with hi | hi
  · rw [decide_eq_true hi, Bool.true_and]
  · have hx : x.toNat < 2 ^ i := lt_of_lt_of_le x.toNat_lt (Nat.pow_le_pow_right (by decide) hi)
    rw [Nat.testBit_lt_two_pow hx, Bool.false_and, Bool.false_and]

/-- The rounding of the handler is the page of the address. -/
theorem faultPage_toNat (n : Nat) (x : UInt64) : (faultPage (2 ^ n) x).toNat = Memory.base (2 ^ n) x.toNat := by
  have hbase : Memory.base (2 ^ n) x.toNat = x.toNat / 2 ^ min n 64 * 2 ^ min n 64 := by
    have hmod : x.toNat % 2 ^ n = x.toNat % 2 ^ min n 64 := by
      rcases Nat.lt_or_ge n 64 with hn | hn
      · rw [Nat.min_eq_left hn.le]
      · have hx := x.toNat_lt
        rw [Nat.min_eq_right hn, Nat.mod_eq_of_lt hx,
          Nat.mod_eq_of_lt (lt_of_lt_of_le hx (Nat.pow_le_pow_right (by decide) hn))]
    unfold Memory.base
    rw [hmod, Nat.div_mul_self_eq_mod_sub_self]
  apply Nat.eq_of_testBit_eq
  intro i
  rw [testBit_faultPage, hbase, Nat.testBit_mul_two_pow, Nat.testBit_div_two_pow, Bool.and_comm]
  by_cases hi : min n 64 ≤ i
  · rw [Nat.sub_add_cancel hi]
  · rw [decide_eq_false hi, Bool.false_and, Bool.false_and]

/-! ## The search -/

section
variable {α : Type*} {f : α → Option Bool} {l : List α}

/-- A search that is defined everywhere finds what there is. -/
theorem anyM_eq (h : ∀ a ∈ l, ∃ b, f a = some b) :
    ∃ b, l.anyM f = some b ∧ (b = true ↔ ∃ a ∈ l, f a = some true) := by
  induction l with
  | nil => exact ⟨false, rfl, by simp⟩
  | cons a l ih =>
    obtain ⟨b, hb⟩ := h a List.mem_cons_self
    rw [List.anyM, hb]
    cases b with
    | true => exact ⟨true, rfl, iff_of_true rfl ⟨a, List.mem_cons_self, hb⟩⟩
    | false =>
      obtain ⟨c, hc, hiff⟩ := ih fun x hx => h x (List.mem_cons_of_mem a hx)
      exact ⟨c, hc, hiff.trans (by simp [hb])⟩

end

variable {k : Kernel} {s s' : State} {t : UInt64} {i : Nat} {it : Item}

/-- What the walk needs: every item of the table is live, and so are its pages. -/
structure Walkable (s : State) : Prop where
  live : Live s
  alloc : ∀ i it, s.items i = some it → ∀ p ∈ it.tls.pages, ∃ pg, s.pages p = some pg
  linked : ∀ i it, s.items i = some it → i ∈ s.table (hashFunction it.tid)

theorem hashFunction_lt (t : UInt64) : hashFunction t < hash := Nat.mod_lt _ (by decide)

theorem faultInTls_spec (pFault : UInt64) {tls : ThreadLocalStorage}
    (h : ∀ p ∈ tls.pages, ∃ pg, s.pages p = some pg) :
    ∃ b, s.faultInTls pFault tls = some b ∧
      (b = true ↔ ∃ page ∈ tls.pages, ∃ p, s.pages page = some p ∧ p.address = pFault.toNat) := by
  obtain ⟨b, hb, hiff⟩ := anyM_eq (l := tls.pages)
    (f := fun page => (s.pages page).map fun p => p.address == pFault.toNat) fun page hpage => by
      obtain ⟨p, hp⟩ := h page hpage
      exact ⟨_, by rw [hp]; rfl⟩
  refine ⟨b, hb, hiff.trans (exists_congr fun page => and_congr_right fun _ => ?_)⟩
  rw [Option.map_eq_some_iff]
  exact exists_congr fun p => and_congr_right fun _ => beq_iff_eq

theorem Walkable.faultInBucket (h : Walkable s) (pFault : UInt64) (b : Nat) :
    ∃ found, s.faultInBucket pFault (s.table b) = some found ∧
      (found = true ↔ ∃ i ∈ s.table b, ∃ it, s.items i = some it ∧
        ∃ page ∈ it.tls.pages, ∃ p, s.pages page = some p ∧ p.address = pFault.toNat) := by
  obtain ⟨found, hfound, hiff⟩ := anyM_eq (l := s.table b)
    (f := fun i => (s.items i).bind fun it => s.faultInTls pFault it.tls) fun i hi => by
      obtain ⟨it, hit⟩ := Option.ne_none_iff_exists'.mp (h.live b i hi)
      obtain ⟨c, hc, -⟩ := faultInTls_spec pFault (h.alloc i it hit)
      exact ⟨c, by rw [hit]; exact hc⟩
  refine ⟨found, hfound, hiff.trans (exists_congr fun i => and_congr_right fun _ => ?_)⟩
  rw [Option.bind_eq_some_iff]
  refine exists_congr fun it => and_congr_right fun hit => ?_
  obtain ⟨c, hc, hpages⟩ := faultInTls_spec pFault (h.alloc i it hit)
  rw [hc, Option.some.injEq, hpages]

/-- The three loops find a page with the given address, if a thread has one. -/
theorem Walkable.search (h : Walkable s) (pFault : UInt64) :
    ∃ found, ((List.range hash).anyM fun i => s.faultInBucket pFault (s.table i)) = some found ∧
      (found = true ↔ ∃ t i it, s.Owns t i it ∧
        ∃ page ∈ it.tls.pages, ∃ p, s.pages page = some p ∧ p.address = pFault.toNat) := by
  obtain ⟨found, hfound, hiff⟩ := anyM_eq (l := List.range hash)
    (f := fun i => s.faultInBucket pFault (s.table i)) fun b _ => by
      obtain ⟨c, hc, -⟩ := h.faultInBucket pFault b
      exact ⟨c, hc⟩
  refine ⟨found, hfound, hiff.trans ⟨fun hex => ?_, fun hex => ?_⟩⟩
  · obtain ⟨b, -, hb⟩ := hex
    obtain ⟨c, hc, hbucket⟩ := h.faultInBucket pFault b
    obtain ⟨i, -, it, hit, hpage⟩ := hbucket.mp (Option.some.inj (hc.symm.trans hb))
    exact ⟨it.tid, i, it, ⟨hit, rfl⟩, hpage⟩
  · obtain ⟨t, i, it, ⟨hit, -⟩, hpage⟩ := hex
    obtain ⟨c, hc, hbucket⟩ := h.faultInBucket pFault (hashFunction it.tid)
    refine ⟨hashFunction it.tid, List.mem_range.mpr (hashFunction_lt _), ?_⟩
    rw [hc, hbucket.mpr ⟨i, h.linked i it hit, it, hit, hpage⟩]

/-! ## Runs -/

/-- Every item is in the bucket of its thread, and the page size is set before there is one. -/
structure Tabled (k : Kernel) (s : State) : Prop where
  linked : ∀ i it, s.items i = some it → i ∈ s.table (hashFunction it.tid)
  started : ∀ i it, s.items i = some it → s.isFirstCall = false
  pageSize : s.isFirstCall = false → s.pageSize = k.getpagesize

/-- Items are kept, up to the pages in their slots. -/
structure SameThreads (s s' : State) : Prop where
  table : s'.table = s.table
  items : ∀ i it', s'.items i = some it' → ∃ it, s.items i = some it ∧ it.tid = it'.tid
  pageSize : s'.pageSize = s.pageSize
  isFirstCall : s'.isFirstCall = s.isFirstCall

theorem SameThreads.refl (s : State) : SameThreads s s := ⟨rfl, fun _ it h => ⟨it, h, rfl⟩, rfl, rfl⟩

theorem SameThreads.trans {s₁ s₂ s₃ : State} (h : SameThreads s₁ s₂) (h' : SameThreads s₂ s₃) :
    SameThreads s₁ s₃ := by
  refine ⟨h'.table.trans h.table, fun i it hi => ?_, h'.pageSize.trans h.pageSize,
    h'.isFirstCall.trans h.isFirstCall⟩
  obtain ⟨it₂, hi₂, ht₂⟩ := h'.items i it hi
  obtain ⟨it₁, hi₁, ht₁⟩ := h.items i it₂ hi₂
  exact ⟨it₁, hi₁, ht₁.trans ht₂⟩

theorem SameItems.sameThreads (h : SameItems s s') : SameThreads s s' :=
  ⟨h.table, fun _ it hi => ⟨it, h.items ▸ hi, rfl⟩, h.pageSize, h.isFirstCall⟩

theorem Tabled.same (h : Tabled k s) (hsame : SameThreads s s') : Tabled k s' := by
  refine ⟨fun i it hi => ?_, fun i it hi => ?_, fun hf => ?_⟩
  · obtain ⟨jt, hj, ht⟩ := hsame.items i it hi
    rw [hsame.table, ← ht]
    exact h.linked i jt hj
  · obtain ⟨jt, hj, -⟩ := hsame.items i it hi
    rw [hsame.isFirstCall]
    exact h.started i jt hj
  · rw [hsame.pageSize]
    exact h.pageSize (hsame.isFirstCall ▸ hf)

theorem Tabled.add (h : Tabled k s) (ht : it.tid = t) (hf : s.isFirstCall = false) : Tabled k (s.add t it) := by
  refine ⟨fun i jt hj => ?_, fun _ _ _ => hf, h.pageSize⟩
  rcases add_cases hj with ⟨hi, rfl⟩ | ⟨-, hj⟩
  · rw [ht, hi]
    unfold State.add
    dsimp only
    rw [Function.update_self]
    exact List.mem_cons_self
  · exact mem_add_table (h.linked i jt hj)

/-- A loop whose rounds keep the threads' items. -/
theorem foldlM_sameThreads {f : State → Nat → Option State} (hf : ∀ s p s', f s p = some s' → SameThreads s s')
    {l : List Nat} (h : l.foldlM f s = some s') : SameThreads s s' := by
  refine foldlM_invariant (I := fun _ s' => SameThreads s s') (SameThreads.refl s) ?_ h
  intro done p _ s₁ s₂ _ hI hp
  exact hI.trans (hf s₁ p s₂ hp)

theorem tlsUnprotect_same {prot : Prot} {p : Nat} (h : s.tlsUnprotect prot p = some s') : SameThreads s s' := by
  obtain ⟨pg, -, rfl⟩ := tlsUnprotect_cases h
  exact ⟨rfl, fun _ it hi => ⟨it, hi, rfl⟩, rfl, rfl⟩

theorem sharePage_same {p : Nat} (h : s.sharePage p = some s') : SameThreads s s' := by
  rw [State.sharePage] at h
  obtain ⟨pg, -, h⟩ := Option.bind_eq_some_iff.mp h
  rw [Option.pure_def, Option.some.injEq] at h
  rw [← h]
  exact ⟨rfl, fun _ it hi => ⟨it, hi, rfl⟩, rfl, rfl⟩

theorem writeByte_same {e : Nat} {buffer : Nat → UInt8} {count : Nat} {index : Int}
    (hw : s.writeByte k e buffer count index = some s') : SameThreads s s' := by
  obtain ⟨it, page, pg, x, hi, -, -, ⟨-, rfl⟩ | ⟨-, a, -, rfl⟩⟩ := writeByte_run hw
  · exact ⟨rfl, fun _ jt hj => ⟨jt, hj, rfl⟩, rfl, rfl⟩
  · refine ⟨rfl, fun i jt hj => ?_, rfl, rfl⟩
    -- the item that gets the copy keeps its thread
    have hj : (s.copied e it _ page pg a).items i = some jt := hj
    rcases copied_items hj with ⟨rfl, rfl⟩ | hj
    · exact ⟨it, hi, rfl⟩
    · exact ⟨jt, hj, rfl⟩

theorem tlsWrite_tabled {offset length : UInt32} {buffer : Nat → UInt8} {r : Int} (h : Tabled k s)
    (hw : s.tlsWrite k t offset length buffer = some (r, s')) : Tabled k s' := by
  obtain ⟨-, rfl⟩ | ⟨e, it, s₁, s₂, it₂, -, -, -, h₁, h₂, -, h₃, -⟩ := tlsWrite_run hw
  · exact h
  have hunprotect := foldlM_sameThreads (fun _ _ _ hp => tlsUnprotect_same hp) h₁
  have hloop : SameThreads s₁ s₂ := by
    refine forInt_invariant (I := SameThreads s₁) (SameThreads.refl s₁) ?_ h₂
    intro s₁ _ _ s₂ hI hb
    exact hI.trans (writeByte_same hb)
  have hprotect := foldlM_sameThreads (fun _ _ _ hp => tlsUnprotect_same hp) h₃
  exact h.same (hunprotect.trans (hloop.trans hprotect))

theorem tlsRead_tabled {offset length : UInt32} {r : Int × List UInt8} (h : Tabled k s)
    (hr : s.tlsRead t offset length = some (r, s')) : Tabled k s' := by
  obtain ⟨-, rfl⟩ | ⟨e, it, s₁, buffer, -, -, -, h₁, -, h₂, -⟩ := tlsRead_run hr
  · exact h
  have hunprotect := foldlM_sameThreads (fun _ _ _ hp => tlsUnprotect_same hp) h₁
  have hprotect := foldlM_sameThreads (fun _ _ _ hp => tlsUnprotect_same hp) h₂
  exact h.same (hunprotect.trans hprotect)

theorem tlsClone_tabled {u : UInt64} {r : Int} (h : Tabled k s) (hc : s.tlsClone t u = some (r, s')) :
    Tabled k s' := by
  obtain ⟨-, rfl⟩ | ⟨e, it, s₁, -, -, hi, h₁, -, rfl⟩ := tlsClone_run hc
  · exact h
  have hsame := foldlM_sameThreads (fun _ _ _ hp => sharePage_same hp) h₁
  have hf : s₁.isFirstCall = false := by
    rw [hsame.isFirstCall]
    exact h.started _ it hi
  exact (h.same hsame).add rfl hf

theorem tlsInit_tabled (h : Tabled k s) : Tabled k (s.tlsInit k) := by
  unfold State.tlsInit
  split
  · exact ⟨h.linked, fun _ _ _ => rfl, fun _ => rfl⟩
  · exact h

theorem tlsCreate_tabled {size : UInt32} {r : Int} (hp : PagesOk k s) (h : Tabled k s)
    (hc : s.tlsCreate k t size = some (r, s')) : Tabled k s' := by
  have hinit := tlsInit_tabled h
  have hf := tlsInit_started s k
  have hpages : PagesOk k (s.tlsInit k) := by
    unfold State.tlsInit
    split
    · exact ⟨hp.lt, hp.mapped, hp.aligned, hp.distinct⟩
    · exact hp
  obtain ⟨-, rfl⟩ | ⟨o, s₁, hcreate, hcase⟩ := tlsCreate_run hc
  · exact hinit
  obtain ⟨o', s₂, hcreate', hgrown, -⟩ :=
    createPages_spec (State.pageNum size (s.tlsInit k).pageSize) (s.tlsInit k) hpages (hinit.pageSize hf)
  obtain ⟨rfl, rfl⟩ := Prod.mk.inj (hcreate'.symm.trans hcreate)
  have hsame := hgrown.same.sameThreads
  rcases hcase with ⟨-, -, rfl⟩ | ⟨pages, -, -, rfl⟩
  · exact hinit.same hsame
  · exact (hinit.same hsame).add rfl (hsame.isFirstCall.trans hf)

theorem step_tabled {c : UInt64 × Call} {r : Ret} (hp : PagesOk k s) (h : Tabled k s) (hc : c.2.isDestroy = false)
    (hstep : s.step k c = some (r, s')) : Tabled k s' := by
  obtain ⟨t, c⟩ := c
  cases c with
  | destroy => cases hc
  | create size =>
    obtain ⟨r₁, h₁⟩ := returned_of_map hstep fun _ => rfl
    exact tlsCreate_tabled hp h h₁
  | write offset length buffer =>
    obtain ⟨r₁, h₁⟩ := returned_of_map hstep fun _ => rfl
    exact tlsWrite_tabled h h₁
  | read offset length =>
    obtain ⟨r₁, h₁⟩ := returned_of_map hstep fun _ => rfl
    exact tlsRead_tabled h h₁
  | clone tid =>
    obtain ⟨r₁, h₁⟩ := returned_of_map hstep fun _ => rfl
    exact tlsClone_tabled h h₁

theorem init_tabled (k : Kernel) : Tabled k {} where
  linked := by rintro i it ⟨⟩
  started := by rintro i it ⟨⟩
  pageSize := by rintro ⟨⟩

/-- On a page-aligned address, the page of a byte is this page exactly when the byte lies in it. -/
theorem base_eq_iff {size a x : Nat} (hpos : 0 < size) (ha : size ∣ a) :
    a = Memory.base size x ↔ a ≤ x ∧ x < a + size := by
  constructor
  · intro h
    have hlt := Nat.mod_lt x hpos
    have hle := Nat.mod_le x size
    rw [h, Memory.base]
    omega
  · intro h
    have hbase := base_add ha (show x - a < size by omega)
    rw [Nat.add_sub_cancel' h.1] at hbase
    exact hbase.symm

/-- In every state that tls_create, tls_clone, tls_read and tls_write reach, and for every address, the
    handler ends; it exits the thread when the address lies in a page of some thread's LSA, and
    otherwise raises the signal again. -/
theorem fault_classified {es : List ((UInt64 × Call) × Ret)}
    (hrun : Run (Guarded (State.step k) fun _ c => c.2.isDestroy = false) {} es s) (addr : UInt64) :
    ∃ action, s.tlsHandlePageFault addr = some action ∧
      (action = .exitThread ↔ s.InLsa addr.toNat) ∧ (action = .reraise ↔ ¬ s.InLsa addr.toNat) := by
  have hinv : SealedBut k [] s ∧ Tabled k s := by
    refine hrun.invariant (I := fun s => SealedBut k [] s ∧ Tabled k s) ⟨init_sealed k, init_tabled k⟩ ?_
    intro s e s' hs hstep
    exact ⟨step_sealed hs.1 hstep.1 hstep.2, step_tabled hs.1.pages hs.2 hstep.1 hstep.2⟩
  obtain ⟨hsealed, htabled⟩ := hinv
  have hwalk : Walkable s := ⟨hsealed.live, hsealed.alloc, htabled.linked⟩
  obtain ⟨found, hfound, hiff⟩ := hwalk.search (faultPage s.pageSize addr)
  have hin : found = true ↔ s.InLsa addr.toNat := by
    refine hiff.trans (exists_congr fun t => exists_congr fun i => exists_congr fun it => and_congr_right fun howns =>
      exists_congr fun page => and_congr_right fun _ => exists_congr fun p => and_congr_right fun hp => ?_)
    rw [htabled.pageSize (htabled.started i it howns.1), Kernel.getpagesize, faultPage_toNat]
    exact base_eq_iff (Nat.two_pow_pos _) (hsealed.pages.aligned page p hp)
  refine ⟨if found then .exitThread else .reraise, ?_, ?_, ?_⟩
  · unfold State.tlsHandlePageFault
    dsimp only
    rw [hfound]
    rfl
  · rw [← hin]
    cases found <;> simp
  · rw [← hin]
    cases found <;> simp

/-- Thread 24 has written to a page that it shared with thread 1. A fault in its private copy, which is
    mapped at 16781312, exits the thread. -/
theorem fault_classified_copy : ∃ es s, Run (Guarded (State.step .upward) fun _ c => c.2.isDestroy = false) {} es s ∧
    s.slots 0 = [0] ∧ s.slots 1 = [1] ∧ s.tlsHandlePageFault 16781317 = some .exitThread ∧ s.InLsa 16781317 := by
  obtain ⟨es, s, hrun, hp⟩ := run_of_exec .upward (fun _ c => c.2.isDestroy = false)
    [(1, .create 100), (24, .clone 1), (24, .write 5 1 fun _ => 7)]
    (fun _ s => decide (s.slots 0 = [0] ∧ s.slots 1 = [1] ∧ s.tlsHandlePageFault 16781317 = some .exitThread))
    (by decide +kernel)
  obtain ⟨h0, h1, hfault⟩ := of_decide_eq_true hp
  obtain ⟨action, haction, hexit, -⟩ := fault_classified hrun 16781317
  rw [hfault, Option.some.injEq] at haction
  exact ⟨es, s, hrun, h0, h1, hfault, hexit.mp haction.symm⟩

end EC440.Tls
