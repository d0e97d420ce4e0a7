/-
  The range test of tls_write and tls_read, in every state that calls can lead to.

  offset + length is formed in 32 bits, for the test and again for the limit of the byte loop. A sum
  that wraps around can pass the test; the loop is then empty, and the call returns 0 without having
  transferred a byte.
-/
import EC440.Tls.Counts

namespace EC440.Tls

open EC440.Lib

variable {k : Kernel} {s s' : State} {t : UInt64} {e i : Nat} {it : Item} {size offset length : UInt32}

/-! ## Runs of any calls -/

/-- Any call that returns. -/
def Returned (k : Kernel) : State → (UInt64 × Call) × Ret → State → Prop :=
  Guarded (State.step k) fun _ _ => True

/-- A call has one outcome. -/
theorem Inv.returned {α : Type} {o : Option (α × State)} {r r₁ : α} {s₁ : State} (hs : Inv k s₁)
    (h : o = some (r₁, s₁)) (hc : o = some (r, s')) : Inv k s' := by
  rw [h, Option.some.injEq, Prod.mk.injEq] at hc
  rw [← hc.2]
  exact hs

theorem tlsCreate_inv {r : Int} (hs : Inv k s) (hc : s.tlsCreate k t size = some (r, s')) : Inv k s' := by
  have hinit := (tlsInit_kept hs).inv
  by_cases hz : size.toNat = 0
  · exact hinit.returned (tlsCreate_size hz) hc
  obtain hf | hf | ⟨e, it, hf, hi⟩ := s.find_trichotomy t
  · simp only [State.tlsCreate, tlsInit_find, hf] at hc
    rw [if_neg (by omega)] at hc
    cases hc
  · obtain ⟨s₁, h, ha⟩ | ⟨-, s₁, h, hk⟩ := tlsCreate_spec hs hf hz
    · exact ha.inv.returned h hc
    · exact hk.inv.returned h hc
  · exact hinit.returned (tlsCreate_owner hz hf) hc

theorem tlsDestroy_inv {r : Int} (hs : Inv k s) (hc : s.tlsDestroy t = some (r, s')) : Inv k s' := by
  obtain hf | hf | ⟨e, it, hf, hi⟩ := s.find_trichotomy t
  · rw [State.tlsDestroy, State.remove_lost hf] at hc
    cases hc
  · by_cases hb : s.table (hashFunction t) = []
    · exact hs.returned (tlsDestroy_nil hb) hc
    · rw [tlsDestroy_undefined hf hb] at hc
      cases hc
  · obtain ⟨s₁, h, hd⟩ := tlsDestroy_spec hs hf hi
    exact hd.inv.returned h hc

theorem tlsWrite_inv {r : Int} {buffer : Nat → UInt8} (hs : Inv k s)
    (hc : s.tlsWrite k t offset length buffer = some (r, s')) : Inv k s' := by
  obtain hf | hf | ⟨e, it, hf, hi⟩ := s.find_trichotomy t
  · rw [State.tlsWrite, hf] at hc
    cases hc
  · exact hs.returned (tlsWrite_null hf buffer) hc
  by_cases hgt : offset + length > it.tls.size
  · exact hs.returned (tlsWrite_range hf hi hgt buffer) hc
  by_cases hserved : Served k offset length
  · obtain ⟨s₂, hw₂, -, hre₂⟩ := tlsWrite_rule (I := fun _ _ => True) hs hf hi hgt hserved (fun _ _ => trivial)
      (fun _ _ _ _ _ _ _ _ _ _ => trivial) hc
    exact hre₂.inv hw₂.inv
  · rw [tlsWrite_lost hs hf hi hgt hserved] at hc
    cases hc

theorem tlsRead_inv {r : Int × List UInt8} (hs : Inv k s)
    (hc : s.tlsRead t offset length = some (r, s')) : Inv k s' := by
  obtain hf | hf | ⟨e, it, hf, hi⟩ := s.find_trichotomy t
  · rw [State.tlsRead, hf] at hc
    cases hc
  · exact hs.returned (tlsRead_null hf) hc
  by_cases hgt : offset + length > it.tls.size
  · exact hs.returned (tlsRead_range hf hi hgt) hc
  by_cases hserved : Served k offset length
  · obtain ⟨s₁, h, hre⟩ := tlsRead_spec hs hf hi hgt hserved
    exact (hre.inv hs).returned h hc
  · rw [tlsRead_lost hs hf hi hgt hserved] at hc
    cases hc

theorem tlsClone_inv {u : UInt64} {r : Int} (hs : Inv k s) (hc : s.tlsClone t u = some (r, s')) : Inv k s' := by
  obtain hu | hu | ⟨e, it, hu, hi⟩ := s.find_trichotomy u
  · rw [State.tlsClone, hu] at hc
    cases hf : s.find t with
    | none =>
      rw [hf] at hc
      cases hc
    | some o =>
      rw [hf] at hc
      cases hc
  all_goals
    obtain hf | hf | ⟨e', it', hf, hi'⟩ := s.find_trichotomy t
    · rw [State.tlsClone, hf] at hc
      cases hc
  · exact hs.returned (tlsClone_null hf hu) hc
  · exact hs.returned (tlsClone_owner hf hu) hc
  · obtain ⟨s₁, h, ha⟩ := tlsClone_spec hs hf hu hi
    exact ha.inv.returned h hc
  · exact hs.returned (tlsClone_owner hf hu) hc

theorem step_inv {c : UInt64 × Call} {r : Ret} (hs : Inv k s) (hstep : s.step k c = some (r, s')) : Inv k s' := by
  obtain ⟨t, c⟩ := c
  cases c with
  | create size =>
    obtain ⟨r₁, h₁⟩ := returned_of_map hstep fun _ => rfl
    exact tlsCreate_inv hs h₁
  | destroy =>
    obtain ⟨r₁, h₁⟩ := returned_of_map hstep fun _ => rfl
    exact tlsDestroy_inv hs h₁
  | write offset length buffer =>
    obtain ⟨r₁, h₁⟩ := returned_of_map hstep fun _ => rfl
    exact tlsWrite_inv hs h₁
  | read offset length =>
    obtain ⟨r₁, h₁⟩ := returned_of_map hstep fun _ => rfl
    exact tlsRead_inv hs h₁
  | clone tid =>
    obtain ⟨r₁, h₁⟩ := returned_of_map hstep fun _ => rfl
    exact tlsClone_inv hs h₁

/-- A call that does not return is the only way out of the invariant. -/
theorem run_inv {es : List ((UInt64 × Call) × Ret)} (hrun : Run (Returned k) {} es s) : Inv k s :=
  hrun.invariant (init_inv k) fun _ _ _ hs hstep => step_inv hs hstep.2

/-! ## The test -/

/-- The thread has no LSA, or the range leaves it. -/
def OutOfRange (s : State) (t : UInt64) (offset length : UInt32) : Prop :=
  (∀ i it, ¬ s.Owns t i it) ∨ ∃ i it, s.Owns t i it ∧ it.tls.size.toNat < offset.toNat + length.toNat

/-- tls_write and tls_read return, with -1 exactly when the range is out of the LSA, and otherwise
    with 0 when all bytes have been transferred. -/
structure BoundsChecked (k : Kernel) (s : State) (t : UInt64) (offset length : UInt32) : Prop where
  write : ∀ buffer, ∃ r s', s.tlsWrite k t offset length buffer = some (r, s') ∧
    ((r = -1 ∧ OutOfRange s t offset length) ∨ (r = 0 ∧ ¬ OutOfRange s t offset length ∧
      ∃ i it it', s.Owns t i it ∧ s'.Owns t i it' ∧
        s'.bytesOf it'.tls = written (s.bytesOf it.tls) offset.toNat length.toNat buffer))
  read : ∃ r bytes s', s.tlsRead t offset length = some ((r, bytes), s') ∧
    ((r = -1 ∧ OutOfRange s t offset length) ∨ (r = 0 ∧ ¬ OutOfRange s t offset length ∧
      bytes.length = length.toNat ∧
      ∃ i it, s.Owns t i it ∧ bytes = ((s.bytesOf it.tls).drop offset.toNat).take length.toNat))

/-- The 32-bit sum exceeds the size, or the range is inside the LSA and all rounds of the byte loop
    lead to their bytes. -/
def RangeServed (k : Kernel) (size offset length : UInt32) : Prop :=
  size.toNat < (offset.toNat + length.toNat) % 2 ^ 32 ∨
    (offset.toNat + length.toNat ≤ size.toNat ∧ IndexFits k.pageBits offset length)

instance : Decidable (RangeServed k size offset length) := inferInstanceAs (Decidable (_ ∨ (_ ∧ _)))

theorem outOfRange_iff (hs : TableOk s) (hi : s.Owns t e it) :
    OutOfRange s t offset length ↔ it.tls.size.toNat < offset.toNat + length.toNat := by
  refine ⟨fun h => ?_, fun h => .inr ⟨e, it, hi, h⟩⟩
  obtain hno | ⟨i, jt, hj, hlt⟩ := h
  · exact absurd hi (hno e it)
  · rw [(hs.unique hi hj).2]
    exact hlt

/-- A thread without an LSA. -/
theorem boundsChecked_null (hf : s.find t = some none) (hno : ∀ i it, ¬ s.Owns t i it) :
    BoundsChecked k s t offset length :=
  ⟨fun buffer => ⟨-1, s, tlsWrite_null hf buffer, .inl ⟨rfl, .inl hno⟩⟩,
    -1, [], s, tlsRead_null hf, .inl ⟨rfl, .inl hno⟩⟩

section
variable (hs : Inv k s) (hf : s.find t = some (some e)) (hi : s.Owns t e it)
include hs hf hi

omit hs in
/-- The 32-bit sum exceeds the size. -/
theorem boundsChecked_range (hgt : offset + length > it.tls.size) : BoundsChecked k s t offset length := by
  have hout : OutOfRange s t offset length := by
    refine .inr ⟨e, it, hi, ?_⟩
    rw [gt_iff_lt, UInt32.lt_iff_toNat_lt, UInt32.toNat_add] at hgt
    exact lt_of_lt_of_le hgt (Nat.mod_le _ _)
  exact ⟨fun buffer => ⟨-1, s, tlsWrite_range hf hi hgt buffer, .inl ⟨rfl, hout⟩⟩,
    -1, [], s, tlsRead_range hf hi hgt, .inl ⟨rfl, hout⟩⟩

/-- A range inside the LSA all of whose rounds lead to their bytes. -/
theorem boundsChecked_of_fits (hk : k.Maps) (hrange : offset.toNat + length.toNat ≤ it.tls.size.toNat)
    (hfit : IndexFits k.pageBits offset length) : BoundsChecked k s t offset length := by
  have hsize := it.tls.size.toNat_lt
  have hin : ¬ OutOfRange s t offset length := by
    rw [outOfRange_iff hs.toTableOk hi]
    omega
  have hle : ¬ offset + length > it.tls.size := by
    rw [gt_iff_lt, UInt32.lt_iff_toNat_lt, toNat_add_of_le hrange]
    omega
  have hserved : Served k offset length := fun _ => hfit
  constructor
  · intro buffer
    obtain ⟨s', h, hw⟩ := tlsWrite_spec hk hs hf hi hle hserved buffer
    rw [rounds_eq (by omega)] at hw
    obtain ⟨it', hi', -, hbytes⟩ := hw.item
    exact ⟨0, s', h, .inr ⟨rfl, hin, e, it, it', hi, hi', hbytes⟩⟩
  · obtain ⟨s', h, -⟩ := tlsRead_spec hs hf hi hle hserved
    rw [rounds_eq (by omega)] at h
    refine ⟨0, _, s', h, .inr ⟨rfl, hin, ?_, e, it, hi, rfl⟩⟩
    rw [List.length_take, List.length_drop, bytesOf_length]
    omega

/-- A range that passes the test otherwise: it wraps around and nothing is transferred, or the byte
    loop does not return. -/
theorem not_boundsChecked (hlost : ¬ RangeServed k it.tls.size offset length) :
    ¬ BoundsChecked k s t offset length := by
  intro hchecked
  have hsize := it.tls.size.toNat_lt
  obtain ⟨hle, hnot⟩ := not_or.mp hlost
  rw [← UInt32.toNat_add] at hle
  have hle : ¬ offset + length > it.tls.size := by
    rw [gt_iff_lt, UInt32.lt_iff_toNat_lt]
    exact hle
  obtain ⟨r, bytes, s', h, hanswer⟩ := hchecked.read
  by_cases hserved : Served k offset length
  · obtain ⟨s₁, h₁, -⟩ := tlsRead_spec hs hf hi hle hserved
    rw [h, Option.some.injEq, Prod.mk.injEq, Prod.mk.injEq] at h₁
    have hwrap : 2 ^ 32 ≤ offset.toNat + length.toNat := by
      by_contra hno
      refine hnot ⟨?_, hserved (by omega)⟩
      rw [gt_iff_lt, UInt32.lt_iff_toNat_lt, UInt32.toNat_add, Nat.mod_eq_of_lt (by omega)] at hle
      omega
    obtain ⟨hr, -⟩ | ⟨-, hin, -⟩ := hanswer
    · exact absurd (hr.symm.trans h₁.1.1) (by decide)
    · rw [outOfRange_iff hs.toTableOk hi] at hin
      omega
  · rw [tlsRead_lost hs hf hi hle hserved] at h
    cases h

end

/-- In every state that calls lead to, for every thread, size, offset and length. -/
theorem boundsChecked_iff {es : List ((UInt64 × Call) × Ret)} (hk : k.Maps) (hrun : Run (Returned k) {} es s)
    (t : UInt64) (offset length : UInt32) :
    BoundsChecked k s t offset length ↔
      s.Clear t ∧ ∀ i it, s.Owns t i it → RangeServed k it.tls.size offset length := by
  have hs := run_inv hrun
  obtain hf | hf | ⟨e, it, hf, hi⟩ := s.find_trichotomy t
  · refine ⟨fun h => ?_, fun h => absurd hf (State.clear_iff.mp h.1)⟩
    obtain ⟨r, bytes, s', hread, -⟩ := h.read
    rw [State.tlsRead, hf] at hread
    cases hread
  · have hno : ∀ i it, ¬ s.Owns t i it := fun i it => hs.toTableOk.find_none hf
    have hclear : s.Clear t := by
      rw [State.clear_iff, hf]
      simp
    exact ⟨fun _ => ⟨hclear, fun i it hi => absurd hi (hno i it)⟩, fun _ => boundsChecked_null hf hno⟩
  · have hclear : s.Clear t := by
      rw [State.clear_iff, hf]
      simp
    have hone : (∀ i jt, s.Owns t i jt → RangeServed k jt.tls.size offset length) ↔
        RangeServed k it.tls.size offset length := by
      refine ⟨fun h => h e it hi, fun h i jt hj => ?_⟩
      rw [← (hs.toTableOk.unique hi hj).2]
      exact h
    rw [hone]
    refine ⟨fun h => ⟨hclear, ?_⟩, fun h => ?_⟩
    · by_contra hlost
      exact not_boundsChecked hs hf hi hlost h
    · obtain hgt | ⟨hrange, hfit⟩ := h.2
      · refine boundsChecked_range hf hi ?_
        rw [gt_iff_lt, UInt32.lt_iff_toNat_lt, UInt32.toNat_add]
        exact hgt
      · exact boundsChecked_of_fits hs hf hi hk hrange hfit

theorem boundsChecked_iff_page : ∃ es s, Run (Returned .upward) {} es s ∧ BoundsChecked .upward s 1 4095 2 := by
  obtain ⟨es, s, hrun, hp⟩ := run_of_exec .upward (fun _ _ => True) [(1, .create 5000)]
    (fun _ s => decide (s.Clear 1 ∧ s.items 0 = some ⟨1, 5000, [0, 1]⟩)) (by decide +kernel)
  obtain ⟨hclear, hitem⟩ := of_decide_eq_true hp
  refine ⟨es, s, hrun, (boundsChecked_iff Kernel.upward_maps hrun 1 4095 2).mpr ⟨hclear, fun i it hi => ?_⟩⟩
  rw [← ((run_inv hrun).toTableOk.unique ⟨hitem, rfl⟩ hi).2]
  decide

/-- 1 + (2^32 - 1) is 0 in 32 bits: a read of that length from an LSA of one byte returns 0. -/
theorem read_wraps_around : ∃ es s, Run (Returned .upward) {} es s ∧ ¬ BoundsChecked .upward s 1 1 4294967295 := by
  obtain ⟨es, s, hrun, hp⟩ := run_of_exec .upward (fun _ _ => True) [(1, .create 1)]
    (fun _ s => decide (s.find 1 = some (some 0) ∧ s.items 0 = some ⟨1, 1, [0]⟩)) (by decide +kernel)
  obtain ⟨hfind, hitem⟩ := of_decide_eq_true hp
  exact ⟨es, s, hrun, not_boundsChecked (run_inv hrun) hfind ⟨hitem, rfl⟩ (by decide)⟩

end EC440.Tls
