/-
  tls_write and tls_read, one lemma for each outcome, on states that satisfy `Inv` and under the
  answer of Find: the call returns, and what it leaves behind.
-/
import EC440.Tls.Write

namespace EC440.Tls

open EC440.Lib

variable {k : Kernel} {s s' : State} {t u : UInt64} {e i : Nat} {it : Item} {size offset length : UInt32}

/-- A non-empty access inside an LSA ends below 2^31: beyond, the int `index` of the byte loops
    overflows or is negative. -/
def InInt (size offset length : UInt32) : Prop :=
  offset.toNat + length.toNat ≤ size.toNat → length.toNat = 0 ∨ offset.toNat + length.toNat < 2 ^ 31

instance : Decidable (InInt size offset length) := inferInstanceAs (Decidable (_ → _ ∨ _))

/-- How many bytes a call with this offset and length transfers. -/
def rounds (offset length : UInt32) : Nat := (offset + length).toNat - offset.toNat

theorem rounds_eq (h : offset.toNat + length.toNat < 2 ^ 32) : rounds offset length = length.toNat := by
  rw [rounds, UInt32.toNat_add, Nat.mod_eq_of_lt h]
  omega

/-- A range that wraps around, for which the byte loops are empty, or all of whose rounds lead to
    their bytes. -/
def Served (k : Kernel) (offset length : UInt32) : Prop :=
  offset.toNat + length.toNat < 2 ^ 32 → IndexFits k.pageBits offset length

instance : Decidable (Served k offset length) := inferInstanceAs (Decidable (_ → _))

theorem InInt.served (h : InInt size offset length) (hle : ¬ offset + length > size) (k : Kernel) :
    Served k offset length := by
  intro hsum
  rw [gt_iff_lt, UInt32.lt_iff_toNat_lt, UInt32.toNat_add, Nat.mod_eq_of_lt hsum] at hle
  obtain h | h := h (by omega)
  · exact .inl h
  · exact .inr (.inl h)

/-- A sum that passes the test: the loop is empty, or it runs through bytes of the LSA. -/
theorem served_cases (h : Served k offset length) (hle : ¬ offset + length > size) :
    ((offset + length).toNat ≤ offset.toNat ∧ rounds offset length = 0) ∨
    ((offset + length).toNat = offset.toNat + rounds offset length ∧ OneSide offset (offset + length) ∧
      offset.toNat + rounds offset length ≤ size.toNat ∧
      ∀ c < rounds offset length, Leads k.getpagesize (toInt offset + c) (offset.toNat + c)) := by
  have ho := offset.toNat_lt
  have hl := length.toNat_lt
  rw [gt_iff_lt, UInt32.lt_iff_toNat_lt] at hle
  by_cases hsum : offset.toNat + length.toNat < 2 ^ 32
  · have hadd : (offset + length).toNat = offset.toNat + length.toNat := by
      rw [UInt32.toNat_add, Nat.mod_eq_of_lt hsum]
    rw [rounds_eq hsum, OneSide, hadd]
    obtain hfit | hfit | hfit := h hsum
    · exact .inl (by omega)
    · exact .inr ⟨rfl, .inl hfit, by omega, fun c hc => leads_round (h hsum) hsum hc⟩
    · exact .inr ⟨rfl, .inr hfit.1, by omega, fun c hc => leads_round (h hsum) hsum hc⟩
  · unfold rounds
    rw [UInt32.toNat_add]
    exact .inl (by omega)

theorem tlsWrite_null (h : s.find t = some none) (buffer : Nat → UInt8) :
    s.tlsWrite k t offset length buffer = some (-1, s) := by
  rw [State.tlsWrite, h]
  rfl

theorem tlsWrite_range (h : s.find t = some (some e)) (hi : s.Owns t e it) (hgt : offset + length > it.tls.size)
    (buffer : Nat → UInt8) : s.tlsWrite k t offset length buffer = some (-1, s) := by
  rw [State.tlsWrite, h]
  simp [hi.1, hgt]

/-- tls_write around its byte loop. -/
theorem tlsWrite_loop (hs : Inv k s) (h : s.find t = some (some e)) (hi : s.Owns t e it)
    (hle : ¬ offset + length > it.tls.size) (buffer : Nat → UInt8) :
    ∃ s₁, Reprotected s s₁ ∧ Writing k s t e it.tls.size (s.bytesOf it.tls) s₁ ∧
      (forInt (State.writeByte k e buffer) offset (offset + length) s₁ = none →
        s.tlsWrite k t offset length buffer = none) ∧
      ∀ s₂ bytes, forInt (State.writeByte k e buffer) offset (offset + length) s₁ = some s₂ →
        Writing k s t e it.tls.size bytes s₂ →
        ∃ s₃, s.tlsWrite k t offset length buffer = some (0, s₃) ∧ Reprotected s₂ s₃ := by
  obtain ⟨s₁, h₁, hre₁, hprot⟩ := protect_spec hs.pages (hs.alloc e it hi.1) .write
  have hstart : Writing k s t e it.tls.size (s.bytesOf it.tls) s₁ := by
    refine ⟨⟨hre₁.inv hs, hre₁.noLeak, ⟨it, ⟨hre₁.same.items ▸ hi.1, hi.2⟩, rfl, by rw [hre₁.bytesOf]⟩,
      hre₁.same.table, hre₁.same.nextItem, fun i _ => by rw [hre₁.same.items],
      fun i jt _ _ => by rw [hre₁.bytesOf]⟩, fun jt hj p hp pg hpg => ?_⟩
    rw [hre₁.same.items, hi.1, Option.some.injEq] at hj
    exact hprot p (hj ▸ hp) pg (hre₁.pages ▸ hpg)
  refine ⟨s₁, hre₁, hstart, fun hnone => ?_, fun s₂ bytes h₂ hw₂ => ?_⟩
  · rw [State.tlsWrite, h]
    simp only [Option.bind_eq_bind, Option.bind_some, hi.1, if_neg hle, h₁, hnone, Option.bind_none]
  · obtain ⟨it₂, hi₂, -⟩ := hw₂.item
    obtain ⟨s₃, h₃, hre₃, -⟩ := protect_spec hw₂.inv.pages (hw₂.inv.alloc e it₂ hi₂.1) .none
    refine ⟨s₃, ?_, hre₃⟩
    rw [State.tlsWrite, h]
    simp only [Option.bind_eq_bind, Option.bind_some, hi.1, if_neg hle, h₁, h₂, hi₂.1]
    rw [show State.tlsProtect = State.tlsUnprotect .none from rfl, h₃]
    rfl

theorem tlsWrite_spec (hk : k.Maps) (hs : Inv k s) (h : s.find t = some (some e)) (hi : s.Owns t e it)
    (hle : ¬ offset + length > it.tls.size) (hserved : Served k offset length) (buffer : Nat → UInt8) :
    ∃ s', s.tlsWrite k t offset length buffer = some (0, s') ∧
      Wrote k s t e it.tls.size (written (s.bytesOf it.tls) offset.toNat (rounds offset length) buffer) s' := by
  obtain ⟨s₁, -, hstart, -, hend⟩ := tlsWrite_loop hs h hi hle buffer
  have hloop : ∃ s₂, forInt (State.writeByte k e buffer) offset (offset + length) s₁ = some s₂ ∧
      Writing k s t e it.tls.size (written (s.bytesOf it.tls) offset.toNat (rounds offset length) buffer) s₂ := by
    rcases served_cases hserved hle with ⟨hempty, hn⟩ | ⟨hlim, hside, hsize, hleads⟩
    · exact ⟨s₁, forInt_empty hempty, by rw [hn, written_zero]; exact hstart⟩
    · refine forInt_run (I := fun c s' => Writing k s t e it.tls.size
        (written (s.bytesOf it.tls) offset.toNat c buffer) s') hlim hside (by rw [written_zero]; exact hstart) ?_
      intro c s' hc hw
      have hin : offset.toNat + c < it.tls.size.toNat := by omega
      obtain ⟨s'', hround⟩ := hw.returns hk hin (hleads c hc) buffer c
      have hstep := hw.round hin (hleads c hc) buffer c hround
      rw [written_succ (by rw [bytesOf_length]; exact hin)] at hstep
      exact ⟨s'', hround, hstep⟩
  obtain ⟨s₂, h₂, hw₂⟩ := hloop
  obtain ⟨s₃, h₃, hre₃⟩ := hend s₂ _ h₂ hw₂
  exact ⟨s₃, h₃, hw₂.toWrote.reprotected hre₃⟩

/-- Rule for a call that has returned, also where an mmap may fail: `I` speaks of the number of bytes
    written. -/
theorem tlsWrite_rule {r : Int} {buffer : Nat → UInt8} {I : Nat → State → Prop} (hs : Inv k s)
    (h : s.find t = some (some e)) (hi : s.Owns t e it) (hle : ¬ offset + length > it.tls.size)
    (hserved : Served k offset length) (h₀ : ∀ s₁, Reprotected s s₁ → I 0 s₁)
    (hstep : ∀ c s₁ s₂ bytes index, offset.toNat + c < it.tls.size.toNat →
      Leads k.getpagesize index (offset.toNat + c) → Writing k s t e it.tls.size bytes s₁ → I c s₁ →
      s₁.writeByte k e buffer c index = some s₂ → I (c + 1) s₂)
    (hw : s.tlsWrite k t offset length buffer = some (r, s')) :
    ∃ s₂, Writing k s t e it.tls.size
        (written (s.bytesOf it.tls) offset.toNat (rounds offset length) buffer) s₂ ∧
      I (rounds offset length) s₂ ∧ Reprotected s₂ s' := by
  obtain ⟨s₁, hre₁, hstart, hnone, hend⟩ := tlsWrite_loop hs h hi hle buffer
  cases h₂ : forInt (State.writeByte k e buffer) offset (offset + length) s₁ with
  | none =>
    rw [hnone h₂] at hw
    cases hw
  | some s₂ =>
    have hw₂ : Writing k s t e it.tls.size
        (written (s.bytesOf it.tls) offset.toNat (rounds offset length) buffer) s₂ ∧
        I (rounds offset length) s₂ := by
      rcases served_cases hserved hle with ⟨hempty, hn⟩ | ⟨hlim, hside, hsize, hleads⟩
      · rw [forInt_empty hempty, Option.some.injEq] at h₂
        rw [hn, written_zero, ← h₂]
        exact ⟨hstart, h₀ s₁ hre₁⟩
      · refine forInt_ended (I := fun c s' => Writing k s t e it.tls.size
          (written (s.bytesOf it.tls) offset.toNat c buffer) s' ∧ I c s') hlim hside
          ⟨by rw [written_zero]; exact hstart, h₀ s₁ hre₁⟩ ?_ h₂
        intro c s' s'' hc ⟨hw, hI⟩ hround
        have hin : offset.toNat + c < it.tls.size.toNat := by omega
        have hwrote := hw.round hin (hleads c hc) buffer c hround
        rw [written_succ (by rw [bytesOf_length]; exact hin)] at hwrote
        exact ⟨hwrote, hstep c s' s'' _ _ hin (hleads c hc) hw hI hround⟩
    obtain ⟨s₃, h₃, hre₃⟩ := hend s₂ _ h₂ hw₂.1
    rw [hw, Option.some.injEq, Prod.mk.injEq] at h₃
    exact ⟨s₂, hw₂.1, hw₂.2, h₃.2 ▸ hre₃⟩

/-- The byte loop leaves the LSA or the ints. -/
theorem tlsWrite_lost (hs : Inv k s) (h : s.find t = some (some e)) (hi : s.Owns t e it)
    (hle : ¬ offset + length > it.tls.size) (hlost : ¬ Served k offset length) (buffer : Nat → UInt8) :
    s.tlsWrite k t offset length buffer = none := by
  obtain ⟨hsum, hfit⟩ := Classical.not_imp.mp hlost
  obtain ⟨s₁, -, hstart, hnone, -⟩ := tlsWrite_loop hs h hi hle buffer
  refine hnone (forInt_lost it.tls.size hfit hsum fun index hpage => ?_)
  obtain ⟨it₁, ⟨hi₁, -⟩, hsize, -⟩ := hstart.item
  have hps := hstart.inv.pageSize_eq hi₁
  have hno : it₁.tls.pages[State.pageNumber k.getpagesize index]? = none := by
    rw [List.getElem?_eq_none_iff, hstart.inv.pageNum e it₁ hi₁, hsize]
    exact hpage
  simp only [State.writeByte, hi₁, Option.bind_eq_bind, Option.bind_some, hps, hno, Option.bind_none]

theorem tlsRead_null (h : s.find t = some none) : s.tlsRead t offset length = some ((-1, []), s) := by
  rw [State.tlsRead, h]
  rfl

theorem tlsRead_range (h : s.find t = some (some e)) (hi : s.Owns t e it)
    (hgt : offset + length > it.tls.size) : s.tlsRead t offset length = some ((-1, []), s) := by
  rw [State.tlsRead, h]
  simp [hi.1, hgt]

/-- One round of the loop of tls_read. -/
theorem readByte_spec (hs : Inv k s) (hi : s.items e = some it) {j : Nat} (hj : j < it.tls.size.toNat)
    {index : Int} (hidx : Leads k.getpagesize index j)
    (hr : ∀ p ∈ it.tls.pages, ∀ pg, s.pages p = some pg → s.mem.prot pg.address = .read)
    (buffer : List UInt8) (c : Nat) :
    s.readByte e buffer c index = some (buffer ++ [s.byteAt it.tls j]) := by
  have hps := hs.pageSize_eq hi
  obtain ⟨p, pg, hp, hpg⟩ := hs.slot hi hj
  have hload : s.mem.load k.getpagesize (pg.address + j % k.getpagesize) =
      some (s.mem.byte (pg.address + j % k.getpagesize)) := by
    rw [Memory.load, base_add (hs.pages.aligned p pg hpg) (Nat.mod_lt j (getpagesize_pos k)),
      hr p (List.mem_of_getElem? hp) pg hpg, if_pos ⟨hs.pages.mapped p pg hpg, rfl⟩]
  have hbyte : s.byteAt it.tls j = s.mem.byte (pg.address + j % k.getpagesize) := by
    rw [State.byteAt, hps, hp]
    simp only [State.content, hpg]
  rw [State.readByte, hbyte]
  simp only [hi, Option.bind_eq_bind, Option.bind_some, hps, hidx.1, hidx.2, hp, hpg, hload]
  rfl

theorem tlsRead_spec (hs : Inv k s) (h : s.find t = some (some e)) (hi : s.Owns t e it)
    (hle : ¬ offset + length > it.tls.size) (hserved : Served k offset length) :
    ∃ s', s.tlsRead t offset length =
        some ((0, ((s.bytesOf it.tls).drop offset.toNat).take (rounds offset length)), s') ∧
      Reprotected s s' := by
  obtain ⟨s₁, h₁, hre₁, hprot⟩ := protect_spec hs.pages (hs.alloc e it hi.1) .read
  have hi₁ : s₁.items e = some it := hre₁.same.items ▸ hi.1
  have hloop : forInt (s₁.readByte e) offset (offset + length) [] =
      some (((s.bytesOf it.tls).drop offset.toNat).take (rounds offset length)) := by
    rcases served_cases hserved hle with ⟨hempty, hn⟩ | ⟨hlim, hside, hsize, hleads⟩
    · rw [hn]
      exact forInt_empty hempty
    · have hrun : ∃ b, forInt (s₁.readByte e) offset (offset + length) [] = some b ∧
          b = ((s.bytesOf it.tls).drop offset.toNat).take (rounds offset length) := by
        refine forInt_run (I := fun c b => b = ((s.bytesOf it.tls).drop offset.toNat).take c) hlim hside
          (by simp) ?_
        intro c b hc hb
        have hin : offset.toNat + c < it.tls.size.toNat := by omega
        have hlen : c < ((s.bytesOf it.tls).drop offset.toNat).length := by
          rw [List.length_drop, bytesOf_length]
          omega
        refine ⟨_, readByte_spec (hre₁.inv hs) hi₁ hin (hleads c hc) (fun p hp pg hpg =>
          hprot p hp pg (hre₁.pages ▸ hpg)) b c, ?_⟩
        rw [List.take_succ_eq_append_getElem hlen, hb, hre₁.byteAt]
        simp [State.bytesOf]
      obtain ⟨b, hb, rfl⟩ := hrun
      exact hb
  obtain ⟨s₂, h₂, hre₂, -⟩ := protect_spec (hre₁.inv hs).pages ((hre₁.inv hs).alloc e it hi₁) .none
  refine ⟨s₂, ?_, ?_⟩
  · rw [State.tlsRead, h]
    simp only [Option.bind_eq_bind, Option.bind_some, hi.1, if_neg hle, h₁, hloop]
    rw [show State.tlsProtect = State.tlsUnprotect .none from rfl, h₂]
    rfl
  · obtain ⟨prot₁, rfl⟩ := hre₁
    obtain ⟨prot₂, rfl⟩ := hre₂
    exact ⟨prot₂, rfl⟩

theorem tlsRead_lost (hs : Inv k s) (h : s.find t = some (some e)) (hi : s.Owns t e it)
    (hle : ¬ offset + length > it.tls.size) (hlost : ¬ Served k offset length) :
    s.tlsRead t offset length = none := by
  obtain ⟨hsum, hfit⟩ := Classical.not_imp.mp hlost
  obtain ⟨s₁, h₁, hre₁, -⟩ := protect_spec hs.pages (hs.alloc e it hi.1) .read
  have hi₁ : s₁.items e = some it := hre₁.same.items ▸ hi.1
  have hps := (hre₁.inv hs).pageSize_eq hi₁
  have hloop : forInt (s₁.readByte e) offset (offset + length) [] = none := by
    refine forInt_lost it.tls.size hfit hsum fun index hpage => ?_
    have hno : it.tls.pages[State.pageNumber k.getpagesize index]? = none := by
      rw [List.getElem?_eq_none_iff, hs.pageNum e it hi.1]
      exact hpage
    simp only [State.readByte, hi₁, Option.bind_eq_bind, Option.bind_some, hps, hno, Option.bind_none]
  rw [State.tlsRead, h]
  simp only [Option.bind_eq_bind, Option.bind_some, hi.1, if_neg hle, h₁, hloop, Option.bind_none]

end EC440.Tls
