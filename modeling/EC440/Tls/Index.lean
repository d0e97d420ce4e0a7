/-
  The index arithmetic of the byte loops of tls_read and tls_write: which page and which offset the
  int `index` of a round leads to.

  Below 2^31 `index` is the position in the LSA. From 2^31 on it is negative: as an unsigned long it
  is 2^64 - 2^32 more than the position, and its quotient by the page size, cut to 32 bits, is the
  number of no page, unless pages have one byte (or more than an unsigned long can count).
-/
import EC440.Tls.Pages

namespace EC440.Tls

open EC440.Lib

variable {j b ps : Nat} {size offset length : UInt32}

/-- `page_number` and `page_offset` of `index` are those of byte `j`. -/
def Leads (ps : Nat) (index : Int) (j : Nat) : Prop :=
  State.pageNumber ps index = j / ps ∧ State.pageOffset ps index = j % ps

theorem leads_of_lt (hj : j < 2 ^ 31) (ps : Nat) : Leads ps (j : Int) j := by
  have h : ((j : Int) % 2 ^ 64).toNat = j := by omega
  constructor
  · rw [State.pageNumber, h, Nat.mod_eq_of_lt]
    exact lt_of_le_of_lt (Nat.div_le_self j ps) (by omega)
  · rw [State.pageOffset, h, Nat.mod_eq_of_lt]
    exact lt_of_le_of_lt (Nat.mod_le j ps) (by omega)

/-! ## Negative indices -/

/-- A negative index as an unsigned long. -/
theorem toNat_negative (hj : 2 ^ 31 ≤ j) (hlt : j < 2 ^ 32) :
    (((j : Int) - 2 ^ 32) % 2 ^ 64).toNat = 2 ^ 64 - 2 ^ 32 + j := by
  omega

/-- The page sizes 2^b for which the sign of `index` makes no difference. -/
def SignLost (b : Nat) : Prop := b = 0 ∨ 64 ≤ b

instance : Decidable (SignLost b) := inferInstanceAs (Decidable (_ ∨ _))

theorem leads_negative (hb : SignLost b) (hj : 2 ^ 31 ≤ j) (hlt : j < 2 ^ 32) :
    Leads (2 ^ b) ((j : Int) - 2 ^ 32) j := by
  rw [Leads, State.pageNumber, State.pageOffset, toNat_negative hj hlt]
  obtain rfl | hb := hb
  · rw [pow_zero]
    omega
  · have hpow : 2 ^ 64 ≤ 2 ^ b := Nat.pow_le_pow_right (by decide) hb
    rw [Nat.div_eq_of_lt (by omega), Nat.div_eq_of_lt (by omega), Nat.mod_eq_of_lt (a := 2 ^ 64 - 2 ^ 32 + j)
      (by omega), Nat.mod_eq_of_lt (a := j) (by omega)]
    omega

/-- No LSA has as many pages as a negative index asks for. -/
theorem pageNum_le_negative (hb : ¬ SignLost b) (hj : 2 ^ 31 ≤ j) (hlt : j < 2 ^ 32) (size : UInt32) :
    State.pageNum size (2 ^ b) ≤ State.pageNumber (2 ^ b) ((j : Int) - 2 ^ 32) := by
  have hb : 0 < b ∧ b < 64 := by
    unfold SignLost at hb
    omega
  have hsize := size.toNat_lt
  rw [State.pageNumber, toNat_negative hj hlt, State.pageNum]
  by_cases hsmall : b ≤ 32
  · -- 2^64 / 2^b is a multiple of 2^32, and the quotient is less than 2^31 below it
    have htwo : 2 ≤ 2 ^ b := Nat.pow_le_pow_right (n := 2) (i := 1) (by decide) hb.1
    have hsplit : 2 ^ 64 = 2 ^ b * (2 ^ 32 * 2 ^ (32 - b)) := by
      rw [← Nat.pow_add, ← Nat.pow_add]
      congr 1
      omega
    generalize 2 ^ (32 - b) = m at hsplit
    have hdiv : size.toNat / 2 ^ b ≤ size.toNat / 2 := Nat.div_le_div_left htwo (by decide)
    have hlow : 2 ^ 32 * m - 2 ^ 30 ≤ (2 ^ 64 - 2 ^ 32 + j) / 2 ^ b := by
      rw [Nat.le_div_iff_mul_le (by omega), Nat.sub_mul, mul_comm (2 ^ 32 * m), ← hsplit]
      have := Nat.mul_le_mul_left (2 ^ 30) htwo
      omega
    have hhigh : (2 ^ 64 - 2 ^ 32 + j) / 2 ^ b < 2 ^ 32 * m := by
      rw [Nat.div_lt_iff_lt_mul (by omega), mul_comm (2 ^ 32 * m), ← hsplit]
      omega
    split <;> omega
  · have hlow : 2 ^ 33 ≤ 2 ^ b := Nat.pow_le_pow_right (by decide) (by omega)
    have hhigh : 2 ^ b ≤ 2 ^ 63 := Nat.pow_le_pow_right (by decide) (by omega)
    have hone : 1 ≤ (2 ^ 64 - 2 ^ 32 + j) / 2 ^ b := by
      rw [Nat.le_div_iff_mul_le (by omega)]
      omega
    have hlt : (2 ^ 64 - 2 ^ 32 + j) / 2 ^ b < 2 ^ 32 := by
      rw [Nat.div_lt_iff_lt_mul (by omega)]
      omega
    rw [Nat.div_eq_of_lt (by omega), Nat.mod_eq_of_lt hlt]
    split <;> omega

/-! ## The rounds of a byte loop -/

/-- Every round on the range leads to its byte: the range is empty, or it ends below 2^31, or it
    begins at 2^31 or above and the sign makes no difference. -/
def IndexFits (b : Nat) (offset length : UInt32) : Prop :=
  length.toNat = 0 ∨ offset.toNat + length.toNat < 2 ^ 31 ∨ (2 ^ 31 ≤ offset.toNat ∧ SignLost b)

instance : Decidable (IndexFits b offset length) := inferInstanceAs (Decidable (_ ∨ _ ∨ (_ ∧ _)))

theorem toInt_of_ge (h : 2 ^ 31 ≤ offset.toNat) : toInt offset = (offset.toNat : Int) - 2 ^ 32 :=
  if_neg (by omega)

theorem leads_round {c : Nat} (h : IndexFits b offset length) (hsum : offset.toNat + length.toNat < 2 ^ 32)
    (hc : c < length.toNat) : Leads (2 ^ b) (toInt offset + c) (offset.toNat + c) := by
  obtain h | h | ⟨hge, hb⟩ := h
  · omega
  · rw [toInt_of_lt (by omega), ← Int.natCast_add]
    exact leads_of_lt (by omega) _
  · have hindex : toInt offset + c = ((offset.toNat + c : Nat) : Int) - 2 ^ 32 := by
      rw [toInt_of_ge hge]
      push_cast
      omega
    rw [hindex]
    exact leads_negative hb (by omega) (by omega)

/-- A range on which the rounds do not lead to their bytes: the loop does not return, whatever its
    body, if that asks for the page of its index. -/
theorem forInt_lost {σ : Type*} {body : σ → Nat → Int → Option σ} {s : σ} (size : UInt32)
    (h : ¬ IndexFits b offset length)
    (hsum : offset.toNat + length.toNat < 2 ^ 32)
    (hbody : ∀ index, State.pageNum size (2 ^ b) ≤ State.pageNumber (2 ^ b) index → body s 0 index = none) :
    forInt body offset (offset + length) s = none := by
  have hadd : (offset + length).toNat = offset.toNat + length.toNat := by
    rw [UInt32.toNat_add, Nat.mod_eq_of_lt hsum]
  unfold IndexFits at h
  by_cases hlo : offset.toNat < 2 ^ 31
  · exact forInt_overflow hlo (by omega) body s
  · refine forInt_first (by omega) (hbody _ ?_)
    rw [toInt_of_ge (by omega)]
    exact pageNum_le_negative (fun hb => h (.inr (.inr ⟨by omega, hb⟩))) (by omega) (by omega) size

/-- The byte loops on a range of an LSA of `size` bytes run through the rounds `rs`, one for each
    byte, without overflow of `count` and `index`, and each round computes a page of the LSA and an
    offset in it that are those of its byte. -/
structure IndexRight (size : UInt32) (ps : Nat) (offset length : UInt32) (rs : List (Nat × Int)) : Prop where
  loop : ∀ (σ : Type) (body : σ → Nat → Int → Option σ) (s : σ),
    forInt body offset (offset + length) s = rs.foldlM (fun s r => body s r.1 r.2) s
  rounds : rs.length = length.toNat
  count : length.toNat < 2 ^ 31
  index : ∀ c r, rs[c]? = some r → r.1 = c ∧ State.pageNumber ps r.2 < State.pageNum size ps ∧
    State.pageOffset ps r.2 < ps ∧
    State.pageNumber ps r.2 * ps + State.pageOffset ps r.2 = offset.toNat + c

theorem toNat_add_of_le (h : offset.toNat + length.toNat ≤ size.toNat) :
    (offset + length).toNat = offset.toNat + length.toNat := by
  have := size.toNat_lt
  rw [UInt32.toNat_add, Nat.mod_eq_of_lt (by omega)]

theorem indexRight_of_fits (h : IndexFits b offset length)
    (hrange : offset.toNat + length.toNat ≤ size.toNat) :
    IndexRight size (2 ^ b) offset length (intRounds offset (offset + length)) := by
  have hsize := size.toNat_lt
  have hsum := toNat_add_of_le hrange
  have hpos : 0 < 2 ^ b := Nat.two_pow_pos b
  refine ⟨fun σ body s => forInt_eq_foldlM ?_ body s, ?_, ?_, fun c r hr => ?_⟩
  · rw [OneSide, hsum]
    unfold IndexFits at h
    omega
  · rw [intRounds, List.length_map, List.length_range', hsum]
    omega
  · unfold IndexFits at h
    omega
  · obtain ⟨hc, rfl⟩ := intRounds_getElem hr
    rw [hsum] at hc
    obtain ⟨hnumber, hoffset⟩ := leads_round (c := c) h (by omega) (by omega)
    dsimp only
    rw [hnumber, hoffset]
    refine ⟨rfl, pageNum_spec hpos (by omega), Nat.mod_lt _ hpos, ?_⟩
    rw [mul_comm]
    exact Nat.div_add_mod _ _

theorem not_indexRight (h : ¬ IndexFits b offset length)
    (hrange : offset.toNat + length.toNat ≤ size.toNat) (rs : List (Nat × Int)) :
    ¬ IndexRight size (2 ^ b) offset length rs := by
  intro hright
  have hsize := size.toNat_lt
  -- a body that only asks for the page of its index
  let body : Unit → Nat → Int → Option Unit := fun s _ index =>
    if State.pageNum size (2 ^ b) ≤ State.pageNumber (2 ^ b) index then none else some s
  have hnone : forInt body offset (offset + length) () = none :=
    forInt_lost size h (by omega) fun index hpage => if_pos hpage
  have hsome : ∃ s', rs.foldlM (fun s r => body s r.1 r.2) () = some s' ∧ True := by
    refine foldlM_run (I := fun _ _ => True) trivial fun done r rest s hsplit _ => ⟨s, if_neg ?_, trivial⟩
    have hround := hright.index done.length r (by rw [hsplit]; simp)
    exact Nat.not_le.mpr hround.2.1
  obtain ⟨s', hs', -⟩ := hsome
  rw [hright.loop, hs'] at hnone
  cases hnone

/-- The byte loops for every size, every power of two as the page size and every range inside the
    LSA. -/
theorem indexRight_iff (size : UInt32) (b : Nat) (offset length : UInt32)
    (hrange : offset.toNat + length.toNat ≤ size.toNat) :
    (∃ rs, IndexRight size (2 ^ b) offset length rs) ↔ IndexFits b offset length := by
  refine ⟨fun ⟨rs, hright⟩ => ?_, fun h => ⟨_, indexRight_of_fits h hrange⟩⟩
  by_contra h
  exact not_indexRight h hrange rs hright

theorem indexRight_iff_page : (4095 : UInt32).toNat + (2 : UInt32).toNat ≤ (5000 : UInt32).toNat ∧
    ∃ rs, IndexRight 5000 (2 ^ 12) 4095 2 rs :=
  ⟨by decide, (indexRight_iff 5000 12 4095 2 (by decide)).mpr (by decide)⟩

/-- Byte 2^31 of an LSA of 2^31 + 1 bytes: `index` is negative, and the page number is outside of
    `pages`. -/
theorem index_negative : (2147483648 : UInt32).toNat + (1 : UInt32).toNat ≤ (2147483649 : UInt32).toNat ∧
    ¬ ∃ rs, IndexRight 2147483649 (2 ^ 12) 2147483648 1 rs :=
  ⟨by decide, fun ⟨rs, h⟩ => not_indexRight (by decide) (by decide) rs h⟩

end EC440.Tls
