/-
  Loops of C over fallible bodies. `none` is a body that is undefined or does not return.

  `intLoop` is `for (int count = 0, index = offset; index < limit; ++count, ++index)` with an
  unsigned 32-bit `limit`: the test compares `index` as an unsigned number, the body sees the
  signed one, and `++index` overflows at the largest int. A range that does not cross 2^31 is
  run through round by round (`forInt_eq_foldlM`), one that does is never left
  (`forInt_overflow`).
-/
import Mathlib.Algebra.Group.Int.Defs
import Mathlib.Algebra.Group.Nat.Defs
import Mathlib.Data.List.Basic
import Mathlib.Data.Option.Basic

namespace EC440.Lib

variable {σ α : Type*}

/-- Rule for a loop over a list: `I` speaks of the elements done so far. -/
theorem foldlM_run {f : σ → α → Option σ} {I : List α → σ → Prop} {l : List α} {s : σ}
    (h₀ : I [] s)
    (hstep : ∀ done a rest s, l = done ++ a :: rest → I done s → ∃ s', f s a = some s' ∧ I (done ++ [a]) s') :
    ∃ s', l.foldlM f s = some s' ∧ I l s' := by
  suffices h : ∀ (rest done : List α) (s : σ), l = done ++ rest → I done s →
      ∃ s', rest.foldlM f s = some s' ∧ I l s' from h l [] s rfl h₀
  intro rest
  induction rest with
  | nil =>
    intro done s hl hI
    refine ⟨s, rfl, ?_⟩
    rw [hl, List.append_nil]
    exact hI
  | cons a rest ih =>
    intro done s hl hI
    obtain ⟨t, ht, hI'⟩ := hstep done a rest s hl hI
    obtain ⟨s', hs', hI''⟩ := ih (done ++ [a]) t (by rw [hl]; simp) hI'
    refine ⟨s', ?_, hI''⟩
    rw [List.foldlM_cons, ht]
    exact hs'

/-- The same for a loop that has ended: the body need not return from every state. -/
theorem foldlM_invariant {f : σ → α → Option σ} {I : List α → σ → Prop} {l : List α} {s s' : σ}
    (h₀ : I [] s)
    (hstep : ∀ done a rest s s', l = done ++ a :: rest → I done s → f s a = some s' → I (done ++ [a]) s')
    (h : l.foldlM f s = some s') : I l s' := by
  suffices hrest : ∀ (rest done : List α) (s : σ), l = done ++ rest → I done s →
      rest.foldlM f s = some s' → I l s' from hrest l [] s rfl h₀ h
  intro rest
  induction rest with
  | nil =>
    intro done s hl hI h
    rw [List.foldlM_nil, Option.pure_def, Option.some.injEq] at h
    rw [hl, List.append_nil, ← h]
    exact hI
  | cons a rest ih =>
    intro done s hl hI h
    rw [List.foldlM_cons] at h
    obtain ⟨t, ht, h⟩ := Option.bind_eq_some_iff.mp h
    exact ih (done ++ [a]) t (by rw [hl]; simp) (hstep done a rest s t hl hI ht) h

/-- An `unsigned int` stored in an `int`. -/
def toInt (n : UInt32) : Int := if n.toNat < 2 ^ 31 then n.toNat else (n.toNat : Int) - 2 ^ 32

/-- The fuel bounds the number of tests; `forInt_eq_foldlM` and `forInt_overflow` show that
    `limit + 1` of it is enough. -/
def intLoop (body : σ → Nat → Int → Option σ) (limit : UInt32) : Nat → Nat → Int → σ → Option σ
  | 0, _, _, _ => none
  | fuel + 1, count, index, s =>
      if (index % 2 ^ 32).toNat < limit.toNat then
        (body s count index).bind fun s =>
          if index = 2 ^ 31 - 1 then none else intLoop body limit fuel (count + 1) (index + 1) s
      else some s

/-- The loop from `offset`. -/
def forInt (body : σ → Nat → Int → Option σ) (offset limit : UInt32) (s : σ) : Option σ :=
  intLoop body limit (limit.toNat + 1) 0 (toInt offset) s

theorem toInt_mod (n : UInt32) : (toInt n % 2 ^ 32).toNat = n.toNat := by
  have h := n.toNat_lt
  unfold toInt
  split <;> omega

theorem toInt_of_lt {n : UInt32} (h : n.toNat < 2 ^ 31) : toInt n = n.toNat := if_pos h

/-- A start that is not below the limit: the body never runs. -/
theorem forInt_empty {body : σ → Nat → Int → Option σ} {offset limit : UInt32} {s : σ}
    (h : limit.toNat ≤ offset.toNat) : forInt body offset limit s = some s := by
  unfold forInt intLoop
  rw [toInt_mod, if_neg (by omega)]

/-- A first round that does not return. -/
theorem forInt_first {body : σ → Nat → Int → Option σ} {offset limit : UInt32} {s : σ}
    (h : offset.toNat < limit.toNat) (hbody : body s 0 (toInt offset) = none) :
    forInt body offset limit s = none := by
  unfold forInt intLoop
  rw [toInt_mod, if_pos h, hbody]
  rfl

/-- What every round keeps holds after the loop. -/
theorem forInt_invariant {body : σ → Nat → Int → Option σ} {offset limit : UInt32} {s s' : σ}
    {I : σ → Prop} (h₀ : I s) (hstep : ∀ s count index s', I s → body s count index = some s' → I s')
    (h : forInt body offset limit s = some s') : I s' := by
  suffices hloop : ∀ (fuel count : Nat) (index : Int) (s : σ), I s →
      intLoop body limit fuel count index s = some s' → I s' from hloop _ 0 _ s h₀ h
  intro fuel
  induction fuel with
  | zero =>
    intro count index s _ h
    cases h
  | succ fuel ih =>
    intro count index s hI h
    rw [intLoop] at h
    split at h
    · obtain ⟨t, ht, h⟩ := Option.bind_eq_some_iff.mp h
      split at h
      · cases h
      · exact ih _ _ t (hstep s count index t hI ht) h
    · rw [Option.some.injEq] at h
      rw [← h]
      exact hI

/-- The rounds of a loop: `count` and `index`. -/
def intRounds (offset limit : UInt32) : List (Nat × Int) :=
  (List.range' 0 (limit.toNat - offset.toNat)).map fun c => (c, toInt offset + c)

/-- The range does not cross 2^31. -/
def OneSide (offset limit : UInt32) : Prop := limit.toNat < 2 ^ 31 ∨ 2 ^ 31 ≤ offset.toNat

theorem intRounds_getElem {offset limit : UInt32} {c : Nat} {r : Nat × Int}
    (h : (intRounds offset limit)[c]? = some r) :
    c < limit.toNat - offset.toNat ∧ r = (c, toInt offset + c) := by
  obtain ⟨hlt, hget⟩ := List.getElem?_eq_some_iff.mp h
  rw [intRounds, List.length_map, List.length_range'] at hlt
  refine ⟨hlt, ?_⟩
  rw [← hget]
  simp [intRounds]

theorem intLoop_eq_foldlM (body : σ → Nat → Int → Option σ) {offset limit : UInt32}
    (hside : OneSide offset limit) (n c fuel : Nat) (s : σ) (hlim : limit.toNat = offset.toNat + c + n)
    (hfuel : n < fuel) :
    intLoop body limit fuel c (toInt offset + c) s =
      ((List.range' c n).map fun c : Nat => (c, toInt offset + (c : Int))).foldlM
        (fun s r => body s r.1 r.2) s := by
  have hmod := toInt_mod offset
  have hlt := limit.toNat_lt
  unfold OneSide at hside
  induction n generalizing c fuel s with
  | zero =>
    obtain ⟨fuel, rfl⟩ : ∃ f, fuel = f + 1 := ⟨fuel - 1, by omega⟩
    rw [intLoop, if_neg (by unfold toInt at *; split at hmod <;> omega)]
    rfl
  | succ n ih =>
    obtain ⟨fuel, rfl⟩ : ∃ f, fuel = f + 1 := ⟨fuel - 1, by omega⟩
    rw [intLoop, if_pos (by unfold toInt at *; split at hmod <;> omega), List.range'_succ, List.map_cons,
      List.foldlM_cons]
    -- the sides agree round by round
    have hne : ¬ toInt offset + (c : Int) = 2 ^ 31 - 1 := by
      unfold toInt at *
      split at hmod <;> omega
    have hnext : toInt offset + (c : Int) + 1 = toInt offset + ((c + 1 : Nat) : Int) := by
      push_cast
      omega
    rw [hnext]
    simp only [if_neg hne]
    congr 1
    funext t
    exact ih (c + 1) fuel t (by omega) (by omega)

/-- The loop is the fold of its body over the rounds. -/
theorem forInt_eq_foldlM {offset limit : UInt32} (hside : OneSide offset limit ∨ limit.toNat ≤ offset.toNat)
    (body : σ → Nat → Int → Option σ) (s : σ) :
    forInt body offset limit s = (intRounds offset limit).foldlM (fun s r => body s r.1 r.2) s := by
  by_cases hle : limit.toNat ≤ offset.toNat
  · rw [forInt_empty hle, intRounds, Nat.sub_eq_zero_of_le hle]
    rfl
  · have h := intLoop_eq_foldlM body (hside.resolve_right hle) (limit.toNat - offset.toNat) 0
      (limit.toNat + 1) s (by omega) (by omega)
    rw [Int.ofNat_zero, Int.add_zero] at h
    exact h

/-- A range across 2^31: some round does not return, or `++index` overflows. -/
theorem forInt_overflow {offset limit : UInt32} (hlo : offset.toNat < 2 ^ 31) (hhi : 2 ^ 31 ≤ limit.toNat)
    (body : σ → Nat → Int → Option σ) (s : σ) : forInt body offset limit s = none := by
  suffices h : ∀ (fuel count : Nat) (index : Int) (s : σ), 0 ≤ index → index < 2 ^ 31 →
      intLoop body limit fuel count index s = none by
    unfold forInt
    rw [toInt_of_lt hlo]
    exact h _ 0 _ s (by omega) (by omega)
  intro fuel
  induction fuel with
  | zero => intros; rfl
  | succ fuel ih =>
    intro count index s h0 h1
    rw [intLoop, if_pos (by omega)]
    cases body s count index with
    | none => rfl
    | some t =>
      rw [Option.bind_some]
      split
      · rfl
      · exact ih _ _ t (by omega) (by omega)

section
variable {body : σ → Nat → Int → Option σ} {offset limit : UInt32} {n : Nat} {s s' : σ} {I : Nat → σ → Prop}

/-- Rule for the loop on one side of 2^31: `I` speaks of the number of rounds. -/
theorem forInt_run (hlim : limit.toNat = offset.toNat + n) (hside : OneSide offset limit) (h₀ : I 0 s)
    (hstep : ∀ c s, c < n → I c s → ∃ s', body s c (toInt offset + c) = some s' ∧ I (c + 1) s') :
    ∃ s', forInt body offset limit s = some s' ∧ I n s' := by
  have hlen : (intRounds offset limit).length = n := by
    rw [intRounds, List.length_map, List.length_range']
    omega
  rw [forInt_eq_foldlM (.inl hside), ← hlen]
  refine foldlM_run (I := fun done s => I done.length s) h₀ fun done r rest s hsplit hI => ?_
  obtain ⟨hlt, rfl⟩ := intRounds_getElem (c := done.length) (r := r) (by rw [hsplit]; simp)
  rw [List.length_append]
  exact hstep _ s (by omega) hI

/-- The same for a loop that has ended. -/
theorem forInt_ended (hlim : limit.toNat = offset.toNat + n) (hside : OneSide offset limit) (h₀ : I 0 s)
    (hstep : ∀ c s s', c < n → I c s → body s c (toInt offset + c) = some s' → I (c + 1) s')
    (h : forInt body offset limit s = some s') : I n s' := by
  have hlen : (intRounds offset limit).length = n := by
    rw [intRounds, List.length_map, List.length_range']
    omega
  rw [forInt_eq_foldlM (.inl hside)] at h
  rw [← hlen]
  refine foldlM_invariant (I := fun done s => I done.length s) h₀ (fun done r rest s s' hsplit hI hs => ?_) h
  obtain ⟨hlt, rfl⟩ := intRounds_getElem (c := done.length) (r := r) (by rw [hsplit]; simp)
  rw [List.length_append]
  exact hstep _ s s' (by omega) hI hs

end

end EC440.Lib
