/-
  The table as a finite map from threads to LSAs, over sequences of tls_create, tls_clone and
  tls_destroy.

  It is one as long as nothing is destroyed. Remove has a trailing pointer, but assigns
  `current->next` to the pointer itself instead of to `temp->next`: a tls_destroy that finds its
  item frees it and leaves it linked, and one that finds none in a bucket that is not empty
  dereferences NULL. The exact condition is that every tls_destroy comes on an empty bucket
  (`MapInv.actsAsMap_iff`).
-/
import EC440.Tls.Counts

namespace EC440.Tls

open EC440.Lib

variable {k : Kernel} {s s' : State} {t u : UInt64} {own : UInt64 → Bool}

/-- Who has an LSA after a call. -/
def ownersAfter (own : UInt64 → Bool) (c : UInt64 × Call) (r : Ret) : UInt64 → Bool :=
  if r.code = 0 then
    match c.2 with
    | .create _ => Function.update own c.1 true
    | .clone _ => Function.update own c.1 true
    | .destroy => Function.update own c.1 false
    | _ => own
  else own

/-- Find returns the item of each thread that has an LSA and NULL for the others, whose tls_read
    and tls_write fail and whose tls_create succeeds. -/
structure IsMap (k : Kernel) (own : UInt64 → Bool) (s : State) : Prop where
  item : ∀ t, own t = true → ∃ i it, s.find t = some (some i) ∧ s.Owns t i it
  null : ∀ t, own t = false → s.find t = some none
  read : ∀ t, own t = false → ∀ offset length, s.tlsRead t offset length = some ((-1, []), s)
  write : ∀ t, own t = false → ∀ offset length buffer,
    s.tlsWrite k t offset length buffer = some (-1, s)
  create : k.Maps → ∀ t, own t = false → ∀ size : UInt32, size.toNat ≠ 0 →
    ∃ s', s.tlsCreate k t size = some (0, s')

/-- The return values of the calls on the map. -/
def Answers (k : Kernel) (own : UInt64 → Bool) : UInt64 × Call → Int → Prop
  | (t, .create size), r =>
      (r = 0 → size.toNat ≠ 0 ∧ own t = false) ∧ (r = 0 ∨ r = -1) ∧
        (k.Maps → size.toNat ≠ 0 → own t = false → r = 0)
  | (t, .destroy), r => r = if own t then 0 else -1
  | (t, .clone u), r => r = if own t = false ∧ own u = true then 0 else -1
  | _, _ => True

/-- A call by `t` leaves every other thread's item findable and as it was. -/
def KeepsItems (t : UInt64) (s s' : State) : Prop :=
  ∀ u i it, u ≠ t → s.find u = some (some i) → s.Owns u i it → s'.find u = some (some i) ∧ s'.Owns u i it

/-- The calls, one after the other, are those of a finite map. -/
def ActsAsMap (k : Kernel) : (UInt64 → Bool) → State → List (UInt64 × Call) → Prop
  | own, s, [] => IsMap k own s
  | own, s, c :: calls => IsMap k own s ∧ ∃ r s', s.step k c = some (r, s') ∧ Answers k own c r.code ∧
      KeepsItems c.1 s s' ∧ ActsAsMap k (ownersAfter own c r) s' calls

/-- Every tls_destroy comes on an empty bucket. -/
def destroysOnEmpty (k : Kernel) : State → List (UInt64 × Call) → Bool
  | _, [] => true
  | s, c :: calls => (!c.2.isDestroy || (s.table (hashFunction c.1)).isEmpty) &&
      (s.step k c).all fun p => destroysOnEmpty k p.2 calls

theorem destroysOnEmpty_cons {c : UInt64 × Call} {calls : List (UInt64 × Call)} :
    destroysOnEmpty k s (c :: calls) = true ↔
      (c.2.isDestroy = true → s.table (hashFunction c.1) = []) ∧
        ∀ r s', s.step k c = some (r, s') → destroysOnEmpty k s' calls = true := by
  rw [destroysOnEmpty, Bool.and_eq_true]
  refine and_congr ?_ ?_
  · cases c.2.isDestroy <;> simp
  · cases s.step k c with
    | none => simp
    | some p =>
      simp only [Option.all_some, Option.some.injEq]
      exact ⟨fun h r s' hp => by rw [hp] at h; exact h, fun h => h p.1 p.2 rfl⟩

/-- tls_create, tls_clone and tls_destroy. -/
def Call.IsLifetime : Call → Prop
  | .create _ => True
  | .clone _ => True
  | .destroy => True
  | _ => False

/-- What holds while no LSA is destroyed. -/
structure MapInv (k : Kernel) (own : UInt64 → Bool) (s : State) : Prop extends Inv k s where
  live : Live s
  owner_iff : ∀ t, own t = true ↔ ∃ i it, s.Owns t i it

theorem MapInv.find_null (h : MapInv k own s) (ht : own t = false) : s.find t = some none := by
  refine State.find_null (h.live.clear t) fun i it hi => ?_
  rw [(h.owner_iff t).mpr ⟨i, it, hi⟩] at ht
  cases ht

theorem MapInv.find_item (h : MapInv k own s) (ht : own t = true) :
    ∃ i it, s.find t = some (some i) ∧ s.Owns t i it := by
  obtain ⟨i, it, hi⟩ := (h.owner_iff t).mp ht
  exact ⟨i, it, h.toTableOk.find_owns (h.live.clear t) hi, hi⟩

theorem MapInv.isMap (h : MapInv k own s) : IsMap k own s where
  item := fun _ ht => h.find_item ht
  null := fun _ ht => h.find_null ht
  read := fun _ ht _ _ => tlsRead_null (h.find_null ht)
  write := fun _ ht _ _ buffer => tlsWrite_null (h.find_null ht) buffer
  create := by
    intro hk t ht size hsize
    rcases tlsCreate_spec h.toInv (h.find_null ht) hsize with ⟨s', hc, -⟩ | ⟨hno, -⟩
    · exact ⟨s', hc⟩
    · exact absurd hk hno

theorem Kept.mapInv (h : Kept k s s') (hs : MapInv k own s) : MapInv k own s' := by
  refine ⟨h.inv, h.live hs.live, ?_⟩
  unfold State.Owns
  rw [h.items]
  exact hs.owner_iff

theorem Kept.keepsItems (h : Kept k s s') (hs : MapInv k own s) (t : UInt64) : KeepsItems t s s' := by
  intro u i it _ _ hi
  have hi' : s'.Owns u i it := ⟨h.items ▸ hi.1, hi.2⟩
  exact ⟨h.inv.toTableOk.find_owns ((h.live hs.live).clear u) hi', hi'⟩

theorem Added.mapInv {size : UInt32} {bytes : List UInt8} (h : Added k s t size bytes s')
    (hs : MapInv k own s) : MapInv k (Function.update own t true) s' := by
  refine ⟨h.inv, h.live hs.live, fun u => ?_⟩
  by_cases hu : u = t
  · obtain ⟨it, hitems, ht, -⟩ := h.item
    rw [hu, Function.update_self]
    exact iff_of_true rfl ⟨s.nextItem, it, by rw [hitems, Function.update_self], ht⟩
  · rw [Function.update_of_ne hu, hs.owner_iff]
    simp only [h.owns hs.toTableOk hu]

theorem Added.keepsItems {size : UInt32} {bytes : List UInt8} (h : Added k s t size bytes s')
    (hs : MapInv k own s) : KeepsItems t s s' := by
  intro u i it hu _ hi
  have hi' := (h.owns hs.toTableOk hu).mpr hi
  exact ⟨h.inv.toTableOk.find_owns ((h.live hs.live).clear u) hi', hi'⟩

/-- A call that destroys nothing is a call on the map. -/
theorem MapInv.step (hs : MapInv k own s) {c : UInt64 × Call} (hc : c.2.IsLifetime)
    (hd : c.2.isDestroy = true → s.table (hashFunction c.1) = []) :
    ∃ r s', s.step k c = some (r, s') ∧ Answers k own c r.code ∧ KeepsItems c.1 s s' ∧
      MapInv k (ownersAfter own c r) s' := by
  obtain ⟨t, c⟩ := c
  have hself : Kept k s s := ⟨hs.toInv, rfl, rfl, fun _ _ _ => rfl⟩
  cases c with
  | create size =>
    have hinit := tlsInit_kept hs.toInv
    cases ht : own t with
    | true =>
      obtain ⟨i, it, hf, -⟩ := hs.find_item ht
      have hcall : s.tlsCreate k t size = some (-1, s.tlsInit k) := by
        by_cases hz : size.toNat = 0
        · exact tlsCreate_size hz
        · exact tlsCreate_owner hz hf
      refine ⟨{ code := -1 }, _, by rw [State.step, hcall]; rfl, ?_, hinit.keepsItems hs t, hinit.mapInv hs⟩
      exact ⟨by simp, .inr rfl, fun _ _ h => by rw [ht] at h; cases h⟩
    | false =>
      by_cases hz : size.toNat = 0
      · refine ⟨{ code := -1 }, _, by rw [State.step, tlsCreate_size hz]; rfl, ?_, hinit.keepsItems hs t,
          hinit.mapInv hs⟩
        exact ⟨by simp, .inr rfl, fun _ h => absurd hz h⟩
      · rcases tlsCreate_spec hs.toInv (hs.find_null ht) hz with ⟨s', h, ha⟩ | ⟨hno, s', h, hkept⟩
        · refine ⟨{ code := 0 }, s', by rw [State.step, h]; rfl, ?_, ha.keepsItems hs, ha.mapInv hs⟩
          exact ⟨fun _ => ⟨hz, ht⟩, .inl rfl, fun _ _ _ => rfl⟩
        · refine ⟨{ code := -1 }, s', by rw [State.step, h]; rfl, ?_, hkept.keepsItems hs t, hkept.mapInv hs⟩
          exact ⟨by simp, .inr rfl, fun hk => absurd hk hno⟩
  | destroy =>
    have hb := hd rfl
    have ht : own t = false := by
      cases ht : own t with
      | false => rfl
      | true =>
        obtain ⟨i, it, -, hi⟩ := hs.find_item ht
        have hin := hs.linked i it hi.1
        rw [hi.2, hb] at hin
        cases hin
    refine ⟨{ code := -1 }, s, by rw [State.step, tlsDestroy_nil hb]; rfl, ?_, hself.keepsItems hs t,
      hself.mapInv hs⟩
    simp [Answers, ht]
  | clone u =>
    cases ht : own t with
    | true =>
      obtain ⟨i, it, hf, -⟩ := hs.find_item ht
      obtain ⟨o, hfu⟩ := Option.ne_none_iff_exists'.mp (State.clear_iff.mp (hs.live.clear u))
      refine ⟨{ code := -1 }, s, by rw [State.step, tlsClone_owner hf hfu]; rfl, ?_, hself.keepsItems hs t,
        hself.mapInv hs⟩
      simp [Answers, ht]
    | false =>
      cases hu : own u with
      | false =>
        refine ⟨{ code := -1 }, s, by rw [State.step, tlsClone_null (hs.find_null ht) (hs.find_null hu)]; rfl, ?_,
          hself.keepsItems hs t, hself.mapInv hs⟩
        simp [Answers, hu]
      | true =>
        obtain ⟨i, it, hf, hi⟩ := hs.find_item hu
        obtain ⟨s', h, ha⟩ := tlsClone_spec hs.toInv (hs.find_null ht) hf hi
        refine ⟨{ code := 0 }, s', by rw [State.step, h]; rfl, ?_, ha.keepsItems hs, ha.mapInv hs⟩
        simp [Answers, ht, hu]
  | write offset length buffer => exact hc.elim
  | read offset length => exact hc.elim

theorem ActsAsMap.isMap {calls : List (UInt64 × Call)} (h : ActsAsMap k own s calls) : IsMap k own s := by
  cases calls with
  | nil => exact h
  | cons c calls => exact h.1

/-- A tls_destroy on a bucket that is not empty is not one on the map: it frees an item and leaves
    it linked, or it dereferences NULL. -/
theorem MapInv.destroy (hs : MapInv k own s) (hb : s.table (hashFunction t) ≠ []) {r : Ret}
    (h : s.step k (t, .destroy) = some (r, s')) :
    ¬ IsMap k (ownersAfter own (t, .destroy) r) s' := by
  intro hmap
  cases ht : own t with
  | false =>
    rw [State.step, tlsDestroy_undefined (hs.find_null ht) hb] at h
    cases h
  | true =>
    obtain ⟨e, it, hf, hi⟩ := hs.find_item ht
    obtain ⟨s₁, hcall, hd⟩ := tlsDestroy_spec hs.toInv hf hi
    rw [State.step, hcall, Option.map_some, Option.some.injEq, Prod.mk.injEq] at h
    rw [← h.1, ← h.2] at hmap
    have hnull := hmap.null t (by simp [ownersAfter])
    have hin : e ∈ s₁.table (hashFunction t) := by
      rw [hd.table, ← hi.2]
      exact hs.linked e it hi.1
    obtain ⟨jt, hj, -⟩ := State.walk_none hnull e hin
    rw [hd.items, Function.update_self] at hj
    cases hj

theorem MapInv.actsAsMap_iff (hs : MapInv k own s) {calls : List (UInt64 × Call)}
    (hc : ∀ c ∈ calls, c.2.IsLifetime) : ActsAsMap k own s calls ↔ destroysOnEmpty k s calls = true := by
  induction calls generalizing own s with
  | nil => exact iff_of_true hs.isMap rfl
  | cons c calls ih =>
    have hc' : ∀ d ∈ calls, d.2.IsLifetime := fun d hd => hc d (List.mem_cons_of_mem _ hd)
    rw [destroysOnEmpty_cons]
    constructor
    · intro ⟨_, r, s', hstep, _, _, hrest⟩
      have hd : c.2.isDestroy = true → s.table (hashFunction c.1) = [] := by
        intro hdes
        by_contra hb
        obtain ⟨t, c⟩ := c
        obtain rfl : c = .destroy := by
          cases c <;> first | rfl | cases hdes
        exact hs.destroy hb hstep hrest.isMap
      refine ⟨hd, fun r₁ s₁ h₁ => ?_⟩
      obtain ⟨r₂, s₂, h₂, -, -, hs₂⟩ := hs.step (hc c List.mem_cons_self) hd
      have e₁ := Option.some.inj (h₁.symm.trans hstep)
      have e₂ := Option.some.inj (h₂.symm.trans hstep)
      rw [Prod.mk.injEq] at e₁ e₂
      rw [e₂.1, e₂.2] at hs₂
      rw [e₁.2]
      exact (ih hs₂ hc').mp hrest
    · intro ⟨hd, hrest⟩
      obtain ⟨r, s', h, hans, hkeep, hs'⟩ := hs.step (hc c List.mem_cons_self) hd
      exact ⟨hs.isMap, r, s', h, hans, hkeep, (ih hs' hc').mpr (hrest r s' h)⟩

theorem init_mapInv (k : Kernel) : MapInv k (fun _ => false) {} :=
  ⟨init_inv k, init_live, fun t => iff_of_false (by simp) (by rintro ⟨i, it, ⟨⟩, -⟩)⟩

/-- The calls of a sequence act as those of a finite map exactly when every tls_destroy among them
    comes on an empty bucket. -/
theorem actsAsMap_iff_destroysOnEmpty (k : Kernel) (calls : List (UInt64 × Call))
    (hc : ∀ c ∈ calls, c.2.IsLifetime) :
    ActsAsMap k (fun _ => false) {} calls ↔ destroysOnEmpty k {} calls = true :=
  (init_mapInv k).actsAsMap_iff hc

/-- Two threads of one bucket, and a third that destroys nothing. -/
theorem actsAsMap_clone :
    ActsAsMap .upward (fun _ => false) {} [(2, .destroy), (1, .create 10), (24, .clone 1), (1, .create 20)] := by
  refine (actsAsMap_iff_destroysOnEmpty .upward _ ?_).mpr (by decide +kernel)
  simp [Call.IsLifetime]

/-- A thread creates an LSA and destroys it: its item stays in the bucket as freed memory. -/
theorem create_destroy_not_map :
    ¬ ∀ (k : Kernel) (calls : List (UInt64 × Call)), (∀ c ∈ calls, c.2.IsLifetime) →
      ActsAsMap k (fun _ => false) {} calls := by
  intro hall
  have hlife : ∀ c ∈ [((1, .create 1) : UInt64 × Call), (1, .destroy)], c.2.IsLifetime := by
    simp [Call.IsLifetime]
  have hmap := ((init_mapInv .upward).actsAsMap_iff hlife).mp (hall .upward _ hlife)
  exact absurd hmap (by decide +kernel)

end EC440.Tls
