/-
  What tls.c is for: every thread owns a private array of bytes. `Arrays` is that store, with
  nothing about pages, counters or buckets in it; `view` reads it off a state of tls.c.

  As long as no LSA is destroyed the calls of tls.c are the calls of the store: pages are shared
  between any number of threads and split in the middle of a write, and no thread can tell.
-/
import EC440.Tls.Counts

namespace EC440.Tls

open EC440.Lib

/-- The array of each thread that has one. -/
abbrev Arrays := UInt64 → Option (List UInt8)

/-- One call on the store. -/
def Arrays.step (st : Arrays) : UInt64 × Call → Ret × Arrays
  | (t, .create size) =>
      match st t with
      | none => if size.toNat = 0 then ({ code := -1 }, st)
          else ({ code := 0 }, Function.update st t (some (List.replicate size.toNat 0)))
      | some _ => ({ code := -1 }, st)
  | (t, .destroy) =>
      match st t with
      | none => ({ code := -1 }, st)
      | some _ => ({ code := 0 }, Function.update st t none)
  | (t, .write offset length buffer) =>
      match st t with
      | none => ({ code := -1 }, st)
      | some bytes => if bytes.length < offset.toNat + length.toNat then ({ code := -1 }, st)
          else ({ code := 0 },
            Function.update st t (some (written bytes offset.toNat length.toNat buffer)))
  | (t, .read offset length) =>
      match st t with
      | none => ({ code := -1 }, st)
      | some bytes => if bytes.length < offset.toNat + length.toNat then ({ code := -1 }, st)
          else ({ code := 0, bytes := (bytes.drop offset.toNat).take length.toNat }, st)
  | (t, .clone tid) =>
      match st t, st tid with
      | none, some bytes => ({ code := 0 }, Function.update st t (some bytes))
      | _, _ => ({ code := -1 }, st)

/-- A call touches no array but the caller's. -/
theorem Arrays.step_other (st : Arrays) (t : UInt64) (c : Call) {u : UInt64} (hu : u ≠ t) :
    (st.step (t, c)).2 u = st u := by
  cases c with
  | create size =>
    simp only [Arrays.step]
    split
    · split
      · rfl
      · exact Function.update_of_ne hu _ _
    · rfl
  | destroy =>
    simp only [Arrays.step]
    split
    · rfl
    · exact Function.update_of_ne hu _ _
  | write offset length buffer =>
    simp only [Arrays.step]
    split
    · rfl
    · split
      · rfl
      · exact Function.update_of_ne hu _ _
  | read offset length =>
    simp only [Arrays.step]
    split
    · rfl
    · split <;> rfl
  | clone tid =>
    simp only [Arrays.step]
    split
    · exact Function.update_of_ne hu _ _
    · rfl

/-- The bytes a thread would read. -/
def State.view (s : State) : Arrays := fun t =>
  (s.find t).join.bind fun i => (s.items i).map fun it => s.bytesOf it.tls

variable {k : Kernel} {s s' : State} {t u : UInt64} {e i : Nat} {it : Item} {size offset length : UInt32}
  {bytes : List UInt8}

/-- No LSA was destroyed, and every size fits an int. -/
structure Intact (k : Kernel) (s : State) : Prop extends Inv k s where
  live : Live s
  size : ∀ i it, s.items i = some it → it.tls.size.toNat < 2 ^ 31

theorem State.view_none (hf : s.find t = some none) : s.view t = none := by
  rw [State.view, hf]
  rfl

theorem Intact.view_eq_some (h : Intact k s) :
    s.view t = some bytes ↔ ∃ i it, s.Owns t i it ∧ s.bytesOf it.tls = bytes := by
  rcases State.find_cases (h.live.clear t) with hf | ⟨i, it, hf, hi⟩
  · rw [State.view_none hf]
    exact ⟨(absurd · (by simp)), fun ⟨i, it, hi, _⟩ => absurd hi (h.toTableOk.find_none hf)⟩
  · have hsome : s.view t = some (s.bytesOf it.tls) := by
      rw [State.view, hf]
      simp [hi.1]
    rw [hsome, Option.some.injEq]
    refine ⟨fun hb => ⟨i, it, hi, hb⟩, fun ⟨j, jt, hj, hb⟩ => ?_⟩
    rw [(h.toTableOk.unique hi hj).2]
    exact hb

theorem Intact.view_owns (h : Intact k s) (hi : s.Owns t i it) : s.view t = some (s.bytesOf it.tls) :=
  h.view_eq_some.mpr ⟨i, it, hi, rfl⟩

/-- The view after a call that gave `t` the array `bytes` and left the others' alone. -/
theorem Intact.view_update (h : Intact k s) (h' : Intact k s')
    (hself : ∃ i it, s'.Owns t i it ∧ s'.bytesOf it.tls = bytes)
    (hother : ∀ u, u ≠ t → ∀ i it, s'.Owns u i it ↔ s.Owns u i it)
    (hbytes : ∀ u, u ≠ t → ∀ i it, s.Owns u i it → s'.bytesOf it.tls = s.bytesOf it.tls) :
    s'.view = Function.update s.view t (some bytes) := by
  funext u
  by_cases hu : u = t
  · rw [hu, Function.update_self]
    exact h'.view_eq_some.mpr hself
  · rw [Function.update_of_ne hu]
    apply Option.ext
    intro b
    rw [h'.view_eq_some, h.view_eq_some]
    constructor
    · intro ⟨i, it, hi, hb⟩
      have hi' := (hother u hu i it).mp hi
      exact ⟨i, it, hi', by rw [← hbytes u hu i it hi', hb]⟩
    · intro ⟨i, it, hi, hb⟩
      exact ⟨i, it, (hother u hu i it).mpr hi, by rw [hbytes u hu i it hi, hb]⟩

theorem Kept.intact (h : Kept k s s') (hs : Intact k s) : Intact k s' := by
  refine ⟨h.inv, h.live hs.live, ?_⟩
  rw [h.items]
  exact hs.size

theorem Kept.view (h : Kept k s s') (hs : Intact k s) : s'.view = s.view := by
  funext u
  apply Option.ext
  intro b
  rw [(h.intact hs).view_eq_some, hs.view_eq_some]
  unfold State.Owns
  rw [h.items]
  constructor
  · intro ⟨i, it, hi, hb⟩
    exact ⟨i, it, hi, by rw [← h.bytes i it hi.1, hb]⟩
  · intro ⟨i, it, hi, hb⟩
    exact ⟨i, it, hi, by rw [h.bytes i it hi.1, hb]⟩

theorem Added.intact (h : Added k s t size bytes s') (hs : Intact k s) (hsize : size.toNat < 2 ^ 31) :
    Intact k s' := by
  obtain ⟨it, hitems, -, hsz, -⟩ := h.item
  refine ⟨h.inv, h.live hs.live, fun i jt hj => ?_⟩
  rw [hitems] at hj
  by_cases hin : i = s.nextItem
  · rw [hin, Function.update_self, Option.some.injEq] at hj
    rw [← hj, hsz]
    exact hsize
  · rw [Function.update_of_ne hin] at hj
    exact hs.size i jt hj

theorem Added.view (h : Added k s t size bytes s') (hs : Intact k s) (hsize : size.toNat < 2 ^ 31) :
    s'.view = Function.update s.view t (some bytes) := by
  obtain ⟨it, hitems, ht, -, hb⟩ := h.item
  refine hs.view_update (h.intact hs hsize) ⟨s.nextItem, it, ⟨?_, ht⟩, hb⟩
    (fun u hu i jt => h.owns hs.toTableOk hu) fun u _ i jt hj => h.others i jt hj.1
  rw [hitems, Function.update_self]

theorem Wrote.intact (h : Wrote k s t e it.tls.size bytes s') (hs : Intact k s) (hi : s.Owns t e it) :
    Intact k s' := by
  obtain ⟨it', hi', hsz, -⟩ := h.item
  refine ⟨h.inv, fun b i hb => ?_, fun i jt hj => ?_⟩
  · rw [h.table] at hb
    by_cases hie : i = e
    · rw [hie, hi'.1]
      simp
    · rw [h.items i hie]
      exact hs.live b i hb
  · by_cases hie : i = e
    · rw [hie, hi'.1, Option.some.injEq] at hj
      rw [← hj, hsz]
      exact hs.size e it hi.1
    · rw [h.items i hie] at hj
      exact hs.size i jt hj

theorem Wrote.view (h : Wrote k s t e it.tls.size bytes s') (hs : Intact k s) (hi : s.Owns t e it) :
    s'.view = Function.update s.view t (some bytes) := by
  obtain ⟨it', hi', -, hb⟩ := h.item
  have hne : ∀ u, u ≠ t → ∀ i jt, s.Owns u i jt → i ≠ e := by
    intro u hu i jt hj hie
    rw [hie] at hj
    have hjt := Option.some.inj (hi.1.symm.trans hj.1)
    exact hu (hj.2.symm.trans (hjt ▸ hi.2))
  refine hs.view_update (h.intact hs hi) ⟨e, it', hi', hb⟩ (fun u hu i jt => ?_) fun u hu i jt hj => ?_
  · constructor
    · intro hj
      have hie : i ≠ e := by
        intro hie
        rw [hie] at hj
        have hjt := Option.some.inj (hi'.1.symm.trans hj.1)
        exact hu (hj.2.symm.trans (hjt ▸ hi'.2))
      exact ⟨(h.items i hie).symm.trans hj.1, hj.2⟩
    · intro hj
      exact ⟨(h.items i (hne u hu i jt hj)).trans hj.1, hj.2⟩
  · have hie := hne u hu i jt hj
    exact h.others i jt hie ((h.items i hie).trans hj.1)

/-! ## The simulation -/

/-- The calls in question: no tls_destroy, sizes below 2^31, ranges that do not wrap around. -/
def Call.Cow : Call → Prop
  | .create size => size.toNat < 2 ^ 31
  | .destroy => False
  | .write offset length _ => offset.toNat + length.toNat ≤ 2 ^ 32 - 1
  | .read offset length => offset.toNat + length.toNat ≤ 2 ^ 32 - 1
  | .clone _ => True

instance : DecidablePred Call.Cow
  | .create size => inferInstanceAs (Decidable (size.toNat < 2 ^ 31))
  | .destroy => inferInstanceAs (Decidable False)
  | .write offset length _ => inferInstanceAs (Decidable (offset.toNat + length.toNat ≤ 2 ^ 32 - 1))
  | .read offset length => inferInstanceAs (Decidable (offset.toNat + length.toNat ≤ 2 ^ 32 - 1))
  | .clone _ => inferInstanceAs (Decidable True)

/-- The test of tls_read and tls_write, for a range that does not wrap around. -/
theorem range_test (h : offset.toNat + length.toNat ≤ 2 ^ 32 - 1) (tls : ThreadLocalStorage) :
    offset + length > tls.size ↔ (s.bytesOf tls).length < offset.toNat + length.toNat := by
  rw [bytesOf_length, gt_iff_lt, UInt32.lt_iff_toNat_lt, UInt32.toNat_add, Nat.mod_eq_of_lt (by omega)]

theorem Intact.inInt (h : Intact k s) (hi : s.Owns t e it) (offset length : UInt32) :
    InInt it.tls.size offset length := by
  intro hle
  have := h.size e it hi.1
  exact .inr (by omega)

theorem create_sim (hk : k.Maps) (hs : Intact k s) (t : UInt64) (hsize : size.toNat < 2 ^ 31) :
    ∃ r s', s.tlsCreate k t size = some (r, s') ∧ Intact k s' ∧
      Arrays.step s.view (t, .create size) = ({ code := r }, s'.view) := by
  have hinit := tlsInit_kept hs.toInv
  have hfail : (({ code := -1 }, s.view) : Ret × Arrays) = ({ code := -1 }, (s.tlsInit k).view) := by
    rw [hinit.view hs]
  rcases State.find_cases (hs.live.clear t) with hf | ⟨e, it, hf, hi⟩
  · by_cases hz : size.toNat = 0
    · refine ⟨-1, _, tlsCreate_size hz, hinit.intact hs, ?_⟩
      simp only [Arrays.step, State.view_none hf, hz]
      exact hfail
    · rcases tlsCreate_spec hs.toInv hf hz with ⟨s', h, ha⟩ | ⟨hno, -⟩
      · refine ⟨0, s', h, ha.intact hs hsize, ?_⟩
        simp only [Arrays.step, State.view_none hf]
        rw [if_neg hz, ha.view hs hsize]
      · exact absurd hk hno
  · have hstep : Arrays.step s.view (t, .create size) = ({ code := -1 }, (s.tlsInit k).view) := by
      simp only [Arrays.step, hs.view_owns hi]
      exact hfail
    by_cases hz : size.toNat = 0
    · exact ⟨-1, _, tlsCreate_size hz, hinit.intact hs, hstep⟩
    · exact ⟨-1, _, tlsCreate_owner hz hf, hinit.intact hs, hstep⟩

theorem write_sim (hk : k.Maps) (hs : Intact k s) (t : UInt64)
    (hsum : offset.toNat + length.toNat ≤ 2 ^ 32 - 1) (buffer : Nat → UInt8) :
    ∃ r s', s.tlsWrite k t offset length buffer = some (r, s') ∧ Intact k s' ∧
      Arrays.step s.view (t, .write offset length buffer) = ({ code := r }, s'.view) := by
  rcases State.find_cases (hs.live.clear t) with hf | ⟨e, it, hf, hi⟩
  · refine ⟨-1, s, tlsWrite_null hf buffer, hs, ?_⟩
    simp only [Arrays.step, State.view_none hf]
  · simp only [Arrays.step, hs.view_owns hi]
    by_cases hgt : offset + length > it.tls.size
    · refine ⟨-1, s, tlsWrite_range hf hi hgt buffer, hs, ?_⟩
      rw [if_pos ((range_test hsum it.tls).mp hgt)]
    · obtain ⟨s', h, hw⟩ := tlsWrite_spec hk hs.toInv hf hi hgt ((hs.inInt hi offset length).served hgt k) buffer
      rw [rounds_eq (by omega)] at hw
      refine ⟨0, s', h, hw.intact hs hi, ?_⟩
      rw [if_neg (mt (range_test hsum it.tls).mpr hgt), hw.view hs hi]

theorem read_sim (hs : Intact k s) (t : UInt64) (hsum : offset.toNat + length.toNat ≤ 2 ^ 32 - 1) :
    ∃ r s', s.tlsRead t offset length = some (r, s') ∧ Intact k s' ∧
      Arrays.step s.view (t, .read offset length) = ({ code := r.1, bytes := r.2 }, s'.view) := by
  rcases State.find_cases (hs.live.clear t) with hf | ⟨e, it, hf, hi⟩
  · refine ⟨(-1, []), s, tlsRead_null hf, hs, ?_⟩
    simp only [Arrays.step, State.view_none hf]
  · simp only [Arrays.step, hs.view_owns hi]
    by_cases hgt : offset + length > it.tls.size
    · refine ⟨(-1, []), s, tlsRead_range hf hi hgt, hs, ?_⟩
      rw [if_pos ((range_test hsum it.tls).mp hgt)]
    · obtain ⟨s', h, hre⟩ := tlsRead_spec hs.toInv hf hi hgt ((hs.inInt hi offset length).served hgt k)
      have hkept := hre.kept hs.toInv
      refine ⟨_, s', h, hkept.intact hs, ?_⟩
      rw [if_neg (mt (range_test hsum it.tls).mpr hgt), hkept.view hs, rounds_eq (by omega)]

theorem clone_sim (hs : Intact k s) (t u : UInt64) :
    ∃ r s', s.tlsClone t u = some (r, s') ∧ Intact k s' ∧
      Arrays.step s.view (t, .clone u) = ({ code := r }, s'.view) := by
  rcases State.find_cases (hs.live.clear t) with hf | ⟨e, it, hf, hi⟩
  · rcases State.find_cases (hs.live.clear u) with hfu | ⟨e, it, hfu, hi⟩
    · refine ⟨-1, s, tlsClone_null hf hfu, hs, ?_⟩
      simp only [Arrays.step, State.view_none hf, State.view_none hfu]
    · obtain ⟨s', h, ha⟩ := tlsClone_spec hs.toInv hf hfu hi
      have hsize := hs.size e it hi.1
      refine ⟨0, s', h, ha.intact hs hsize, ?_⟩
      simp only [Arrays.step, State.view_none hf, hs.view_owns hi]
      rw [ha.view hs hsize]
  · obtain ⟨o, hfu⟩ := Option.ne_none_iff_exists'.mp (State.clear_iff.mp (hs.live.clear u))
    refine ⟨-1, s, tlsClone_owner hf hfu, hs, ?_⟩
    simp only [Arrays.step, hs.view_owns hi]

/-- A call of tls.c is the call of the store. -/
theorem step_sim (hk : k.Maps) (hs : Intact k s) (t : UInt64) {c : Call} (hc : c.Cow) :
    ∃ r s', s.step k (t, c) = some (r, s') ∧ Intact k s' ∧ Arrays.step s.view (t, c) = (r, s'.view) := by
  cases c with
  | create size =>
    obtain ⟨r, s', h, hs', hsim⟩ := create_sim hk hs t hc
    exact ⟨_, s', by rw [State.step, h]; rfl, hs', hsim⟩
  | destroy => exact hc.elim
  | write offset length buffer =>
    obtain ⟨r, s', h, hs', hsim⟩ := write_sim hk hs t hc buffer
    exact ⟨_, s', by rw [State.step, h]; rfl, hs', hsim⟩
  | read offset length =>
    obtain ⟨r, s', h, hs', hsim⟩ := read_sim hs t hc
    exact ⟨_, s', by rw [State.step, h]; rfl, hs', hsim⟩
  | clone tid =>
    obtain ⟨r, s', h, hs', hsim⟩ := clone_sim hs t tid
    exact ⟨_, s', by rw [State.step, h]; rfl, hs', hsim⟩

/-- The transitions of the store. -/
def Arrays.Step (st : Arrays) (e : (UInt64 × Call) × Ret) (st' : Arrays) : Prop := st.step e.1 = (e.2, st')

/-- Every run of tls.c is, call for call and answer for answer, a run of the store on the bytes
    the threads would read; every call returns, and changes no other thread's bytes. -/
theorem run_isolated (hk : k.Maps) {es : List ((UInt64 × Call) × Ret)}
    (hrun : Run (Guarded (State.step k) fun _ c => c.2.Cow) {} es s) :
    Run Arrays.Step (fun _ => none) es s.view ∧
    ∀ t c, c.Cow → ∃ r s', s.step k (t, c) = some (r, s') ∧ Arrays.Step s.view ((t, c), r) s'.view ∧
      ∀ u, u ≠ t → s'.view u = s.view u := by
  have hinit : Intact k {} := ⟨init_inv k, init_live, by rintro i it ⟨⟩⟩
  have hstep : ∀ s e s', Intact k s → Guarded (State.step k) (fun _ c => c.2.Cow) s e s' →
      Intact k s' ∧ Arrays.Step s.view e s'.view := by
    intro s e s' hs ⟨hc, hstep⟩
    obtain ⟨r, s₁, h, hs', hsim⟩ := step_sim hk hs e.1.1 hc
    rw [hstep, Option.some.injEq, Prod.mk.injEq] at h
    rw [Arrays.Step, h.1, h.2]
    exact ⟨hs', hsim⟩
  refine ⟨hrun.simulation State.view hinit (fun s e s' hs h => (hstep s e s' hs h).1)
    fun s e s' hs h => (hstep s e s' hs h).2, fun t c hc => ?_⟩
  have hs : Intact k s := hrun.invariant hinit fun s e s' hs h => (hstep s e s' hs h).1
  obtain ⟨r, s', h, -, hsim⟩ := step_sim hk hs t hc
  refine ⟨r, s', h, hsim, fun u hu => ?_⟩
  rw [← Arrays.step_other s.view t c hu, hsim]

/-- Two threads of one bucket share two pages; one of them writes across the pages. -/
theorem run_isolated_clone : ∃ es s, Run (Guarded (State.step .upward) fun _ c => c.2.Cow) {} es s ∧
    Run Arrays.Step (fun _ => none) es s.view ∧ (s.refs 0 = 1 ∧ s.refs 1 = 1) ∧
    (es.getLast?.map fun e => e.2.bytes) = some [0, 0] := by
  obtain ⟨es, s, hrun, hp⟩ := run_of_exec .upward (fun _ c => c.2.Cow)
    [(1, .create 5000), (24, .clone 1), (24, .write 4095 2 fun _ => 7), (1, .read 4095 2)]
    (fun es s => decide ((s.refs 0 = 1 ∧ s.refs 1 = 1) ∧ (es.getLast?.map fun e => e.2.bytes) = some [0, 0]))
    (by decide +kernel)
  obtain ⟨hrefs, hlast⟩ := of_decide_eq_true hp
  exact ⟨es, s, hrun, (run_isolated Kernel.upward_maps hrun).1, hrefs, hlast⟩

end EC440.Tls
