/-
  Reference counts over whole runs. Every counter is the number of slots of live LSAs that lead
  to its page, and tls_destroy unmaps a page only when no other LSA holds it.

  That the calls return at all depends on the table: Remove unlinks nothing, so an item freed by
  tls_destroy stays in its bucket, and the next walk that comes past reads freed memory. The runs
  below are those in which no walk does (`Safe`).
-/
import EC440.Lib.Run
import EC440.Tls.Access
import EC440.Tls.Lifetime

namespace EC440.Tls

open EC440.Lib

variable {k : Kernel} {s s' : State} {t : UInt64} {offset length : UInt32}

/-- `t` has an item in its bucket. -/
def State.HasItem (s : State) (t : UInt64) : Prop :=
  ∃ i ∈ s.table (hashFunction t), (s.items i).any (·.tid = t) = true

/-- No byte loop of `t` on this range leaves the ints. -/
def State.InInt (s : State) (t : UInt64) (offset length : UInt32) : Prop :=
  ∀ i ∈ s.table (hashFunction t),
    (s.items i).all (fun it => decide (it.tid = t → Tls.InInt it.tls.size offset length)) = true

/-- Every walk of the call meets a live item of its thread, or the end of the bucket, before a
    destroyed item; tls_destroy is called with an LSA or on an empty bucket. -/
def Safe (s : State) : UInt64 × Call → Prop
  | (t, .create size) => size.toNat = 0 ∨ s.Clear t
  | (t, .destroy) => s.table (hashFunction t) = [] ∨ (s.Clear t ∧ s.HasItem t)
  | (t, .write offset length _) => s.Clear t ∧ s.InInt t offset length
  | (t, .read offset length) => s.Clear t ∧ s.InInt t offset length
  | (t, .clone tid) => s.Clear t ∧ s.Clear tid

instance (s : State) : DecidablePred (Safe s)
  | (t, .create size) => inferInstanceAs (Decidable (size.toNat = 0 ∨ s.Clear t))
  | (t, .destroy) => inferInstanceAs (Decidable (_ = _ ∨ (s.Clear t ∧ ∃ i ∈ s.table _, _ = _)))
  | (t, .write _ _ _) => inferInstanceAs (Decidable (s.Clear t ∧ ∀ i ∈ s.table _, _ = _))
  | (t, .read _ _) => inferInstanceAs (Decidable (s.Clear t ∧ ∀ i ∈ s.table _, _ = _))
  | (t, .clone tid) => inferInstanceAs (Decidable (s.Clear t ∧ s.Clear tid))

theorem State.HasItem.owns (h : s.HasItem t) : ∃ i it, s.Owns t i it := by
  obtain ⟨i, -, hi⟩ := h
  cases hit : s.items i with
  | none =>
    rw [hit] at hi
    cases hi
  | some it =>
    rw [hit] at hi
    exact ⟨i, it, hit, by simpa using hi⟩

theorem State.InInt.item (h : s.InInt t offset length) (hs : TableOk s) {i : Nat} {it : Item}
    (hi : s.Owns t i it) : Tls.InInt it.tls.size offset length := by
  have hin := h i (hi.2 ▸ hs.linked i it hi.1)
  rw [hi.1] at hin
  simp only [Option.all_some, decide_eq_true_eq] at hin
  exact hin hi.2

/-- Counters that are right: each is the number of (live LSA, slot) pairs of its page. -/
structure RefCounts (s : State) : Prop where
  count : ∀ p pg, s.pages p = some pg → pg.refCount = s.refs p ∧ 1 ≤ s.refs p
  mapped : ∀ p pg, s.pages p = some pg → pg.address ∈ s.mem.mapped
  nodup : ∀ i it, s.items i = some it → it.tls.pages.Nodup

/-- A tls_destroy by `t` that touches no other thread's storage. -/
structure SparesOthers (s : State) (t : UInt64) (s' : State) : Prop where
  unmapped : ∀ a ∈ s.mem.mapped, a ∉ s'.mem.mapped → ∃ p pg, s.pages p = some pg ∧ pg.address = a ∧
    ∀ i it, s.items i = some it → it.tid ≠ t → p ∉ it.tls.pages
  bytes : ∀ i it, s.items i = some it → it.tid ≠ t →
    s'.items i = some it ∧ s'.bytesOf it.tls = s.bytesOf it.tls

theorem Inv.refCounts (hs : Inv k s) (hleak : NoLeak s) : RefCounts s :=
  ⟨fun p pg hp => ⟨hs.refCount p pg hp (hleak p pg hp), hleak p pg hp⟩, hs.pages.mapped, hs.nodup⟩

theorem Destroyed.spares {e : Nat} {it : Item} (h : Destroyed k s e s') (hi : s.Owns t e it) :
    SparesOthers s t s' := by
  have hne : ∀ i jt, s.items i = some jt → jt.tid ≠ t → i ≠ e := by
    intro i jt hj ht hie
    rw [hie, hi.1, Option.some.injEq] at hj
    exact ht (hj ▸ hi.2)
  refine ⟨fun a ha hna => ?_, fun i jt hj ht => ⟨?_, h.others i jt (hne i jt hj ht) hj⟩⟩
  · obtain ⟨p, pg, hp, hadr, hno⟩ := h.unmapped a ha hna
    exact ⟨p, pg, hp, hadr, fun i jt hj ht => hno i jt (hne i jt hj ht) hj⟩
  · rw [h.items, Function.update_of_ne (hne i jt hj ht)]
    exact hj

theorem SparesOthers.refl (s : State) (t : UInt64) : SparesOthers s t s :=
  ⟨fun _ ha hna => absurd ha hna, fun _ _ hj _ => ⟨hj, rfl⟩⟩

theorem tlsInit_noLeak (hleak : NoLeak s) (k : Kernel) : NoLeak (s.tlsInit k) := by
  unfold State.tlsInit
  split <;> exact hleak

theorem tlsDestroy_safe (hs : Inv k s) (hleak : NoLeak s) (hc : Safe s (t, .destroy)) :
    ∃ r s', s.tlsDestroy t = some (r, s') ∧ Inv k s' ∧ NoLeak s' ∧ SparesOthers s t s' := by
  rcases hc with hnil | ⟨hclear, hitem⟩
  · exact ⟨-1, s, tlsDestroy_nil hnil, hs, hleak, .refl s t⟩
  · obtain ⟨i, it, hown⟩ := hitem.owns
    obtain ⟨s', h, hd⟩ := tlsDestroy_spec hs (hs.toTableOk.find_owns hclear hown) hown
    exact ⟨0, s', h, hd.inv, hd.noLeak hleak, hd.spares hown⟩

theorem tlsWrite_safe (hk : k.Maps) (hs : Inv k s) (hleak : NoLeak s) (hclear : s.Clear t)
    (hint : s.InInt t offset length) (buffer : Nat → UInt8) :
    ∃ r s', s.tlsWrite k t offset length buffer = some (r, s') ∧ Inv k s' ∧ NoLeak s' := by
  rcases State.find_cases hclear with hf | ⟨e, it, hf, hi⟩
  · exact ⟨-1, s, tlsWrite_null hf buffer, hs, hleak⟩
  · by_cases hgt : offset + length > it.tls.size
    · exact ⟨-1, s, tlsWrite_range hf hi hgt buffer, hs, hleak⟩
    · obtain ⟨s', h, hw⟩ := tlsWrite_spec hk hs hf hi hgt ((hint.item hs.toTableOk hi).served hgt k) buffer
      exact ⟨0, s', h, hw.inv, hw.noLeak hleak⟩

theorem tlsRead_safe (hs : Inv k s) (hleak : NoLeak s) (hclear : s.Clear t)
    (hint : s.InInt t offset length) :
    ∃ r s', s.tlsRead t offset length = some (r, s') ∧ Inv k s' ∧ NoLeak s' := by
  rcases State.find_cases hclear with hf | ⟨e, it, hf, hi⟩
  · exact ⟨(-1, []), s, tlsRead_null hf, hs, hleak⟩
  · by_cases hgt : offset + length > it.tls.size
    · exact ⟨(-1, []), s, tlsRead_range hf hi hgt, hs, hleak⟩
    · obtain ⟨s', h, hre⟩ := tlsRead_spec hs hf hi hgt ((hint.item hs.toTableOk hi).served hgt k)
      exact ⟨_, s', h, hre.inv hs, hre.noLeak hleak⟩

theorem tlsCreate_safe {size : UInt32} (hk : k.Maps) (hs : Inv k s) (hleak : NoLeak s)
    (hc : size.toNat = 0 ∨ s.Clear t) :
    ∃ r s', s.tlsCreate k t size = some (r, s') ∧ Inv k s' ∧ NoLeak s' := by
  have hinit := (tlsInit_kept hs).inv
  by_cases hsize : size.toNat = 0
  · exact ⟨-1, _, tlsCreate_size hsize, hinit, tlsInit_noLeak hleak k⟩
  · rcases State.find_cases (hc.resolve_left hsize) with hf | ⟨e, it, hf, -⟩
    · rcases tlsCreate_spec hs hf hsize with ⟨s', h, ha⟩ | ⟨hno, -⟩
      · exact ⟨0, s', h, ha.inv, ha.noLeak hleak⟩
      · exact absurd hk hno
    · exact ⟨-1, _, tlsCreate_owner hsize hf, hinit, tlsInit_noLeak hleak k⟩

theorem tlsClone_safe {u : UInt64} (hs : Inv k s) (hleak : NoLeak s) (ht : s.Clear t) (hu : s.Clear u) :
    ∃ r s', s.tlsClone t u = some (r, s') ∧ Inv k s' ∧ NoLeak s' := by
  rcases State.find_cases ht with hf | ⟨e, it, hf, -⟩
  · rcases State.find_cases hu with hfu | ⟨e, it, hfu, hi⟩
    · exact ⟨-1, s, tlsClone_null hf hfu, hs, hleak⟩
    · obtain ⟨s', h, ha⟩ := tlsClone_spec hs hf hfu hi
      exact ⟨0, s', h, ha.inv, ha.noLeak hleak⟩
  · obtain ⟨o, hfu⟩ := Option.ne_none_iff_exists'.mp (State.clear_iff.mp hu)
    exact ⟨-1, s, tlsClone_owner hf hfu, hs, hleak⟩

/-- The call behind a step. -/
theorem returned_of_map {α β : Type} {o : Option (α × State)} {f : α × State → β × State} {r : β}
    (h : o.map f = some (r, s')) (hf : ∀ p, (f p).2 = p.2) : ∃ r₁, o = some (r₁, s') := by
  obtain ⟨p, hp, heq⟩ := Option.map_eq_some_iff.mp h
  have hsnd : s' = p.2 := by rw [← hf p, heq]
  exact ⟨p.1, by rw [hp, hsnd]⟩

/-- One safe call. -/
theorem step_safe (hk : k.Maps) (hs : Inv k s) (hleak : NoLeak s) {c : UInt64 × Call} (hc : Safe s c) :
    ∃ r s', s.step k c = some (r, s') ∧ Inv k s' ∧ NoLeak s' ∧
      (c.2 = .destroy → SparesOthers s c.1 s') := by
  obtain ⟨t, c⟩ := c
  cases c with
  | create size =>
    obtain ⟨r, s', h, hs', hl'⟩ := tlsCreate_safe hk hs hleak hc
    exact ⟨{ code := r }, s', by rw [State.step, h]; rfl, hs', hl', fun h => by cases h⟩
  | destroy =>
    obtain ⟨r, s', h, hs', hl', hsp⟩ := tlsDestroy_safe hs hleak hc
    exact ⟨{ code := r }, s', by rw [State.step, h]; rfl, hs', hl', fun _ => hsp⟩
  | write offset length buffer =>
    obtain ⟨r, s', h, hs', hl'⟩ := tlsWrite_safe hk hs hleak hc.1 hc.2 buffer
    exact ⟨{ code := r }, s', by rw [State.step, h]; rfl, hs', hl', fun h => by cases h⟩
  | read offset length =>
    obtain ⟨r, s', h, hs', hl'⟩ := tlsRead_safe hs hleak hc.1 hc.2
    exact ⟨{ code := r.1, bytes := r.2 }, s', by rw [State.step, h]; rfl, hs', hl', fun h => by cases h⟩
  | clone tid =>
    obtain ⟨r, s', h, hs', hl'⟩ := tlsClone_safe hs hleak hc.1 hc.2
    exact ⟨{ code := r }, s', by rw [State.step, h]; rfl, hs', hl', fun h => by cases h⟩

theorem init_inv (k : Kernel) : Inv k {} where
  items_lt := by rintro i it ⟨⟩
  linked := by rintro i it ⟨⟩
  owner := by rintro i j it jt ⟨⟩
  pages := ⟨by rintro p pg ⟨⟩, by rintro p pg ⟨⟩, by rintro p pg ⟨⟩, by rintro p q pg qg ⟨⟩⟩
  init := by rintro i it ⟨⟩
  pageSize := by rintro ⟨⟩
  pageNum := by rintro i it ⟨⟩
  nodup := by rintro i it ⟨⟩
  alloc := by rintro i it ⟨⟩
  refCount := by rintro p pg ⟨⟩

theorem init_live : Live {} := by rintro b i ⟨⟩

/-- In every run of safe calls the counters are right in every state reached, the next safe call
    returns and leaves them right, and a tls_destroy spares the other threads. -/
theorem run_refCounts (hk : k.Maps) {es : List ((UInt64 × Call) × Ret)}
    (hrun : Run (Guarded (State.step k) Safe) {} es s) :
    RefCounts s ∧ ∀ c, Safe s c → ∃ r s', s.step k c = some (r, s') ∧ RefCounts s' ∧
      (c.2 = .destroy → SparesOthers s c.1 s') := by
  have hinv : Inv k s ∧ NoLeak s := by
    refine hrun.invariant (I := fun s => Inv k s ∧ NoLeak s) ⟨init_inv k, by rintro p pg ⟨⟩⟩ ?_
    intro s e s' ⟨hs, hleak⟩ ⟨hc, hstep⟩
    obtain ⟨r, s₁, h, hs', hl', -⟩ := step_safe hk hs hleak hc
    rw [hstep, Option.some.injEq, Prod.mk.injEq] at h
    rw [h.2]
    exact ⟨hs', hl'⟩
  refine ⟨hinv.1.refCounts hinv.2, fun c hc => ?_⟩
  obtain ⟨r, s', h, hs', hl', hsp⟩ := step_safe hk hinv.1 hinv.2 hc
  exact ⟨r, s', h, hs'.refCounts hl', hsp⟩

/-- A run on given calls. -/
theorem run_of_exec (k : Kernel) (G : State → UInt64 × Call → Prop) [∀ s, DecidablePred (G s)]
    (calls : List (UInt64 × Call)) (p : List ((UInt64 × Call) × Ret) → State → Bool)
    (h : ((exec (State.step k) (fun s c => decide (G s c)) {} calls).map fun q => p q.1 q.2) = some true) :
    ∃ es s, Run (Guarded (State.step k) G) {} es s ∧ p es s = true := by
  obtain ⟨⟨es, s⟩, he, hp⟩ := Option.map_eq_some_iff.mp h
  exact ⟨[] ++ es, s, exec_run (fun s c _ h => of_decide_eq_true h) .start he, hp⟩

/-- Two pages are shared by three threads, copied by one of them, and given up by it. -/
theorem run_refCounts_clone : ∃ es s, Run (Guarded (State.step .upward) Safe) {} es s ∧ RefCounts s ∧
    s.refs 0 = 2 ∧ s.pages 2 = none := by
  obtain ⟨es, s, hrun, hp⟩ := run_of_exec .upward Safe
    [(1, .create 5000), (2, .clone 1), (3, .clone 2), (2, .write 4095 2 fun _ => 7), (2, .destroy)]
    (fun _ s => decide (s.refs 0 = 2 ∧ s.pages 2 = none)) (by decide +kernel)
  obtain ⟨h0, h2⟩ := of_decide_eq_true hp
  exact ⟨es, s, hrun, (run_refCounts Kernel.upward_maps hrun).1, h0, h2⟩

/-! ## Calls that meet a destroyed item -/

def Call.isDestroy : Call → Bool
  | .destroy => true
  | _ => false

def Call.clones (u : UInt64) : Call → Bool
  | .clone tid => tid = u
  | _ => false

/-- No call after a thread's own tls_destroy, and no clone of a destroyed thread. -/
def WellBehaved (calls : List (UInt64 × Call)) : Prop :=
  calls.Pairwise fun a b => a.2.isDestroy = true → b.1 ≠ a.1 ∧ b.2.clones a.1 = false

instance (calls : List (UInt64 × Call)) : Decidable (WellBehaved calls) :=
  inferInstanceAs (Decidable (calls.Pairwise _))

/-- Threads 1 and 24 share a bucket. After 24 has destroyed its LSA, the item in front of 1's is
    freed memory, and Find(1) reads it. -/
theorem destroy_breaks_neighbour :
    ¬ ∀ (k : Kernel), k.Maps → ∀ calls, WellBehaved calls →
      ∃ es s, exec (State.step k) (fun _ _ => true) {} calls = some (es, s) ∧ RefCounts s := by
  intro hall
  obtain ⟨es, s, he, -⟩ := hall .upward Kernel.upward_maps
    [(1, .create 1), (24, .create 1), (24, .destroy), (1, .read 0 1)] (by decide)
  have hnone : (exec (State.step .upward) (fun _ _ => true) {}
      [(1, .create 1), (24, .create 1), (24, .destroy), (1, .read 0 1)]).isNone = true := by decide +kernel
  rw [he] at hnone
  cases hnone

end EC440.Tls
