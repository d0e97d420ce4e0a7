/-
  tls_create, tls_clone and tls_destroy, one lemma for each outcome, on states that satisfy `Inv`
  and under the answer of Find: the call returns, and what it leaves behind.
-/
import EC440.Tls.Copy

namespace EC440.Tls

open EC440.Lib

variable {k : Kernel} {s s' : State} {t u : UInt64} {e i : Nat} {it : Item} {size : UInt32}

/-! ## tls_create and tls_clone -/

/-- A call that has changed neither the table nor any LSA. -/
structure Kept (k : Kernel) (s s' : State) : Prop where
  inv : Inv k s'
  table : s'.table = s.table
  items : s'.items = s.items
  bytes : ∀ i it, s.items i = some it → s'.bytesOf it.tls = s.bytesOf it.tls

theorem Reprotected.kept (h : Reprotected s s') (hs : Inv k s) : Kept k s s' :=
  ⟨h.inv hs, h.same.table, h.same.items, fun _ _ _ => by rw [h.bytesOf]⟩

/-- A call that has put an LSA of thread `t` with these bytes at the front of its bucket. -/
structure Added (k : Kernel) (s : State) (t : UInt64) (size : UInt32) (bytes : List UInt8) (s' : State) :
    Prop where
  inv : Inv k s'
  noLeak : NoLeak s → NoLeak s'
  item : ∃ it, s'.items = Function.update s.items s.nextItem (some it) ∧ it.tid = t ∧ it.tls.size = size ∧
    s'.bytesOf it.tls = bytes
  table : s'.table = Function.update s.table (hashFunction t) (s.nextItem :: s.table (hashFunction t))
  others : ∀ i it, s.items i = some it → s'.bytesOf it.tls = s.bytesOf it.tls

theorem Kept.live (h : Kept k s s') (hs : Live s) : Live s' := by
  unfold Live
  rw [h.table, h.items]
  exact hs

theorem Added.live {bytes : List UInt8} (h : Added k s t size bytes s') (hs : Live s) : Live s' := by
  obtain ⟨it, hitems, -⟩ := h.item
  exact hs.insert hitems h.table

/-- The items of the other threads stay. -/
theorem Added.owns {bytes : List UInt8} (h : Added k s t size bytes s') (hs : TableOk s) (hu : u ≠ t) :
    s'.Owns u i it ↔ s.Owns u i it := by
  obtain ⟨nt, hitems, ht, -⟩ := h.item
  unfold State.Owns
  rw [hitems]
  by_cases hin : i = s.nextItem
  · rw [hin, Function.update_self]
    constructor
    · intro ⟨hj, hu'⟩
      rw [Option.some.injEq] at hj
      exact absurd (hu'.symm.trans (hj ▸ ht)) hu
    · intro ⟨hj, _⟩
      exact absurd (hs.items_lt _ it hj) (lt_irrefl _)
  · rw [Function.update_of_ne hin]

theorem tlsInit_kept (hs : Inv k s) : Kept k s (s.tlsInit k) := by
  cases hf : s.isFirstCall with
  | false =>
    have h : s.tlsInit k = s := by
      rw [State.tlsInit, hf]
      rfl
    rw [h]
    exact ⟨hs, rfl, rfl, fun _ _ _ => rfl⟩
  | true =>
    have hno : ∀ i it, s.items i ≠ some it := fun i it hi => by
      have := hs.init i it hi
      rw [hf] at this
      cases this
    have h : s.tlsInit k = { s with pageSize := k.getpagesize, isFirstCall := false } := by
      rw [State.tlsInit, hf]
      rfl
    rw [h]
    refine ⟨⟨⟨hs.items_lt, hs.linked, hs.owner⟩, ?_, fun _ _ _ => rfl, fun _ => rfl, hs.pageNum, hs.nodup,
      hs.alloc, hs.refCount⟩, rfl, rfl, fun i it hi => absurd hi (hno i it)⟩
    exact ⟨hs.pages.lt, hs.pages.mapped, hs.pages.aligned, hs.pages.distinct⟩

theorem tlsInit_find (s : State) (k : Kernel) (t : UInt64) : (s.tlsInit k).find t = s.find t := by
  have hw : ∀ l, (s.tlsInit k).walk t l = s.walk t l := by
    intro l
    induction l with
    | nil => rfl
    | cons j l ih =>
      simp only [State.walk, ih]
      rw [show (s.tlsInit k).items = s.items by unfold State.tlsInit; split <;> rfl]
  rw [State.find, State.find, hw, show (s.tlsInit k).table = s.table by unfold State.tlsInit; split <;> rfl]

theorem tlsCreate_size (h : size.toNat = 0) : s.tlsCreate k t size = some (-1, s.tlsInit k) := by
  rw [State.tlsCreate]
  simp only [h]
  rfl

theorem tlsCreate_owner (hsize : size.toNat ≠ 0) (h : s.find t = some (some e)) :
    s.tlsCreate k t size = some (-1, s.tlsInit k) := by
  rw [State.tlsCreate]
  simp only [tlsInit_find, h]
  rw [if_neg (by omega)]

/-- The bytes of a new LSA. -/
theorem bytesOf_zero {tls : ThreadLocalStorage} (hps : s.pageSize = k.getpagesize)
    (hlen : tls.pages.length = State.pageNum tls.size k.getpagesize)
    (hzero : ∀ p ∈ tls.pages, ∀ off < k.getpagesize, s.content p off = 0) :
    s.bytesOf tls = List.replicate tls.size.toNat 0 := by
  apply List.ext_getElem
  · rw [bytesOf_length, List.length_replicate]
  intro j hj _
  rw [bytesOf_length] at hj
  have hlt : j / k.getpagesize < tls.pages.length := hlen ▸ pageNum_spec (getpagesize_pos k) hj
  simp only [State.bytesOf, List.getElem_map, List.getElem_range, List.getElem_replicate]
  rw [State.byteAt, hps, List.getElem?_eq_getElem hlt]
  exact hzero _ (List.getElem_mem hlt) _ (Nat.mod_lt _ (getpagesize_pos k))

theorem tlsCreate_unmapped (h : s.find t = some none) (hsize : size.toNat ≠ 0)
    (hcr : (s.tlsInit k).createPages k (State.pageNum size (s.tlsInit k).pageSize) = (none, s')) :
    s.tlsCreate k t size = some (-1, s') := by
  rw [State.tlsCreate]
  simp only [tlsInit_find, h, hcr]
  exact if_neg (by omega)

theorem tlsCreate_mapped (h : s.find t = some none) (hsize : size.toNat ≠ 0) {l : List Nat}
    (hcr : (s.tlsInit k).createPages k (State.pageNum size (s.tlsInit k).pageSize) = (some l, s')) :
    s.tlsCreate k t size = some (0, s'.add t { tid := t, tls := { size := size, pages := l } }) := by
  rw [State.tlsCreate]
  simp only [tlsInit_find, h, hcr]
  exact if_neg (by omega)

theorem tlsInit_started (s : State) (k : Kernel) : (s.tlsInit k).isFirstCall = false := by
  unfold State.tlsInit
  split
  · rfl
  · next hf => simpa using hf

theorem tlsInit_heap (s : State) (k : Kernel) :
    (s.tlsInit k).items = s.items ∧ (s.tlsInit k).nextItem = s.nextItem ∧ (s.tlsInit k).pages = s.pages := by
  unfold State.tlsInit
  split <;> exact ⟨rfl, rfl, rfl⟩

/-- Mapping pages changes no LSA. -/
theorem Grown.bytes (h : Grown k s s') (hs : Inv k s) (hps : s.pageSize = k.getpagesize) (hi : s.items i = some it) :
    s'.bytesOf it.tls = s.bytesOf it.tls := by
  refine bytesOf_content h.same.pageSize (hps ▸ getpagesize_pos k) fun p hp off hoff => ?_
  obtain ⟨pg, hpg⟩ := hs.alloc i it hi p hp
  exact h.content p pg hpg off (hps ▸ hoff)

/-- A page is a new one, in no LSA yet, or an old one. -/
theorem NewPages.count {l : List Nat} (h : NewPages k s s' l) (hs : Inv k s) {p : Nat} {pg : Page}
    (hp : s'.pages p = some pg) :
    (s.refs p + l.count p = 1 ∧ pg.refCount = 1) ∨ (s.pages p = some pg ∧ l.count p = 0) := by
  by_cases hpl : p ∈ l
  · left
    obtain ⟨pg', hp', hrc⟩ := h.page p hpl
    rw [hp, Option.some.injEq] at hp'
    have hz : s.refs p = 0 := by
      apply refs_eq_zero.mpr
      intro i _ hi
      obtain ⟨it, hit, hpi⟩ := mem_slots hi
      obtain ⟨qg, hq⟩ := hs.alloc i it hit p hpi
      exact absurd (hs.pages.lt p qg hq) (Nat.not_lt.mpr (h.next p hpl))
    rw [hz, List.count_eq_one_of_mem h.nodup hpl, hp']
    exact ⟨rfl, hrc⟩
  · exact .inr ⟨(h.all p pg hp).resolve_right hpl, List.count_eq_zero.mpr hpl⟩

theorem tlsCreate_spec (hs : Inv k s) (h : s.find t = some none) (hsize : size.toNat ≠ 0) :
    (∃ s', s.tlsCreate k t size = some (0, s') ∧ Added k s t size (List.replicate size.toNat 0) s') ∨
    (¬ k.Maps ∧ ∃ s', s.tlsCreate k t size = some (-1, s') ∧ Kept k s s') := by
  have hinit := tlsInit_kept hs
  have hs₀ := hinit.inv
  have hfirst := tlsInit_started s k
  have hps := hs₀.pageSize hfirst
  obtain ⟨hitems, hnext, hpages⟩ := tlsInit_heap s k
  obtain ⟨o, s', hcr, hg, hmaps, hl⟩ :=
    createPages_spec (State.pageNum size (s.tlsInit k).pageSize) (s.tlsInit k) hs₀.pages hps
  have hcontent : ∀ i it, s.items i = some it → s'.bytesOf it.tls = s.bytesOf it.tls := fun i it hi =>
    (hg.bytes hs₀ hps (hitems ▸ hi)).trans (hinit.bytes i it hi)
  cases o with
  | none =>
    refine .inr ⟨fun hk => hmaps hk rfl, s', tlsCreate_unmapped h hsize hcr, ⟨?_, hg.same.table.trans hinit.table,
      hg.same.items.trans hinit.items, hcontent⟩⟩
    exact hs₀.same hg.same hg.pages fun p pg hp _ => ⟨pg, hg.old p pg hp, rfl⟩
  | some l =>
    obtain ⟨hlen, hnew⟩ := hl l rfl
    rw [hps] at hlen
    refine .inl ⟨_, tlsCreate_mapped h hsize hcr, ?_⟩
    refine
      { inv := hs₀.add hg.same hg.pages hfirst (fun i jt hj => ?_) rfl hlen hnew.nodup
          (fun p hp => ?_) (fun p pg hp => ⟨pg, hg.old p pg hp⟩) (fun p pg hp hpos => ?_)
        noLeak := fun hleak p pg hp => ?_
        item := ⟨{ tid := t, tls := { size := size, pages := l } }, ?_, rfl, rfl, ?_⟩
        table := ?_
        others := hcontent }
    · exact hs₀.toTableOk.find_none (by rw [tlsInit_find]; exact h) hj
    · obtain ⟨pg, hpg, -⟩ := hnew.page p hp
      exact ⟨pg, hpg⟩
    · dsimp only at hpos ⊢
      obtain ⟨h1, h2⟩ | ⟨h1, h2⟩ := hnew.count hs₀ hp
      · rw [h1, h2]
        rfl
      · rw [h2, add_zero] at hpos ⊢
        exact hs₀.refCount p pg h1 hpos
    · rw [add_refs, hg.same.refs]
      dsimp only
      obtain ⟨h1, -⟩ | ⟨h1, -⟩ := hnew.count hs₀ hp
      · omega
      · have := hleak p pg (hpages ▸ h1)
        have hsame : (s.tlsInit k).refs p = s.refs p := by
          unfold State.refs State.slots
          rw [hitems, hnext]
        omega
    · rw [State.add]
      dsimp only
      rw [hg.same.items, hinit.items, hg.same.nextItem, hnext]
    · exact bytesOf_zero (hg.same.pageSize.trans hps) hlen hnew.zero
    · rw [State.add]
      dsimp only
      rw [hg.same.table, hinit.table, hg.same.nextItem, hnext]

theorem tlsClone_owner (h : s.find t = some (some i)) {o : Option Nat} (hu : s.find u = some o) :
    s.tlsClone t u = some (-1, s) := by
  rw [State.tlsClone, h, hu]
  rfl

theorem tlsClone_null (h : s.find t = some none) (hu : s.find u = some none) :
    s.tlsClone t u = some (-1, s) := by
  rw [State.tlsClone, h, hu]
  rfl

theorem tlsClone_spec (hs : Inv k s) (h : s.find t = some none) (hu : s.find u = some (some e))
    (hi : s.Owns u e it) :
    ∃ s', s.tlsClone t u = some (0, s') ∧ Added k s t it.tls.size (s.bytesOf it.tls) s' := by
  have hnd := hs.nodup e it hi.1
  have hps := hs.pageSize_eq hi.1
  obtain ⟨s₁, h₁, hsh⟩ := share_spec (hs.alloc e it hi.1) hnd
  have hkeep : ∀ p pg, s.pages p = some pg → ∃ pg', s₁.pages p = some pg' := by
    intro p pg hp
    obtain ⟨pg', hpg', -⟩ := hsh.keep hp
    exact ⟨pg', hpg'⟩
  have hbytes : ∀ i jt, s.items i = some jt → s₁.bytesOf jt.tls = s.bytesOf jt.tls := by
    intro i jt hj
    refine bytesOf_content hsh.same.pageSize (hps ▸ getpagesize_pos k) fun p hp off _ => ?_
    obtain ⟨pg, hpg⟩ := hs.alloc i jt hj p hp
    obtain ⟨pg', hpg', ha⟩ := hsh.keep hpg
    rw [content_of_address (by rw [hsh.mem]) hpg hpg' ha]
  have hpos : ∀ p, 0 < s.refs p + it.tls.pages.count p → 0 < s.refs p := by
    intro p hpos
    by_cases hpl : p ∈ it.tls.pages
    · exact hs.refs_pos hi.1 hpl
    · rwa [List.count_eq_zero.mpr hpl] at hpos
  refine ⟨s₁.add t { tid := t, tls := it.tls }, ?_, ?_⟩
  · rw [State.tlsClone, h, hu]
    simp only [Option.bind_eq_bind, Option.bind_some, hi.1, h₁]
    rfl
  refine
    { inv := hs.add hsh.same (hsh.pagesOk hnd hs.pages) (hs.init e it hi.1) (fun _ _ => hs.toTableOk.find_none h)
        rfl (hs.pageNum e it hi.1) hnd (fun p hp => ?_) hkeep (fun p pg' hp hp0 => ?_)
      noLeak := fun hleak p pg' hp => ?_
      item := ⟨{ tid := t, tls := it.tls }, ?_, rfl, rfl, hbytes e it hi.1⟩
      table := ?_
      others := hbytes }
  · obtain ⟨pg, hpg⟩ := hs.alloc e it hi.1 p hp
    exact hkeep p pg hpg
  · obtain ⟨pg, hpg, -, hrc⟩ := hsh.old hnd hp
    rw [hrc, hs.refCount p pg hpg (hpos p hp0)]
    push_cast
    rfl
  · obtain ⟨pg, hpg, -⟩ := hsh.old hnd hp
    have := hleak p pg hpg
    rw [add_refs, hsh.same.refs]
    omega
  · rw [State.add]
    dsimp only
    rw [hsh.same.items, hsh.same.nextItem]
  · rw [State.add]
    dsimp only
    rw [hsh.same.table, hsh.same.nextItem]

/-! ## tls_destroy -/

/-- A call that has freed the LSA `e` and left its item in the bucket. -/
structure Destroyed (k : Kernel) (s : State) (e : Nat) (s' : State) : Prop where
  inv : Inv k s'
  noLeak : NoLeak s → NoLeak s'
  items : s'.items = Function.update s.items e none
  table : s'.table = s.table
  others : ∀ i it, i ≠ e → s.items i = some it → s'.bytesOf it.tls = s.bytesOf it.tls
  unmapped : ∀ a ∈ s.mem.mapped, a ∉ s'.mem.mapped → ∃ p pg, s.pages p = some pg ∧ pg.address = a ∧
    ∀ i it, i ≠ e → s.items i = some it → p ∉ it.tls.pages

theorem tlsDestroy_nil (h : s.table (hashFunction t) = []) : s.tlsDestroy t = some (-1, s) := by
  rw [State.tlsDestroy, State.remove_nil h]
  rfl

/-- No LSA, but a bucket that is not empty: NULL is dereferenced. -/
theorem tlsDestroy_undefined (h : s.find t = some none) (hb : s.table (hashFunction t) ≠ []) :
    s.tlsDestroy t = none := by
  rw [State.tlsDestroy, State.remove_none h hb]
  rfl

/-- A page that another LSA holds too has a counter of at least two. -/
theorem Inv.shared (hs : Inv k s) (hi : s.items e = some it) {p : Nat} {pg : Page} (hp : s.pages p = some pg)
    {jt : Item} (hne : i ≠ e) (hj : s.items i = some jt) (hpj : p ∈ jt.tls.pages) :
    p ∈ it.tls.pages → pg.refCount ≠ 1 := by
  intro hpl hone
  have hrc := hs.refCount p pg hp (hs.refs_pos hi hpl)
  have hrefs : s.refs p = 1 := by omega
  refine refs_eq_one hrefs (hs.items_lt e it hi) (hs.items_lt i jt hj) ?_ hne ?_
  · rw [slots_some hi]
    exact hpl
  · rw [slots_some hj]
    exact hpj

/-- The state at the end of tls_destroy. -/
def State.freeItem (e : Nat) (s : State) : State := { s with items := Function.update s.items e none }

theorem freeItem_cases {jt : Item} (h : (s.freeItem e).items i = some jt) : i ≠ e ∧ s.items i = some jt := by
  rw [State.freeItem] at h
  dsimp only at h
  by_cases hie : i = e
  · rw [hie, Function.update_self] at h
    cases h
  · rw [Function.update_of_ne hie] at h
    exact ⟨hie, h⟩

theorem freeItem_refs (hs : TableOk s) (hi : s.items e = some it) (p : Nat) :
    (s.freeItem e).refs p + it.tls.pages.count p = s.refs p := by
  have hslot : (s.freeItem e).slots e = [] := by
    rw [State.slots, State.freeItem]
    dsimp only
    rw [Function.update_self]
  have hother : ∀ j < s.nextItem, j ≠ e → (s.freeItem e).slots j = s.slots j := by
    intro j _ hj
    rw [State.slots, State.freeItem]
    dsimp only
    rw [Function.update_of_ne hj, State.slots]
  have hch := refs_change p (hs.items_lt e it hi) hother
  rw [hslot, slots_some hi, List.count_nil] at hch
  exact hch

theorem Released.inv {s₁ : State} (h : Released s it.tls.pages s₁) (hs : Inv k s) (hi : s.items e = some it) :
    Inv k (s₁.freeItem e) := by
  have hnd := hs.nodup e it hi
  have hsub : ∀ i jt, (s₁.freeItem e).items i = some jt → i ≠ e ∧ s.items i = some jt := by
    intro i jt hj
    rw [← h.same.items]
    exact freeItem_cases hj
  have hpages := h.pagesOk hnd hs.pages
  refine
    { items_lt := fun i jt hj => h.same.nextItem.symm ▸ hs.items_lt i jt (hsub i jt hj).2
      linked := fun i jt hj => h.same.table.symm ▸ hs.linked i jt (hsub i jt hj).2
      owner := fun i j jt jt' hj hj' => hs.owner i j jt jt' (hsub i jt hj).2 (hsub j jt' hj').2
      pages := ⟨hpages.lt, hpages.mapped, hpages.aligned, hpages.distinct⟩
      init := fun i jt hj => h.same.isFirstCall.trans (hs.init i jt (hsub i jt hj).2)
      pageSize := fun _ => h.same.pageSize.trans (hs.pageSize_eq hi)
      pageNum := fun i jt hj => hs.pageNum i jt (hsub i jt hj).2
      nodup := fun i jt hj => hs.nodup i jt (hsub i jt hj).2
      alloc := fun i jt hj p hp => ?_
      refCount := fun p pg' hp hpos => ?_ }
  · obtain ⟨hne, hj⟩ := hsub i jt hj
    obtain ⟨pg, hpg⟩ := hs.alloc i jt hj p hp
    obtain ⟨pg', hpg', -⟩ := h.keep hpg (hs.shared hi hpg hne hj hp)
    exact ⟨pg', hpg'⟩
  · obtain ⟨pg, hpg, -, hrc, -⟩ := h.old hnd hp
    have hrefs := freeItem_refs (h.same.tableOk hs.toTableOk) (h.same.items ▸ hi) p
    rw [h.same.refs] at hrefs
    rw [hrc, hs.refCount p pg hpg (by omega)]
    omega

theorem Released.noLeak {s₁ : State} (h : Released s it.tls.pages s₁) (hs : Inv k s)
    (hi : s.items e = some it) (hleak : NoLeak s) : NoLeak (s₁.freeItem e) := by
  have hnd := hs.nodup e it hi
  intro p pg' hp
  obtain ⟨pg, hpg, -, -, hne⟩ := h.old hnd hp
  have hpos := hleak p pg hpg
  have hcnt := hs.refCount p pg hpg hpos
  have hrefs := freeItem_refs (h.same.tableOk hs.toTableOk) (h.same.items ▸ hi) p
  rw [h.same.refs] at hrefs
  by_cases hpl : p ∈ it.tls.pages
  · have := hne hpl
    rw [List.count_eq_one_of_mem hnd hpl] at hrefs
    omega
  · rw [List.count_eq_zero.mpr hpl] at hrefs
    omega

theorem tlsDestroy_spec (hs : Inv k s) (h : s.find t = some (some e)) (hi : s.Owns t e it) :
    ∃ s', s.tlsDestroy t = some (0, s') ∧ Destroyed k s e s' := by
  have hps := hs.pageSize_eq hi.1
  obtain ⟨s₁, h₁, hre⟩ := release_spec (hs.alloc e it hi.1) (hs.nodup e it hi.1)
  refine ⟨s₁.freeItem e, ?_, hre.inv hs hi.1, hre.noLeak hs hi.1, ?_, hre.same.table,
    fun i jt hne hj => ?_, fun a ha hna => ?_⟩
  · rw [State.tlsDestroy, State.remove_some h]
    simp only [Option.bind_eq_bind, Option.bind_some, hi.1, h₁]
    rfl
  · rw [← hre.same.items]
    rfl
  · refine bytesOf_content hre.same.pageSize (hps ▸ getpagesize_pos k) fun p hp off _ => ?_
    obtain ⟨pg, hpg⟩ := hs.alloc i jt hj p hp
    obtain ⟨pg', hpg', ha⟩ := hre.keep hpg (hs.shared hi.1 hpg hne hj hp)
    exact congrFun (content_of_address hre.byte hpg hpg' ha) off
  · by_contra hno
    refine hna ((hre.mapped a).mpr ⟨ha, fun p hp pg hpg hone heq => hno ⟨p, pg, hpg, heq, ?_⟩⟩)
    exact fun i jt hne hj hpj => hs.shared hi.1 hpg hne hj hpj hp hone

end EC440.Tls
