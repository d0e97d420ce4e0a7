/-
  The steps of the calls of tls.c on pages: mapping a new page, sharing the pages of an LSA,
  giving them up, copying one page and storing one byte. Each has one lemma that says what it
  does to the pages, the counters and the bytes of every LSA.
-/
import EC440.Tls.Pages

namespace EC440.Tls

open EC440.Lib

variable {k : Kernel} {s s' s₁ : State} {t : UInt64} {i p q a off : Nat} {it : Item} {pg : Page}
  {l : List Nat}

/-! ## New pages -/

/-- The state after a new page at `a`. -/
def State.mapPage (prot : Prot) (a : Nat) (s : State) : State :=
  { s with
    pages := Function.update s.pages s.nextPage (some { address := a, refCount := 1 })
    nextPage := s.nextPage + 1
    mem :=
      { mapped := insert a s.mem.mapped
        prot := Function.update s.mem.prot a prot
        byte := fun x => if a ≤ x ∧ x < a + s.pageSize then 0 else s.mem.byte x
        mmaps := s.mem.mmaps + 1 } }

theorem newPage_map {prot : Prot} (h : k.mmap s.mem.mmaps s.mem.mapped = some a) :
    s.newPage k prot = (some s.nextPage, s.mapPage prot a) := by
  simp [State.newPage, Memory.mmap, h, State.mapPage]

theorem newPage_fail {prot : Prot} (h : k.mmap s.mem.mmaps s.mem.mapped = none) :
    s.newPage k prot = (none, { s with mem := { s.mem with mmaps := s.mem.mmaps + 1 } }) := by
  simp [State.newPage, Memory.mmap, h]

theorem mapPage_same (s : State) (prot : Prot) (a : Nat) : SameItems s (s.mapPage prot a) :=
  ⟨rfl, rfl, rfl, rfl, rfl⟩

theorem mapPage_new (s : State) (prot : Prot) (a : Nat) :
    (s.mapPage prot a).pages s.nextPage = some { address := a, refCount := 1 } :=
  Function.update_self _ _ _

theorem PagesOk.ne_next (hp : PagesOk k s) (h : s.pages p = some pg) : p ≠ s.nextPage :=
  Nat.ne_of_lt (hp.lt p pg h)

theorem PagesOk.mapPage_old (hp : PagesOk k s) (h : s.pages p = some pg) (prot : Prot) (a : Nat) :
    (s.mapPage prot a).pages p = some pg := by
  rw [State.mapPage]
  dsimp only
  rw [Function.update_of_ne (hp.ne_next h), h]

theorem mapPage_cases {prot : Prot} (h : (s.mapPage prot a).pages p = some pg) :
    (p = s.nextPage ∧ pg = { address := a, refCount := 1 }) ∨ s.pages p = some pg := by
  by_cases hp : p = s.nextPage
  · rw [hp, mapPage_new, Option.some.injEq] at h
    exact .inl ⟨hp, h.symm⟩
  · rw [State.mapPage] at h
    dsimp only at h
    rw [Function.update_of_ne hp] at h
    exact .inr h

theorem PagesOk.mapPage (hp : PagesOk k s) (ha : a ∉ s.mem.mapped) (hal : k.getpagesize ∣ a) (prot : Prot) :
    PagesOk k (s.mapPage prot a) where
  lt := by
    intro p pg h
    rcases mapPage_cases h with ⟨rfl, -⟩ | h
    · exact Nat.lt_succ_self _
    · exact Nat.lt_succ_of_lt (hp.lt p pg h)
  mapped := by
    intro p pg h
    rcases mapPage_cases h with ⟨-, rfl⟩ | h
    · exact Finset.mem_insert_self _ _
    · exact Finset.mem_insert_of_mem (hp.mapped p pg h)
  aligned := by
    intro p pg h
    rcases mapPage_cases h with ⟨-, rfl⟩ | h
    · exact hal
    · exact hp.aligned p pg h
  distinct := by
    intro p q pg qg h h' heq
    rcases mapPage_cases h with ⟨hpn, hpa⟩ | hpo <;> rcases mapPage_cases h' with ⟨hqn, hqa⟩ | hqo
    · exact hpn.trans hqn.symm
    · have hqa : qg.address = a := by rw [← heq, hpa]
      exact absurd (hqa ▸ hp.mapped q qg hqo) ha
    · have hpa : pg.address = a := by rw [heq, hqa]
      exact absurd (hpa ▸ hp.mapped p pg hpo) ha
    · exact hp.distinct p q pg qg hpo hqo heq

theorem PagesOk.mapPage_byte (hp : PagesOk k s) (hps : s.pageSize = k.getpagesize) (ha : a ∉ s.mem.mapped)
    (hal : k.getpagesize ∣ a) (h : s.pages p = some pg) (hoff : off < k.getpagesize) (prot : Prot) :
    (s.mapPage prot a).mem.byte (pg.address + off) = s.mem.byte (pg.address + off) := by
  have hne : pg.address ≠ a := fun heq => ha (heq ▸ hp.mapped p pg h)
  exact if_neg (hps ▸ not_in_page (hp.aligned p pg h) hal hoff hne)

theorem PagesOk.mapPage_content (hp : PagesOk k s) (hps : s.pageSize = k.getpagesize) (ha : a ∉ s.mem.mapped)
    (hal : k.getpagesize ∣ a) (h : s.pages p = some pg) (hoff : off < k.getpagesize) (prot : Prot) :
    (s.mapPage prot a).content p off = s.content p off := by
  rw [State.content, hp.mapPage_old h, State.content, h]
  exact hp.mapPage_byte hps ha hal h hoff prot

theorem mapPage_content_new (hps : s.pageSize = k.getpagesize) (hoff : off < k.getpagesize) (prot : Prot) :
    (s.mapPage prot a).content s.nextPage off = 0 := by
  rw [State.content, mapPage_new]
  exact if_pos ⟨Nat.le_add_right a off, Nat.add_lt_add_left (hps ▸ hoff) a⟩

/-- What tls_create has done when it has mapped the pages `l`. -/
structure Grown (k : Kernel) (s s' : State) : Prop where
  same : SameItems s s'
  pages : PagesOk k s'
  next : s.nextPage ≤ s'.nextPage
  old : ∀ p pg, s.pages p = some pg → s'.pages p = some pg
  content : ∀ p pg, s.pages p = some pg → ∀ off < k.getpagesize, s'.content p off = s.content p off

structure NewPages (k : Kernel) (s s' : State) (l : List Nat) : Prop where
  nodup : l.Nodup
  next : ∀ p ∈ l, s.nextPage ≤ p
  page : ∀ p ∈ l, ∃ pg, s'.pages p = some pg ∧ pg.refCount = 1
  zero : ∀ p ∈ l, ∀ off < k.getpagesize, s'.content p off = 0
  all : ∀ p pg, s'.pages p = some pg → s.pages p = some pg ∨ p ∈ l

theorem createPages_spec (n : Nat) (s : State) (hp : PagesOk k s) (hps : s.pageSize = k.getpagesize) :
    ∃ o s', s.createPages k n = (o, s') ∧ Grown k s s' ∧ (k.Maps → o ≠ none) ∧
      ∀ l, o = some l → l.length = n ∧ NewPages k s s' l := by
  induction n generalizing s with
  | zero =>
    refine ⟨some [], s, rfl, ⟨.refl s, hp, le_rfl, fun _ _ h => h, fun _ _ _ _ _ => rfl⟩, by simp, ?_⟩
    rintro l ⟨⟩
    exact ⟨rfl, List.nodup_nil, by simp, by simp, by simp, fun _ _ h => .inl h⟩
  | succ n ih =>
    cases hm : k.mmap s.mem.mmaps s.mem.mapped with
    | none =>
      refine ⟨none, { s with mem := { s.mem with mmaps := s.mem.mmaps + 1 } }, ?_, ?_, fun hk => absurd hm (hk _ _), by simp⟩
      · rw [State.createPages, newPage_fail hm]
      · exact ⟨⟨rfl, rfl, rfl, rfl, rfl⟩, ⟨hp.lt, hp.mapped, hp.aligned, hp.distinct⟩, le_rfl,
          fun _ _ h => h, fun _ _ _ _ _ => rfl⟩
    | some a =>
      have ha : a ∉ s.mem.mapped := k.fresh _ _ a hm
      have hal : k.getpagesize ∣ a := k.aligned _ _ a hm
      obtain ⟨o, s', hcr, hg, hk, hl⟩ := ih (s.mapPage .none a) (hp.mapPage ha hal .none) hps
      have hold : ∀ p pg, s.pages p = some pg → s'.pages p = some pg :=
        fun p pg h => hg.old p pg (hp.mapPage_old h _ _)
      have hgrown : Grown k s s' :=
        { same := (mapPage_same s .none a).trans hg.same
          pages := hg.pages
          next := le_trans (Nat.le_succ _) hg.next
          old := hold
          content := fun p pg h off hoff =>
            (hg.content p pg (hp.mapPage_old h _ _) off hoff).trans (hp.mapPage_content hps ha hal h hoff _) }
      have hnew := mapPage_new s .none a
      cases o with
      | none =>
        refine ⟨none, s', ?_, hgrown, hk, by simp⟩
        rw [State.createPages, newPage_map hm]
        simp [hcr]
      | some l =>
        refine ⟨some (s.nextPage :: l), s', ?_, hgrown, by simp, ?_⟩
        · rw [State.createPages, newPage_map hm]
          simp [hcr]
        rintro _ ⟨⟩
        obtain ⟨hlen, hnp⟩ := hl l rfl
        refine ⟨by rw [List.length_cons, hlen], ?_⟩
        have hnext : ∀ p ∈ l, s.nextPage < p := fun p h => hnp.next p h
        exact
          { nodup := List.nodup_cons.mpr ⟨fun h => absurd (hnext _ h) (lt_irrefl _), hnp.nodup⟩
            next := fun p h => (List.mem_cons.mp h).elim (fun h => h ▸ le_rfl) fun h => (hnext p h).le
            page := fun p h => (List.mem_cons.mp h).elim
              (fun h => ⟨_, h ▸ hg.old _ _ hnew, rfl⟩) (hnp.page p)
            zero := fun p h off hoff => (List.mem_cons.mp h).elim
              (fun h => by rw [h, hg.content _ _ hnew off hoff]; exact mapPage_content_new hps hoff _)
              fun h => hnp.zero p h off hoff
            all := fun p pg h => by
              rcases hnp.all p pg h with h | h
              · rcases mapPage_cases h with ⟨rfl, -⟩ | h
                · exact .inr List.mem_cons_self
                · exact .inl h
              · exact .inr (List.mem_cons_of_mem _ h) }

/-! ## A new LSA -/

theorem add_items (t : UInt64) (it : Item) (s : State) (hi : i ≠ s.nextItem) : (s.add t it).items i = s.items i :=
  Function.update_of_ne hi _ _

theorem add_cases {jt : Item} (h : (s.add t it).items i = some jt) :
    (i = s.nextItem ∧ jt = it) ∨ (i ≠ s.nextItem ∧ s.items i = some jt) := by
  by_cases hi : i = s.nextItem
  · rw [hi, State.add] at h
    simp only [Function.update_self, Option.some.injEq] at h
    exact .inl ⟨hi, h.symm⟩
  · rw [add_items t it s hi] at h
    exact .inr ⟨hi, h⟩

theorem mem_add_table {b : Nat} (h : i ∈ s.table b) : i ∈ (s.add t it).table b := by
  rw [State.add]
  dsimp only
  by_cases hb : b = hashFunction t
  · rw [hb] at h ⊢
    rw [Function.update_self]
    exact List.mem_cons_of_mem _ h
  · rw [Function.update_of_ne hb]
    exact h

theorem TableOk.add (hs : TableOk s) (hno : ∀ i jt, ¬ s.Owns t i jt) (ht : it.tid = t) :
    TableOk (s.add t it) where
  items_lt := by
    intro i jt h
    rcases add_cases h with ⟨rfl, -⟩ | ⟨-, h⟩
    · exact Nat.lt_succ_self _
    · exact Nat.lt_succ_of_lt (hs.items_lt i jt h)
  linked := by
    intro i jt h
    rcases add_cases h with ⟨rfl, rfl⟩ | ⟨-, h⟩
    · rw [ht, State.add]
      simp
    · exact mem_add_table (hs.linked i jt h)
  owner := by
    intro i j jt jt' h h' heq
    rcases add_cases h with ⟨hin, hit⟩ | ⟨-, hio⟩ <;> rcases add_cases h' with ⟨hjn, hjt⟩ | ⟨-, hjo⟩
    · exact hin.trans hjn.symm
    · exact absurd ⟨hjo, heq.symm.trans (by rw [hit, ht])⟩ (hno j jt')
    · exact absurd ⟨hio, heq.trans (by rw [hjt, ht])⟩ (hno i jt)
    · exact hs.owner i j jt jt' hio hjo heq

theorem add_refs (s : State) (t : UInt64) (it : Item) (p : Nat) :
    (s.add t it).refs p = s.refs p + it.tls.pages.count p := by
  have hold : ∀ i < s.nextItem, (s.add t it).slots i = s.slots i := by
    intro i hi
    rw [State.slots, add_items t it s (Nat.ne_of_lt hi), State.slots]
  have hnew : (s.add t it).slots s.nextItem = it.tls.pages := slots_some (by rw [State.add]; simp)
  rw [State.refs, show (s.add t it).nextItem = s.nextItem + 1 from rfl, refs_succ, hnew]
  rw [refs_congr fun i hi => by rw [hold i hi]]
  rfl

/-- A new LSA on the pages `it.tls.pages`, whose counters are raised already. -/
theorem Inv.add (hs : Inv k s) (hsame : SameItems s s₁) (hp : PagesOk k s₁)
    (hfirst : s.isFirstCall = false) (hno : ∀ i jt, ¬ s.Owns t i jt) (ht : it.tid = t)
    (hlen : it.tls.pages.length = State.pageNum it.tls.size k.getpagesize) (hnd : it.tls.pages.Nodup)
    (halloc : ∀ p ∈ it.tls.pages, ∃ pg, s₁.pages p = some pg)
    (hold : ∀ p pg, s.pages p = some pg → ∃ pg', s₁.pages p = some pg')
    (hrc : ∀ p pg, s₁.pages p = some pg → 0 < s.refs p + it.tls.pages.count p →
      pg.refCount = (s.refs p + it.tls.pages.count p : Nat)) : Inv k (s₁.add t it) where
  toTableOk := (hsame.tableOk hs.toTableOk).add
    (fun i jt h => hno i jt ⟨by rw [← hsame.items]; exact h.1, h.2⟩) ht
  pages := ⟨hp.lt, hp.mapped, hp.aligned, hp.distinct⟩
  init := fun _ _ _ => hsame.isFirstCall.trans hfirst
  pageSize := fun _ => hsame.pageSize.trans (hs.pageSize hfirst)
  pageNum := by
    intro i jt h
    rcases add_cases h with ⟨-, rfl⟩ | ⟨-, h⟩
    · exact hlen
    · exact hs.pageNum i jt (by rw [← hsame.items]; exact h)
  nodup := by
    intro i jt h
    rcases add_cases h with ⟨-, rfl⟩ | ⟨-, h⟩
    · exact hnd
    · exact hs.nodup i jt (by rw [← hsame.items]; exact h)
  alloc := by
    intro i jt h p hp
    rcases add_cases h with ⟨-, rfl⟩ | ⟨-, h⟩
    · exact halloc p hp
    · obtain ⟨pg, hpg⟩ := hs.alloc i jt (by rw [← hsame.items]; exact h) p hp
      exact hold p pg hpg
  refCount := by
    intro p pg h
    rw [add_refs s₁ t it p, hsame.refs]
    exact hrc p pg h

/-! ## The counters of all pages of an LSA -/

/-- A loop over distinct pages that changes each by `f` and the memory by `h`. -/
theorem foldlM_pages {g : State → Nat → Option State} {f : Page → Option Page} {h : Page → Memory → Memory}
    {R : List Nat → Memory → Prop} (hl : ∀ p ∈ l, ∃ pg, s.pages p = some pg) (hnd : l.Nodup)
    (hg : ∀ s p pg, s.pages p = some pg →
      g s p = some { s with pages := Function.update s.pages p (f pg), mem := h pg s.mem })
    (hR₀ : R [] s.mem)
    (hR : ∀ done p pg m, s.pages p = some pg → R done m → R (done ++ [p]) (h pg m)) :
    ∃ s', l.foldlM g s = some s' ∧ SameItems s s' ∧ s'.nextPage = s.nextPage ∧
      (∀ p, s'.pages p = if p ∈ l then (s.pages p).bind f else s.pages p) ∧ R l s'.mem := by
  refine foldlM_run (I := fun done s' => SameItems s s' ∧ s'.nextPage = s.nextPage ∧
    (∀ p, s'.pages p = if p ∈ done then (s.pages p).bind f else s.pages p) ∧ R done s'.mem)
    ⟨.refl s, rfl, by simp, hR₀⟩ ?_
  intro done p rest s₁ hsplit ⟨hsame, hnext, hpages, hmem⟩
  have hpd : p ∉ done := by
    rw [hsplit] at hnd
    exact fun hp => (List.nodup_append.mp hnd).2.2 p hp p List.mem_cons_self rfl
  obtain ⟨pg, hpg⟩ := hl p (by rw [hsplit]; simp)
  have hpg₁ : s₁.pages p = some pg := by rw [hpages, if_neg hpd, hpg]
  refine ⟨_, hg s₁ p pg hpg₁, hsame.trans ⟨rfl, rfl, rfl, rfl, rfl⟩, hnext, ?_, hR done p pg _ hpg hmem⟩
  intro q
  dsimp only
  by_cases hq : q = p
  · rw [hq, Function.update_self, if_pos (by simp), hpg, Option.bind_some]
  · rw [Function.update_of_ne hq, hpages]
    simp [hq]

/-- The counters of the pages `l` are raised by one. -/
structure Shared (s : State) (l : List Nat) (s' : State) : Prop where
  same : SameItems s s'
  next : s'.nextPage = s.nextPage
  mem : s'.mem = s.mem
  pages : ∀ p, s'.pages p = if p ∈ l then
    (s.pages p).bind (fun pg => some { pg with refCount := pg.refCount + 1 }) else s.pages p

/-- The loop of tls_clone. -/
theorem share_spec (hl : ∀ p ∈ l, ∃ pg, s.pages p = some pg) (hnd : l.Nodup) :
    ∃ s', l.foldlM State.sharePage s = some s' ∧ Shared s l s' := by
  have hg : ∀ (s : State) p pg, s.pages p = some pg → s.sharePage p =
      some { s with pages := Function.update s.pages p (some { pg with refCount := pg.refCount + 1 }) } := by
    intro s p pg hp
    simp [State.sharePage, hp, State.setRefCount]
  obtain ⟨s', h, hsame, hnext, hpages, hmem⟩ := foldlM_pages (h := fun _ m => m) (R := fun _ m => m = s.mem)
    hl hnd hg rfl fun _ _ _ _ _ h => h
  exact ⟨s', h, hsame, hnext, hmem, hpages⟩

theorem Shared.old (h : Shared s l s') (hnd : l.Nodup) {pg' : Page} (hp : s'.pages p = some pg') :
    ∃ pg, s.pages p = some pg ∧ pg.address = pg'.address ∧ pg'.refCount = pg.refCount + l.count p := by
  rw [h.pages] at hp
  by_cases hpl : p ∈ l
  · rw [if_pos hpl] at hp
    obtain ⟨pg, hpg, hp⟩ := Option.bind_eq_some_iff.mp hp
    rw [Option.some.injEq] at hp
    refine ⟨pg, hpg, by rw [← hp], ?_⟩
    rw [← hp, List.count_eq_one_of_mem hnd hpl]
    rfl
  · rw [if_neg hpl] at hp
    refine ⟨pg', hp, rfl, ?_⟩
    rw [List.count_eq_zero.mpr hpl]
    simp

theorem Shared.keep (h : Shared s l s') (hp : s.pages p = some pg) :
    ∃ pg', s'.pages p = some pg' ∧ pg'.address = pg.address := by
  rw [h.pages, hp]
  split
  · exact ⟨_, rfl, rfl⟩
  · exact ⟨pg, rfl, rfl⟩

theorem Shared.pagesOk (h : Shared s l s') (hnd : l.Nodup) (hs : PagesOk k s) : PagesOk k s' := by
  refine hs.of_address h.next.ge (fun p pg' hp => ?_) fun p pg' hp => ?_
  · obtain ⟨pg, hpg, ha, -⟩ := h.old hnd hp
    exact ⟨pg, hpg, ha⟩
  · obtain ⟨pg, hpg, ha, -⟩ := h.old hnd hp
    rw [h.mem, ← ha]
    exact hs.mapped p pg hpg

/-- What becomes of a page in the loop of tls_destroy. -/
def Page.release (pg : Page) : Option Page :=
  if pg.refCount = 1 then none else some { pg with refCount := pg.refCount - 1 }

/-- The pages `l` are given up: the last holder unmaps a page. -/
structure Released (s : State) (l : List Nat) (s' : State) : Prop where
  same : SameItems s s'
  next : s'.nextPage = s.nextPage
  byte : s'.mem.byte = s.mem.byte
  mapped : ∀ a, a ∈ s'.mem.mapped ↔ a ∈ s.mem.mapped ∧
    ∀ p ∈ l, ∀ pg, s.pages p = some pg → pg.refCount = 1 → pg.address ≠ a
  pages : ∀ p, s'.pages p = if p ∈ l then (s.pages p).bind Page.release else s.pages p

/-- One more page is given up. -/
theorem mapped_release {done : List Nat} {m : Memory} (hp : s.pages p = some pg)
    (h : ∀ a, a ∈ m.mapped ↔ a ∈ s.mem.mapped ∧
      ∀ p ∈ done, ∀ pg, s.pages p = some pg → pg.refCount = 1 → pg.address ≠ a) (a : Nat) :
    a ∈ (if pg.refCount = 1 then m.munmap pg.address else m).mapped ↔ a ∈ s.mem.mapped ∧
      ∀ q ∈ done ++ [p], ∀ qg, s.pages q = some qg → qg.refCount = 1 → qg.address ≠ a := by
  have hlast : (∀ q ∈ done ++ [p], ∀ qg, s.pages q = some qg → qg.refCount = 1 → qg.address ≠ a) ↔
      (∀ q ∈ done, ∀ qg, s.pages q = some qg → qg.refCount = 1 → qg.address ≠ a) ∧
        (pg.refCount = 1 → pg.address ≠ a) := by
    simp only [List.mem_append, List.mem_singleton]
    refine ⟨fun hq => ⟨fun q hd => hq q (.inl hd), hq p (.inr rfl) pg hp⟩, fun hq q hd qg hqg => ?_⟩
    rcases hd with hd | rfl
    · exact hq.1 q hd qg hqg
    · rw [hp, Option.some.injEq] at hqg
      exact hqg ▸ hq.2
  rw [hlast]
  split
  · next hrc =>
    rw [Memory.munmap]
    dsimp only
    rw [Finset.mem_erase, h a]
    constructor
    · intro ⟨hne, hm, hd⟩
      exact ⟨hm, hd, fun _ => hne.symm⟩
    · intro ⟨hm, hd, hne⟩
      exact ⟨(hne hrc).symm, hm, hd⟩
  · next hrc =>
    rw [h a]
    constructor
    · intro ⟨hm, hd⟩
      exact ⟨hm, hd, fun hone => absurd hone hrc⟩
    · intro ⟨hm, hd, _⟩
      exact ⟨hm, hd⟩

/-- The loop of tls_destroy. -/
theorem release_spec (hl : ∀ p ∈ l, ∃ pg, s.pages p = some pg) (hnd : l.Nodup) :
    ∃ s', l.foldlM State.destroyPage s = some s' ∧ Released s l s' := by
  have hg : ∀ (s : State) p pg, s.pages p = some pg → s.destroyPage p =
      some { s with
        pages := Function.update s.pages p pg.release
        mem := if pg.refCount = 1 then s.mem.munmap pg.address else s.mem } := by
    intro s p pg hp
    simp only [State.destroyPage, hp, Option.pure_def, Option.bind_eq_bind, Option.bind_some, Page.release,
      State.setRefCount]
    split <;> rfl
  obtain ⟨s', h, hsame, hnext, hpages, hbyte, hmapped⟩ :=
    foldlM_pages (h := fun pg m => if pg.refCount = 1 then m.munmap pg.address else m)
      (R := fun done m => m.byte = s.mem.byte ∧ ∀ a, a ∈ m.mapped ↔ a ∈ s.mem.mapped ∧
        ∀ p ∈ done, ∀ pg, s.pages p = some pg → pg.refCount = 1 → pg.address ≠ a) hl hnd hg
      ⟨rfl, by simp⟩ (by
        intro done p pg m hp ⟨hbyte, hmap⟩
        refine ⟨?_, mapped_release hp hmap⟩
        split
        · exact hbyte
        · exact hbyte)
  exact ⟨s', h, hsame, hnext, hbyte, hmapped, hpages⟩

theorem Released.old (h : Released s l s') (hnd : l.Nodup) {pg' : Page} (hp : s'.pages p = some pg') :
    ∃ pg, s.pages p = some pg ∧ pg.address = pg'.address ∧ pg'.refCount = pg.refCount - l.count p ∧
      (p ∈ l → pg.refCount ≠ 1) := by
  rw [h.pages] at hp
  by_cases hpl : p ∈ l
  · rw [if_pos hpl] at hp
    obtain ⟨pg, hpg, hp⟩ := Option.bind_eq_some_iff.mp hp
    rw [Page.release] at hp
    split at hp
    · cases hp
    · next hne =>
      rw [Option.some.injEq] at hp
      refine ⟨pg, hpg, by rw [← hp], ?_, fun _ => hne⟩
      rw [← hp, List.count_eq_one_of_mem hnd hpl]
      rfl
  · rw [if_neg hpl] at hp
    refine ⟨pg', hp, rfl, ?_, fun h => absurd h hpl⟩
    rw [List.count_eq_zero.mpr hpl]
    simp

theorem Released.keep (h : Released s l s') (hp : s.pages p = some pg) (hrc : p ∈ l → pg.refCount ≠ 1) :
    ∃ pg', s'.pages p = some pg' ∧ pg'.address = pg.address := by
  rw [h.pages, hp]
  split
  · next hpl =>
    rw [Option.bind_some, Page.release, if_neg (hrc hpl)]
    exact ⟨_, rfl, rfl⟩
  · exact ⟨pg, rfl, rfl⟩

theorem Released.pagesOk (h : Released s l s') (hnd : l.Nodup) (hs : PagesOk k s) : PagesOk k s' := by
  refine hs.of_address h.next.ge (fun p pg' hp => ?_) fun p pg' hp => ?_
  · obtain ⟨pg, hpg, ha, -⟩ := h.old hnd hp
    exact ⟨pg, hpg, ha⟩
  · obtain ⟨pg, hpg, ha, -, hrc⟩ := h.old hnd hp
    refine (h.mapped _).mpr ⟨ha ▸ hs.mapped p pg hpg, fun q hq qg hqg hone heq => ?_⟩
    have hqp := hs.distinct q p qg pg hqg hpg (heq.trans ha.symm)
    rw [hqp] at hq hqg
    rw [hpg, Option.some.injEq] at hqg
    exact hrc hq (hqg ▸ hone)

end EC440.Tls
