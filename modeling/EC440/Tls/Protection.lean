/-
  Page protections over whole runs. tls_write unprotects the pages of the caller's LSA, replaces
  shared ones by writable copies in its byte loop, and protects at the end what is then in the
  slots. `SealedBut l` is what holds in between: every Page is PROT_NONE, but for those that share
  their mapping with a page of `l`, and `l` follows the slots of the caller.

  Nothing is asked of the calls: a run goes on after those that return, whatever their size,
  offset and length, and also where an mmap fails.
-/
import EC440.Tls.Counts

namespace EC440.Tls

open EC440.Lib

variable {k : Kernel} {s s' : State} {t u : UInt64} {e i n page p q a : Nat} {it : Item} {pg : Page}
  {l : List Nat} {prot : Prot} {size offset length : UInt32}

structure SealedBut (k : Kernel) (l : List Nat) (s : State) : Prop where
  pages : PagesOk k s
  live : Live s
  alloc : ∀ i it, s.items i = some it → ∀ p ∈ it.tls.pages, ∃ pg, s.pages p = some pg
  prot : ∀ p pg, s.pages p = some pg → s.mem.prot pg.address = .none ∨
    ∃ q ∈ l, ∃ qg, s.pages q = some qg ∧ qg.address = pg.address

/-- The slots of the table lead to mapped pages, and each is PROT_NONE. -/
def Protected (s : State) : Prop :=
  ∀ b, ∀ i ∈ s.table b, ∃ it, s.items i = some it ∧ ∀ p ∈ it.tls.pages, ∃ pg, s.pages p = some pg ∧
    pg.address ∈ s.mem.mapped ∧ s.mem.prot pg.address = .none

theorem SealedBut.none (h : SealedBut k [] s) (hp : s.pages p = some pg) : s.mem.prot pg.address = .none := by
  rcases h.prot p pg hp with h | ⟨q, hq, -⟩
  · exact h
  · cases hq

theorem SealedBut.protected (h : SealedBut k [] s) : Protected s := by
  intro b i hi
  obtain ⟨it, hit⟩ := Option.ne_none_iff_exists'.mp (h.live b i hi)
  refine ⟨it, hit, fun p hp => ?_⟩
  obtain ⟨pg, hpg⟩ := h.alloc i it hit p hp
  exact ⟨pg, hpg, h.pages.mapped p pg hpg, h.none hpg⟩

/-- Steps that keep the items, and the place of every page. -/
theorem SealedBut.same (h : SealedBut k l s) (hsame : SameItems s s') (hp : PagesOk k s')
    (hkeep : ∀ p pg, s.pages p = some pg → ∃ pg', s'.pages p = some pg')
    (hprot : ∀ p pg, s'.pages p = some pg → s'.mem.prot pg.address = .none ∨
      ∃ q ∈ l, ∃ qg, s'.pages q = some qg ∧ qg.address = pg.address) : SealedBut k l s' where
  pages := hp
  live := by
    intro b i hi
    rw [hsame.table] at hi
    rw [hsame.items]
    exact h.live b i hi
  alloc := by
    intro i it hi p hp
    rw [hsame.items] at hi
    obtain ⟨pg, hpg⟩ := h.alloc i it hi p hp
    exact hkeep p pg hpg
  prot := hprot

/-! ## tls_protect and tls_unprotect -/

theorem tlsUnprotect_cases (h : s.tlsUnprotect prot p = some s') :
    ∃ pg, s.pages p = some pg ∧
      s' = { s with mem := { s.mem with prot := Function.update s.mem.prot pg.address prot } } := by
  rw [State.tlsUnprotect] at h
  obtain ⟨pg, hpg, h⟩ := Option.bind_eq_some_iff.mp h
  obtain ⟨mem, hmem, h⟩ := Option.bind_eq_some_iff.mp h
  rw [Memory.mprotect] at hmem
  split at hmem
  · rw [Option.some.injEq] at hmem
    rw [Option.pure_def, Option.some.injEq] at h
    exact ⟨pg, hpg, by rw [← h, ← hmem]⟩
  · cases hmem

theorem SealedBut.reprotected (h : SealedBut k l s) (hre : Reprotected s s') {m : List Nat}
    (hprot : ∀ p pg, s.pages p = some pg → s'.mem.prot pg.address = .none ∨
      ∃ q ∈ m, ∃ qg, s.pages q = some qg ∧ qg.address = pg.address) : SealedBut k m s' := by
  obtain ⟨prot, rfl⟩ := hre
  exact ⟨⟨h.pages.lt, h.pages.mapped, h.pages.aligned, h.pages.distinct⟩, h.live, h.alloc, hprot⟩

/-- The first loop of tls_write and tls_read. -/
theorem SealedBut.unprotect (h : SealedBut k [] s) (hf : l.foldlM (State.tlsUnprotect prot) s = some s') :
    SealedBut k l s' ∧ Reprotected s s' := by
  refine foldlM_invariant (I := fun done s' => SealedBut k done s' ∧ Reprotected s s') ⟨h, _, rfl⟩ ?_ hf
  intro done p _ s₁ s₂ _ hI hp
  obtain ⟨hs₁, hre⟩ := hI
  obtain ⟨pg, hpg, rfl⟩ := tlsUnprotect_cases hp
  refine ⟨hs₁.reprotected ⟨_, rfl⟩ fun q qg hq => ?_, ?_⟩
  · by_cases hadr : qg.address = pg.address
    · exact .inr ⟨p, by simp, pg, hpg, hadr.symm⟩
    · dsimp only
      rw [Function.update_of_ne hadr]
      rcases hs₁.prot q qg hq with hnone | ⟨r, hr, hrg⟩
      · exact .inl hnone
      · exact .inr ⟨r, List.mem_append_left _ hr, hrg⟩
  · obtain ⟨prot₁, rfl⟩ := hre
    exact ⟨_, rfl⟩

/-- The last loop. -/
theorem SealedBut.protect (h : SealedBut k l s) (hf : l.foldlM State.tlsProtect s = some s') :
    SealedBut k [] s' := by
  have hI : Reprotected s s' ∧ (∀ p pg, s.pages p = some pg → s.mem.prot pg.address = .none →
      s'.mem.prot pg.address = .none) ∧
      ∀ p ∈ l, ∀ pg, s.pages p = some pg → s'.mem.prot pg.address = .none := by
    refine foldlM_invariant (I := fun done s' => Reprotected s s' ∧
      (∀ p pg, s.pages p = some pg → s.mem.prot pg.address = .none → s'.mem.prot pg.address = .none) ∧
      ∀ p ∈ done, ∀ pg, s.pages p = some pg → s'.mem.prot pg.address = .none)
      ⟨⟨_, rfl⟩, fun _ _ _ h => h, by simp⟩ ?_ hf
    intro done p _ s₁ s₂ _ hI hp
    obtain ⟨hre, hold, hdone⟩ := hI
    obtain ⟨pg, hpg, rfl⟩ := tlsUnprotect_cases hp
    rw [hre.pages] at hpg
    have hsealed : ∀ qg : Page, s₁.mem.prot qg.address = .none →
        Function.update s₁.mem.prot pg.address .none qg.address = .none := by
      intro qg hq
      by_cases hadr : qg.address = pg.address
      · rw [hadr, Function.update_self]
      · rw [Function.update_of_ne hadr, hq]
    refine ⟨?_, fun q qg hq hnone => hsealed qg (hold q qg hq hnone), fun q hq qg hqg => ?_⟩
    · obtain ⟨prot₁, rfl⟩ := hre
      exact ⟨_, rfl⟩
    · rcases List.mem_append.mp hq with hq | hq
      · exact hsealed qg (hdone q hq qg hqg)
      · rw [List.mem_singleton.mp hq, hpg, Option.some.injEq] at hqg
        rw [← hqg]
        exact Function.update_self _ _ _
  obtain ⟨hre, hold, hdone⟩ := hI
  refine h.reprotected hre fun p pg hp => .inl ?_
  rcases h.prot p pg hp with hnone | ⟨q, hq, qg, hqg, hadr⟩
  · exact hold p pg hp hnone
  · rw [← hadr]
    exact hdone q hq qg hqg

/-! ## The byte loop of tls_write -/

theorem copyPage_cases {r : Nat × State} (h : s.copyPage k e it n page pg = some r) :
    ∃ a, k.mmap s.mem.mmaps s.mem.mapped = some a ∧ r = (s.nextPage, s.copied e it n page pg a) := by
  rw [State.copyPage] at h
  cases hm : k.mmap s.mem.mmaps s.mem.mapped with
  | none =>
    rw [newPage_fail hm] at h
    cases h
  | some a =>
    rw [newPage_map hm] at h
    simp only [Option.bind_eq_bind, Option.bind_some, mapPage_new] at h
    obtain ⟨mem, hmem, h⟩ := Option.bind_eq_some_iff.mp h
    obtain ⟨s₁, h₁, h⟩ := Option.bind_eq_some_iff.mp h
    rw [Memory.memcpy] at hmem
    split at hmem
    · obtain ⟨pg', hpg', hs₁⟩ := tlsUnprotect_cases h₁
      have hset : pg' = { pg with refCount := pg.refCount - 1 } := by
        rw [State.setRefCount] at hpg'
        dsimp only at hpg'
        rw [Function.update_self, Option.some.injEq] at hpg'
        exact hpg'.symm
      rw [Option.pure_def, Option.some.injEq] at h
      rw [Option.some.injEq] at hmem
      refine ⟨a, rfl, ?_⟩
      rw [← h, hs₁, hset, ← hmem]
      rfl
    · cases hmem

/-- The copied page is protected, and its place among the writable ones is taken by the copy. -/
theorem SealedBut.copied (h : SealedBut k it.tls.pages s) (hi : s.items e = some it)
    (hn : it.tls.pages[n]? = some page) (hpg : s.pages page = some pg) (ha : a ∉ s.mem.mapped)
    (hal : k.getpagesize ∣ a) :
    SealedBut k (it.setPage n s.nextPage).tls.pages (s.copied e it n page pg a) := by
  have hnext := copied_next (a := a) h.pages hpg e it n
  obtain ⟨hlt, hget⟩ := List.getElem?_eq_some_iff.mp hn
  refine ⟨h.pages.copied hpg e it n ha hal, fun b i hb => ?_, fun i jt hj q hq => ?_, fun q qg hq => ?_⟩
  · by_cases hie : i = e
    · rw [hie, show (s.copied e it n page pg a).items e = _ from Function.update_self _ _ _]
      simp
    · rw [show (s.copied e it n page pg a).items i = s.items i from Function.update_of_ne hie _ _]
      exact h.live b i hb
  · rcases copied_items hj with ⟨-, rfl⟩ | hj
    · rcases List.mem_or_eq_of_mem_set hq with hq | rfl
      · obtain ⟨qg, hqg⟩ := h.alloc e it hi q hq
        exact copied_keep h.pages e it n hqg
      · exact ⟨_, hnext⟩
    · obtain ⟨qg, hqg⟩ := h.alloc i jt hj q hq
      exact copied_keep h.pages e it n hqg
  · rcases copied_cases e it n hq with ⟨rfl, rfl⟩ | ⟨-, rfl⟩ | ⟨-, hq⟩
    · exact .inr ⟨s.nextPage, List.mem_set hlt _, _, hnext, rfl⟩
    · exact .inl (Function.update_self _ _ _)
    · have hqa : qg.address ≠ a := fun heq => ha (heq ▸ h.pages.mapped q qg hq)
      by_cases hadr : qg.address = pg.address
      · rw [hadr]
        exact .inl (Function.update_self _ _ _)
      · rcases h.prot q qg hq with hnone | ⟨r, hr, rg, hrg, hadr'⟩
        · left
          exact ((Function.update_of_ne hadr _ _).trans (Function.update_of_ne hqa _ _)).trans hnone
        · -- the slot that kept this page writable is another one
          have hrp : r ≠ page := by
            intro heq
            rw [heq, hpg, Option.some.injEq] at hrg
            exact hadr (by rw [hrg, hadr'])
          obtain ⟨m, hm⟩ := List.getElem?_of_mem hr
          have hmn : m ≠ n := by
            intro heq
            rw [heq, hn, Option.some.injEq] at hm
            exact hrp hm.symm
          refine .inr ⟨r, List.mem_of_getElem? (i := m) ?_, rg, copied_other h.pages e it n hrg hrp, hadr'⟩
          rw [copied_slot hn, if_neg hmn]
          exact hm

theorem storeByte_cases {index : Int} {b : UInt8} (h : s.storeByte page index b = some s') :
    ∃ x, s' = s.stored x b := by
  rw [State.storeByte] at h
  obtain ⟨pg, -, h⟩ := Option.bind_eq_some_iff.mp h
  obtain ⟨mem, hmem, h⟩ := Option.bind_eq_some_iff.mp h
  rw [Memory.store] at hmem
  split at hmem
  · rw [Option.some.injEq] at hmem
    rw [Option.pure_def, Option.some.injEq] at h
    exact ⟨_, by rw [← h, ← hmem]; rfl⟩
  · cases hmem

theorem SealedBut.stored (h : SealedBut k l s) (x : Nat) (b : UInt8) : SealedBut k l (s.stored x b) :=
  ⟨⟨h.pages.lt, h.pages.mapped, h.pages.aligned, h.pages.distinct⟩, h.live, h.alloc, h.prot⟩

/-- Between two rounds: the pages in the slots of `e` may be unprotected. -/
def Unsealed (k : Kernel) (e : Nat) (s : State) : Prop := ∃ it, s.items e = some it ∧ SealedBut k it.tls.pages s

theorem writeByte_run {buffer : Nat → UInt8} {count : Nat} {index : Int}
    (hw : s.writeByte k e buffer count index = some s') :
    ∃ it page pg x, s.items e = some it ∧ it.tls.pages[State.pageNumber s.pageSize index]? = some page ∧
      s.pages page = some pg ∧ ((pg.refCount ≤ 1 ∧ s' = s.stored x (buffer count)) ∨
        1 < pg.refCount ∧ ∃ a, k.mmap s.mem.mmaps s.mem.mapped = some a ∧
          s' = (s.copied e it (State.pageNumber s.pageSize index) page pg a).stored x (buffer count)) := by
  rw [State.writeByte] at hw
  obtain ⟨it, hi, hw⟩ := Option.bind_eq_some_iff.mp hw
  obtain ⟨page, hn, hw⟩ := Option.bind_eq_some_iff.mp hw
  obtain ⟨pg, hpg, hw⟩ := Option.bind_eq_some_iff.mp hw
  dsimp only at hw
  split at hw
  · next hshared =>
    obtain ⟨r, hcopy, hw⟩ := Option.bind_eq_some_iff.mp hw
    obtain ⟨a, hm, rfl⟩ := copyPage_cases hcopy
    obtain ⟨x, rfl⟩ := storeByte_cases hw
    exact ⟨it, page, pg, x, hi, hn, hpg, .inr ⟨hshared, a, hm, rfl⟩⟩
  · next hown =>
    obtain ⟨x, rfl⟩ := storeByte_cases hw
    exact ⟨it, page, pg, x, hi, hn, hpg, .inl ⟨not_lt.mp hown, rfl⟩⟩

theorem writeByte_unsealed {buffer : Nat → UInt8} {count : Nat} {index : Int} (h : Unsealed k e s)
    (hw : s.writeByte k e buffer count index = some s') : Unsealed k e s' := by
  obtain ⟨it, hi, hs⟩ := h
  obtain ⟨it', page, pg, x, hi', hn, hpg, hcase⟩ := writeByte_run hw
  obtain rfl : it' = it := Option.some.inj (hi'.symm.trans hi)
  rcases hcase with ⟨-, rfl⟩ | ⟨-, a, hm, rfl⟩
  · exact ⟨it', hi, hs.stored x _⟩
  · have hs₁ := hs.copied hi hn hpg (k.fresh _ _ a hm) (k.aligned _ _ a hm)
    exact ⟨_, Function.update_self _ _ _, hs₁.stored x _⟩

/-! ## The calls -/

theorem tlsWrite_run {buffer : Nat → UInt8} {r : Int} (hw : s.tlsWrite k t offset length buffer = some (r, s')) :
    (r = -1 ∧ s' = s) ∨
    ∃ e it s₁ s₂ it₂, s.find t = some (some e) ∧ s.items e = some it ∧ ¬ offset + length > it.tls.size ∧
      it.tls.pages.foldlM (State.tlsUnprotect .write) s = some s₁ ∧
      forInt (State.writeByte k e buffer) offset (offset + length) s₁ = some s₂ ∧ s₂.items e = some it₂ ∧
      it₂.tls.pages.foldlM State.tlsProtect s₂ = some s' ∧ r = 0 := by
  rw [State.tlsWrite] at hw
  obtain ⟨o, hf, hw⟩ := Option.bind_eq_some_iff.mp hw
  cases o with
  | none =>
    obtain ⟨rfl, rfl⟩ := Prod.mk.inj (Option.some.inj hw)
    exact .inl ⟨rfl, rfl⟩
  | some e =>
    obtain ⟨it, hi, hw⟩ := Option.bind_eq_some_iff.mp hw
    split at hw
    · obtain ⟨rfl, rfl⟩ := Prod.mk.inj (Option.some.inj hw)
      exact .inl ⟨rfl, rfl⟩
    · next hle =>
      obtain ⟨s₁, h₁, hw⟩ := Option.bind_eq_some_iff.mp hw
      obtain ⟨s₂, h₂, hw⟩ := Option.bind_eq_some_iff.mp hw
      obtain ⟨it₂, hi₂, hw⟩ := Option.bind_eq_some_iff.mp hw
      obtain ⟨s₃, h₃, hw⟩ := Option.bind_eq_some_iff.mp hw
      obtain ⟨rfl, rfl⟩ := Prod.mk.inj (Option.some.inj hw)
      exact .inr ⟨e, it, s₁, s₂, it₂, hf, hi, hle, h₁, h₂, hi₂, h₃, rfl⟩

theorem tlsWrite_sealed {buffer : Nat → UInt8} {r : Int} (h : SealedBut k [] s)
    (hw : s.tlsWrite k t offset length buffer = some (r, s')) : SealedBut k [] s' := by
  obtain ⟨-, rfl⟩ | ⟨e, it, s₁, s₂, it₂, -, hi, -, h₁, h₂, hi₂, h₃, -⟩ := tlsWrite_run hw
  · exact h
  obtain ⟨hs₁, hre⟩ := h.unprotect h₁
  have hloop : Unsealed k e s₂ :=
    forInt_invariant ⟨it, by rw [hre.same.items]; exact hi, hs₁⟩
      (fun _ _ _ _ hI hb => writeByte_unsealed hI hb) h₂
  obtain ⟨it', hi', hs₂⟩ := hloop
  rw [hi₂, Option.some.injEq] at hi'
  rw [← hi'] at hs₂
  exact hs₂.protect h₃

theorem tlsRead_run {r : Int × List UInt8} (hr : s.tlsRead t offset length = some (r, s')) :
    (r = (-1, []) ∧ s' = s) ∨
    ∃ e it s₁ buffer, s.find t = some (some e) ∧ s.items e = some it ∧ ¬ offset + length > it.tls.size ∧
      it.tls.pages.foldlM (State.tlsUnprotect .read) s = some s₁ ∧
      forInt (s₁.readByte e) offset (offset + length) [] = some buffer ∧
      it.tls.pages.foldlM State.tlsProtect s₁ = some s' ∧ r = (0, buffer) := by
  rw [State.tlsRead] at hr
  obtain ⟨o, hf, hr⟩ := Option.bind_eq_some_iff.mp hr
  cases o with
  | none =>
    obtain ⟨rfl, rfl⟩ := Prod.mk.inj (Option.some.inj hr)
    exact .inl ⟨rfl, rfl⟩
  | some e =>
    obtain ⟨it, hi, hr⟩ := Option.bind_eq_some_iff.mp hr
    split at hr
    · obtain ⟨rfl, rfl⟩ := Prod.mk.inj (Option.some.inj hr)
      exact .inl ⟨rfl, rfl⟩
    · next hle =>
      obtain ⟨s₁, h₁, hr⟩ := Option.bind_eq_some_iff.mp hr
      obtain ⟨buffer, hb, hr⟩ := Option.bind_eq_some_iff.mp hr
      obtain ⟨s₂, h₂, hr⟩ := Option.bind_eq_some_iff.mp hr
      obtain ⟨rfl, rfl⟩ := Prod.mk.inj (Option.some.inj hr)
      exact .inr ⟨e, it, s₁, buffer, hf, hi, hle, h₁, hb, h₂, rfl⟩

theorem tlsRead_sealed {r : Int × List UInt8} (h : SealedBut k [] s)
    (hr : s.tlsRead t offset length = some (r, s')) : SealedBut k [] s' := by
  obtain ⟨-, rfl⟩ | ⟨e, it, s₁, buffer, -, -, -, h₁, -, h₂, -⟩ := tlsRead_run hr
  · exact h
  · exact (h.unprotect h₁).1.protect h₂

theorem SealedBut.add (h : SealedBut k [] s) (hp : ∀ p ∈ it.tls.pages, ∃ pg, s.pages p = some pg) :
    SealedBut k [] (s.add t it) where
  pages := ⟨h.pages.lt, h.pages.mapped, h.pages.aligned, h.pages.distinct⟩
  live := Live.insert (t := t) h.live rfl rfl
  alloc := by
    intro i jt hj
    rcases add_cases hj with ⟨-, rfl⟩ | ⟨-, hj⟩
    · exact hp
    · exact h.alloc i jt hj
  prot := h.prot

/-- tls_create maps its pages with PROT_NONE. -/
theorem SealedBut.mapPage (h : SealedBut k [] s) (ha : a ∉ s.mem.mapped) (hal : k.getpagesize ∣ a) :
    SealedBut k [] (s.mapPage .none a) := by
  refine h.same (mapPage_same s .none a) (h.pages.mapPage ha hal .none)
    (fun p pg hp => ⟨pg, h.pages.mapPage_old hp _ _⟩) fun p pg hp => .inl ?_
  rcases mapPage_cases hp with ⟨-, rfl⟩ | hp
  · exact Function.update_self _ _ _
  · have hne : pg.address ≠ a := fun heq => ha (heq ▸ h.pages.mapped p pg hp)
    exact (Function.update_of_ne hne _ _).trans (h.none hp)

theorem createPages_sealed (n : Nat) {s s' : State} {o : Option (List Nat)} (h : SealedBut k [] s)
    (hc : s.createPages k n = (o, s')) : SealedBut k [] s' ∧ (∀ p pg, s.pages p = some pg → s'.pages p = some pg) ∧
      ∀ l, o = some l → ∀ p ∈ l, ∃ pg, s'.pages p = some pg := by
  induction n generalizing s s' o with
  | zero =>
    rw [State.createPages, Prod.mk.injEq] at hc
    rw [← hc.1, ← hc.2]
    refine ⟨h, fun _ _ hp => hp, fun l hl p hp => ?_⟩
    rw [Option.some.injEq] at hl
    rw [← hl] at hp
    cases hp
  | succ n ih =>
    rw [State.createPages] at hc
    cases hm : k.mmap s.mem.mmaps s.mem.mapped with
    | none =>
      rw [newPage_fail hm, Prod.mk.injEq] at hc
      rw [← hc.1, ← hc.2]
      refine ⟨⟨⟨h.pages.lt, h.pages.mapped, h.pages.aligned, h.pages.distinct⟩, h.live, h.alloc, h.prot⟩,
        fun _ _ hp => hp, fun l hl => ?_⟩
      cases hl
    | some a =>
      rw [newPage_map hm] at hc
      have hmap := h.mapPage (k.fresh _ _ a hm) (k.aligned _ _ a hm)
      have hold : ∀ p pg, s.pages p = some pg → (s.mapPage .none a).pages p = some pg :=
        fun p pg hp => h.pages.mapPage_old hp _ _
      cases hrest : (s.mapPage .none a).createPages k n with
      | mk o' s₁ =>
        obtain ⟨hs₁, hold₁, hl₁⟩ := ih hmap hrest
        simp only [hrest] at hc
        cases o' with
        | none =>
          rw [Prod.mk.injEq] at hc
          rw [← hc.1, ← hc.2]
          exact ⟨hs₁, fun p pg hp => hold₁ p pg (hold p pg hp), fun l hl => by cases hl⟩
        | some l₁ =>
          rw [Prod.mk.injEq] at hc
          rw [← hc.1, ← hc.2]
          refine ⟨hs₁, fun p pg hp => hold₁ p pg (hold p pg hp), fun l hl p hp => ?_⟩
          rw [Option.some.injEq] at hl
          rw [← hl] at hp
          rcases List.mem_cons.mp hp with rfl | hp
          · exact ⟨_, hold₁ _ _ (mapPage_new s .none a)⟩
          · exact hl₁ l₁ rfl p hp

theorem tlsInit_sealed (h : SealedBut k [] s) : SealedBut k [] (s.tlsInit k) := by
  unfold State.tlsInit
  split
  · exact ⟨⟨h.pages.lt, h.pages.mapped, h.pages.aligned, h.pages.distinct⟩, h.live, h.alloc, h.prot⟩
  · exact h

theorem tlsCreate_run {r : Int} (hc : s.tlsCreate k t size = some (r, s')) :
    (r = -1 ∧ s' = s.tlsInit k) ∨
    ∃ o s₁, (s.tlsInit k).createPages k (State.pageNum size (s.tlsInit k).pageSize) = (o, s₁) ∧
      ((o = none ∧ r = -1 ∧ s' = s₁) ∨ ∃ pages, o = some pages ∧ r = 0 ∧
        s' = s₁.add t { tid := t, tls := { size := size, pages := pages } }) := by
  simp only [State.tlsCreate] at hc
  split at hc
  · obtain ⟨rfl, rfl⟩ := Prod.mk.inj (Option.some.inj hc)
    exact .inl ⟨rfl, rfl⟩
  · split at hc
    · cases hc
    · obtain ⟨rfl, rfl⟩ := Prod.mk.inj (Option.some.inj hc)
      exact .inl ⟨rfl, rfl⟩
    · split at hc
      · next s₁ hpages =>
        obtain ⟨rfl, rfl⟩ := Prod.mk.inj (Option.some.inj hc)
        exact .inr ⟨none, s₁, hpages, .inl ⟨rfl, rfl, rfl⟩⟩
      · next pages s₁ hpages =>
        obtain ⟨rfl, rfl⟩ := Prod.mk.inj (Option.some.inj hc)
        exact .inr ⟨some pages, s₁, hpages, .inr ⟨pages, rfl, rfl, rfl⟩⟩

theorem tlsCreate_sealed {r : Int} (h : SealedBut k [] s) (hc : s.tlsCreate k t size = some (r, s')) :
    SealedBut k [] s' := by
  have hinit := tlsInit_sealed h
  obtain ⟨-, rfl⟩ | ⟨o, s₁, hpages, hcase⟩ := tlsCreate_run hc
  · exact hinit
  obtain ⟨hs₁, -, hl⟩ := createPages_sealed _ hinit hpages
  rcases hcase with ⟨-, -, rfl⟩ | ⟨pages, rfl, -, rfl⟩
  · exact hs₁
  · exact hs₁.add (hl pages rfl)

theorem sharePage_sealed (h : SealedBut k [] s) (hp : s.sharePage page = some s') :
    SealedBut k [] s' ∧ ∀ p pg, s.pages p = some pg → ∃ pg', s'.pages p = some pg' := by
  rw [State.sharePage] at hp
  obtain ⟨pg, hpg, hp⟩ := Option.bind_eq_some_iff.mp hp
  rw [Option.pure_def, Option.some.injEq, State.setRefCount] at hp
  rw [← hp]
  have hkeep : ∀ q qg, s.pages q = some qg → ∃ qg', Function.update s.pages page
      (some { pg with refCount := pg.refCount + 1 }) q = some qg' := by
    intro q qg hq
    by_cases hqp : q = page
    · rw [hqp, Function.update_self]
      exact ⟨_, rfl⟩
    · rw [Function.update_of_ne hqp]
      exact ⟨qg, hq⟩
  have hold : ∀ q qg', Function.update s.pages page (some { pg with refCount := pg.refCount + 1 }) q = some qg' →
      ∃ qg, s.pages q = some qg ∧ qg.address = qg'.address := by
    intro q qg' hq
    by_cases hqp : q = page
    · rw [hqp, Function.update_self, Option.some.injEq] at hq
      rw [hqp, ← hq]
      exact ⟨pg, hpg, rfl⟩
    · rw [Function.update_of_ne hqp] at hq
      exact ⟨qg', hq, rfl⟩
  refine ⟨h.same ⟨rfl, rfl, rfl, rfl, rfl⟩ (h.pages.of_address le_rfl hold fun q qg' hq => ?_) hkeep
    fun q qg' hq => .inl ?_, hkeep⟩
  · obtain ⟨qg, hqg, hadr⟩ := hold q qg' hq
    rw [← hadr]
    exact h.pages.mapped q qg hqg
  · obtain ⟨qg, hqg, hadr⟩ := hold q qg' hq
    rw [← hadr]
    exact h.none hqg

theorem tlsClone_run {r : Int} (hc : s.tlsClone t u = some (r, s')) :
    (r = -1 ∧ s' = s) ∨
    ∃ e it s₁, s.find t = some none ∧ s.find u = some (some e) ∧ s.items e = some it ∧
      it.tls.pages.foldlM State.sharePage s = some s₁ ∧ r = 0 ∧ s' = s₁.add t { tid := t, tls := it.tls } := by
  rw [State.tlsClone] at hc
  obtain ⟨o, ho, hc⟩ := Option.bind_eq_some_iff.mp hc
  obtain ⟨o', ho', hc⟩ := Option.bind_eq_some_iff.mp hc
  cases o with
  | some d =>
    obtain ⟨rfl, rfl⟩ := Prod.mk.inj (Option.some.inj hc)
    exact .inl ⟨rfl, rfl⟩
  | none =>
    cases o' with
    | none =>
      obtain ⟨rfl, rfl⟩ := Prod.mk.inj (Option.some.inj hc)
      exact .inl ⟨rfl, rfl⟩
    | some e =>
      obtain ⟨it, hi, hc⟩ := Option.bind_eq_some_iff.mp hc
      obtain ⟨s₁, h₁, hc⟩ := Option.bind_eq_some_iff.mp hc
      obtain ⟨rfl, rfl⟩ := Prod.mk.inj (Option.some.inj hc)
      exact .inr ⟨e, it, s₁, ho, ho', hi, h₁, rfl, rfl⟩

theorem tlsClone_sealed {r : Int} (h : SealedBut k [] s) (hc : s.tlsClone t u = some (r, s')) :
    SealedBut k [] s' := by
  obtain ⟨-, rfl⟩ | ⟨e, it, s₁, -, -, hi, h₁, -, rfl⟩ := tlsClone_run hc
  · exact h
  have hloop : SealedBut k [] s₁ ∧ ∀ p pg, s.pages p = some pg → ∃ pg', s₁.pages p = some pg' := by
    refine foldlM_invariant (I := fun _ s₁ => SealedBut k [] s₁ ∧
      ∀ p pg, s.pages p = some pg → ∃ pg', s₁.pages p = some pg') ⟨h, fun p pg hp => ⟨pg, hp⟩⟩ ?_ h₁
    intro done p _ s₁ s₂ _ hI hp
    obtain ⟨hs₂, hkeep⟩ := sharePage_sealed hI.1 hp
    refine ⟨hs₂, fun q qg hq => ?_⟩
    obtain ⟨qg', hq'⟩ := hI.2 q qg hq
    exact hkeep q qg' hq'
  refine hloop.1.add fun p hp => ?_
  obtain ⟨pg, hpg⟩ := h.alloc _ it hi p hp
  exact hloop.2 p pg hpg

/-! ## Runs -/

theorem step_sealed {c : UInt64 × Call} {r : Ret} (h : SealedBut k [] s) (hc : c.2.isDestroy = false)
    (hstep : s.step k c = some (r, s')) : SealedBut k [] s' := by
  obtain ⟨t, c⟩ := c
  cases c with
  | destroy => cases hc
  | create size =>
    obtain ⟨r₁, h₁⟩ := returned_of_map hstep fun _ => rfl
    exact tlsCreate_sealed h h₁
  | write offset length buffer =>
    obtain ⟨r₁, h₁⟩ := returned_of_map hstep fun _ => rfl
    exact tlsWrite_sealed h h₁
  | read offset length =>
    obtain ⟨r₁, h₁⟩ := returned_of_map hstep fun _ => rfl
    exact tlsRead_sealed h h₁
  | clone tid =>
    obtain ⟨r₁, h₁⟩ := returned_of_map hstep fun _ => rfl
    exact tlsClone_sealed h h₁

theorem init_sealed (k : Kernel) : SealedBut k [] {} :=
  ⟨(init_inv k).pages, init_live, (init_inv k).alloc, fun p pg hp => by cases hp⟩

/-- Between any two calls of a run without tls_destroy, every page in a slot of the table is
    PROT_NONE, and so is every Page that tls_write has taken out of a slot. -/
theorem run_protected {es : List ((UInt64 × Call) × Ret)}
    (hrun : Run (Guarded (State.step k) fun _ c => c.2.isDestroy = false) {} es s) :
    Protected s ∧ ∀ p pg, s.pages p = some pg → s.mem.prot pg.address = .none := by
  have h : SealedBut k [] s :=
    hrun.invariant (init_sealed k) fun s e s' hs hstep => step_sealed hs hstep.1 hstep.2
  exact ⟨h.protected, fun p pg hp => h.none hp⟩

/-- Two threads share two pages; one of them writes across the pages, and the other reads. -/
theorem run_protected_clone : ∃ es s, Run (Guarded (State.step .upward) fun _ c => c.2.isDestroy = false) {} es s ∧
    Protected s ∧ s.slots 0 = [0, 1] ∧ s.slots 1 = [2, 3] := by
  obtain ⟨es, s, hrun, hp⟩ := run_of_exec .upward (fun _ c => c.2.isDestroy = false)
    [(1, .create 5000), (24, .clone 1), (24, .write 4095 2 fun _ => 7), (1, .read 4095 2)]
    (fun _ s => decide (s.slots 0 = [0, 1] ∧ s.slots 1 = [2, 3])) (by decide +kernel)
  obtain ⟨h0, h1⟩ := of_decide_eq_true hp
  exact ⟨es, s, hrun, (run_protected hrun).1, h0, h1⟩

end EC440.Tls
