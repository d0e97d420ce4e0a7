/-
  The byte loop of tls_write. A round copies the page it is about to write when the page is
  shared, and stores one byte. `Writing` is the loop's invariant: the caller's LSA holds the
  bytes written so far, every other LSA the bytes it had before the call.
-/
import EC440.Tls.Index
import EC440.Tls.Copy

namespace EC440.Tls

open EC440.Lib

variable {k : Kernel} {s s' s₀ : State} {t : UInt64} {e i j n page p q a o off : Nat} {it : Item}
  {pg : Page} {b : UInt8} {bytes : List UInt8}

/-- The pages of an LSA are unprotected for tls_write. -/
def Writable (s : State) (l : List Nat) : Prop :=
  ∀ p ∈ l, ∀ pg, s.pages p = some pg → s.mem.prot pg.address = .write

theorem copied_writable (hs : Inv k s) (hi : s.items e = some it) (hn : it.tls.pages[n]? = some page)
    (hpg : s.pages page = some pg) (ha : a ∉ s.mem.mapped) (hw : Writable s it.tls.pages) :
    Writable (s.copied e it n page pg a) (it.setPage n s.nextPage).tls.pages := by
  have hadr : ∀ q qg, s.pages q = some qg → qg.address ≠ a := fun q qg h heq => ha (heq ▸ hs.pages.mapped q qg h)
  intro q hq qg hqg
  obtain ⟨m, hm⟩ := List.getElem?_of_mem hq
  rw [copied_slot hn] at hm
  rcases copied_cases e it n hqg with ⟨-, rfl⟩ | ⟨rfl, -⟩ | ⟨hqp, hqg⟩
  · exact (Function.update_of_ne (hadr page pg hpg).symm _ _).trans (Function.update_self _ _ _)
  · -- the page that was copied is in no other slot
    by_cases hmn : m = n
    · rw [if_pos hmn, Option.some.injEq] at hm
      exact absurd hm.symm (hs.pages.ne_next hpg)
    · rw [if_neg hmn] at hm
      obtain ⟨hlt, -⟩ := List.getElem?_eq_some_iff.mp hm
      exact absurd ((List.getElem?_inj hlt (hs.nodup e it hi)).mp (hm.trans hn.symm)) hmn
  · have hmem : q ∈ it.tls.pages := by
      by_cases hmn : m = n
      · rw [if_pos hmn, Option.some.injEq] at hm
        exact absurd hm.symm (hs.pages.ne_next hqg)
      · rw [if_neg hmn] at hm
        exact List.mem_of_getElem? hm
    have hne : qg.address ≠ pg.address := fun h => hqp (hs.pages.distinct q page qg pg hqg hpg h)
    refine ((Function.update_of_ne hne _ _).trans (Function.update_of_ne (hadr q qg hqg) _ _)).trans ?_
    exact hw q hmem qg hqg

/-! ## Storing a byte -/

def State.stored (x : Nat) (b : UInt8) (s : State) : State :=
  { s with mem := { s.mem with byte := Function.update s.mem.byte x b } }

theorem stored_same (x : Nat) (b : UInt8) (s : State) : SameItems s (s.stored x b) := ⟨rfl, rfl, rfl, rfl, rfl⟩

theorem Inv.stored (hs : Inv k s) (x : Nat) (b : UInt8) : Inv k (s.stored x b) :=
  hs.same (stored_same x b s) ⟨hs.pages.lt, hs.pages.mapped, hs.pages.aligned, hs.pages.distinct⟩
    fun _ pg hp _ => ⟨pg, hp, rfl⟩

theorem storeByte_eq (hs : PagesOk k s) (hpg : s.pages p = some pg) (hw : s.mem.prot pg.address = .write)
    (hps : s.pageSize = k.getpagesize) {index : Int} (hidx : Leads k.getpagesize index j) (b : UInt8) :
    s.storeByte p index b = some (s.stored (pg.address + j % k.getpagesize) b) := by
  rw [State.storeByte, hpg, Option.bind_eq_bind, Option.bind_some, hps, hidx.2, Memory.store,
    base_add (hs.aligned p pg hpg) (Nat.mod_lt j (getpagesize_pos k)), hw, if_pos ⟨hs.mapped p pg hpg, rfl⟩]
  rw [← hps]
  rfl

theorem stored_content (hs : PagesOk k s) (hpg : s.pages p = some pg) (ho : o < k.getpagesize) {qg : Page} (hq : s.pages q = some qg) (hoff : off < k.getpagesize) (b : UInt8) :
    (s.stored (pg.address + o) b).content q off = if q = p ∧ off = o then b else s.content q off := by
  rw [State.content, show (s.stored (pg.address + o) b).pages q = s.pages q from rfl, State.content, hq]
  by_cases h : q = p ∧ off = o
  · rw [if_pos h]
    obtain ⟨rfl, rfl⟩ := h
    rw [hpg, Option.some.injEq] at hq
    rw [← hq]
    exact Function.update_self _ _ _
  · rw [if_neg h]
    refine Function.update_of_ne (fun heq => h ?_) _ _
    have hadr := page_unique (hs.aligned q qg hq) (hs.aligned p pg hpg) hoff ho heq
    refine ⟨hs.distinct q p qg pg hq hpg hadr, ?_⟩
    omega

/-- The bytes of an LSA that does not hold the page, -/
theorem stored_bytesOf (hs : Inv k s) (hpg : s.pages p = some pg) (ho : o < k.getpagesize)
    (hi : s.items i = some it) (hp : p ∉ it.tls.pages) (b : UInt8) :
    (s.stored (pg.address + o) b).bytesOf it.tls = s.bytesOf it.tls := by
  have hps := hs.pageSize_eq hi
  refine bytesOf_content rfl (hps ▸ getpagesize_pos k) fun q hq off hoff => ?_
  obtain ⟨qg, hqg⟩ := hs.alloc i it hi q hq
  rw [stored_content hs.pages hpg ho hqg (hps ▸ hoff), if_neg]
  exact fun h => hp (h.1 ▸ hq)

/-- and of the one that holds it in the slot of byte `j`. -/
theorem stored_bytesOf_self (hs : Inv k s) (hi : s.items e = some it)
    (hn : it.tls.pages[j / k.getpagesize]? = some p) (hpg : s.pages p = some pg) (b : UInt8) :
    (s.stored (pg.address + j % k.getpagesize) b).bytesOf it.tls = (s.bytesOf it.tls).set j b := by
  have hps := hs.pageSize_eq hi
  have hpos := getpagesize_pos k
  apply List.ext_getElem
  · rw [List.length_set, bytesOf_length, bytesOf_length]
  intro m hm _
  rw [bytesOf_length] at hm
  obtain ⟨q, qg, hq, hqg⟩ := hs.slot hi hm
  have hbyte : ∀ s' : State, s'.pageSize = k.getpagesize →
      s'.byteAt it.tls m = s'.content q (m % k.getpagesize) := by
    intro s' h
    rw [State.byteAt, h, hq]
  rw [List.getElem_set]
  simp only [State.bytesOf, List.getElem_map, List.getElem_range]
  rw [hbyte _ hps, hbyte (s.stored _ b) hps, stored_content hs.pages hpg (Nat.mod_lt _ hpos) hqg (Nat.mod_lt _ hpos)]
  have hiff : (q = p ∧ m % k.getpagesize = j % k.getpagesize) ↔ j = m := by
    constructor
    · intro h
      obtain ⟨hqp, hmod⟩ := h
      rw [hqp] at hq
      obtain ⟨hlt, -⟩ := List.getElem?_eq_some_iff.mp hq
      have hdiv := (List.getElem?_inj hlt (hs.nodup e it hi)).mp (hq.trans hn.symm)
      rw [← Nat.div_add_mod m k.getpagesize, ← Nat.div_add_mod j k.getpagesize, hdiv, hmod]
    · rintro rfl
      rw [hn, Option.some.injEq] at hq
      exact ⟨hq.symm, rfl⟩
  simp only [hiff]

/-! ## The loop -/

/-- A tls_write that began in `s₀` has left `bytes` in the LSA `e` of thread `t`. -/
structure Wrote (k : Kernel) (s₀ : State) (t : UInt64) (e : Nat) (size : UInt32) (bytes : List UInt8)
    (s : State) : Prop where
  inv : Inv k s
  noLeak : NoLeak s₀ → NoLeak s
  item : ∃ it, s.Owns t e it ∧ it.tls.size = size ∧ s.bytesOf it.tls = bytes
  table : s.table = s₀.table
  nextItem : s.nextItem = s₀.nextItem
  items : ∀ i, i ≠ e → s.items i = s₀.items i
  others : ∀ i it, i ≠ e → s.items i = some it → s.bytesOf it.tls = s₀.bytesOf it.tls

structure Writing (k : Kernel) (s₀ : State) (t : UInt64) (e : Nat) (size : UInt32) (bytes : List UInt8)
    (s : State) : Prop extends Wrote k s₀ t e size bytes s where
  writable : ∀ it, s.items e = some it → Writable s it.tls.pages

theorem Wrote.reprotected {size : UInt32} (h : Wrote k s₀ t e size bytes s) (hre : Reprotected s s') :
    Wrote k s₀ t e size bytes s' where
  inv := hre.inv h.inv
  noLeak := fun h₀ => hre.noLeak (h.noLeak h₀)
  item := by
    obtain ⟨it, ⟨hi, ht⟩, hsize, hbytes⟩ := h.item
    exact ⟨it, ⟨hre.same.items ▸ hi, ht⟩, hsize, by rw [hre.bytesOf]; exact hbytes⟩
  table := hre.same.table.trans h.table
  nextItem := hre.same.nextItem.trans h.nextItem
  items := by rw [hre.same.items]; exact h.items
  others := by rw [hre.same.items, hre.bytesOf]; exact h.others

/-- A byte is stored in a page that only the LSA `e` holds. -/
theorem Writing.store {size : UInt32} (h : Writing k s₀ t e size bytes s) (hi : s.items e = some it)
    (hn : it.tls.pages[j / k.getpagesize]? = some p) (hpg : s.pages p = some pg) (hrc : s.refs p = 1)
    (b : UInt8) :
    Writing k s₀ t e size (bytes.set j b) (s.stored (pg.address + j % k.getpagesize) b) := by
  have hs := h.inv
  have ho := Nat.mod_lt j (getpagesize_pos k)
  refine ⟨⟨hs.stored _ b, h.noLeak, ?_, h.table, h.nextItem, h.items, fun i jt hne hj => ?_⟩, h.writable⟩
  · obtain ⟨it', ⟨hi', ht⟩, hsize, hbytes⟩ := h.item
    rw [hi, Option.some.injEq] at hi'
    rw [← hi'] at ht hsize hbytes
    refine ⟨it, ⟨hi, ht⟩, hsize, ?_⟩
    rw [← hbytes]
    exact stored_bytesOf_self hs hi hn hpg b
  · have hj' : s.items i = some jt := hj
    have hp : p ∉ jt.tls.pages := by
      rw [← slots_some hj']
      exact refs_eq_one hrc (hs.items_lt e it hi) (hs.items_lt i jt hj')
        (by rw [slots_some hi]; exact List.mem_of_getElem? hn) hne
    rw [stored_bytesOf hs hpg ho hj' hp]
    exact h.others i jt hne hj

/-- The page of byte `j` is copied. -/
theorem Writing.copied {size : UInt32} (h : Writing k s₀ t e size bytes s) (hi : s.items e = some it)
    (hn : it.tls.pages[n]? = some page) (hpg : s.pages page = some pg) (hrc : 1 < pg.refCount)
    (ha : a ∉ s.mem.mapped) (hal : k.getpagesize ∣ a) :
    Writing k s₀ t e size bytes (s.copied e it n page pg a) := by
  have hs := h.inv
  have hitems : ∀ i, i ≠ e → (s.copied e it n page pg a).items i = s.items i :=
    fun i hne => Function.update_of_ne hne _ _
  have hitem : (s.copied e it n page pg a).items e = some (it.setPage n s.nextPage) := Function.update_self _ _ _
  refine ⟨⟨hs.copied hi hn hpg ha hal, fun h₀ => copied_noLeak hs hi hn hpg (h.noLeak h₀) hrc a, ?_, h.table,
    h.nextItem, fun i hne => (hitems i hne).trans (h.items i hne), fun i jt hne hj => ?_⟩, fun jt hj => ?_⟩
  · obtain ⟨it', ⟨hi', ht⟩, hsize, hbytes⟩ := h.item
    rw [hi, Option.some.injEq] at hi'
    rw [← hi'] at ht hsize hbytes
    refine ⟨it.setPage n s.nextPage, ⟨hitem, ht⟩, hsize, ?_⟩
    rw [← hbytes]
    exact copied_bytesOf_self hs hi hn hpg ha hal
  · rw [hitems i hne] at hj
    rw [copied_bytesOf hs hi hpg hj ha hal]
    exact h.others i jt hne hj
  · rw [hitem, Option.some.injEq] at hj
    rw [← hj]
    exact copied_writable hs hi hn hpg ha (h.writable it hi)

/-! ## One round -/

/-- The page of byte `j` is copied first when it is shared; the round does not return where mmap
    fails. -/
theorem writeByte_cases {index : Int} (hs : Inv k s) (hi : s.items e = some it)
    (hw : Writable s it.tls.pages) (hj : j < it.tls.size.toNat) (hidx : Leads k.getpagesize index j)
    (buffer : Nat → UInt8) (c : Nat) :
    ∃ p pg, it.tls.pages[j / k.getpagesize]? = some p ∧ s.pages p = some pg ∧
      ((¬ 1 < pg.refCount ∧
          s.writeByte k e buffer c index = some (s.stored (pg.address + j % k.getpagesize) (buffer c))) ∨
        (1 < pg.refCount ∧ ∃ a, a ∉ s.mem.mapped ∧ k.getpagesize ∣ a ∧
          s.writeByte k e buffer c index =
            some ((s.copied e it (j / k.getpagesize) p pg a).stored (a + j % k.getpagesize) (buffer c))) ∨
        (¬ k.Maps ∧ s.writeByte k e buffer c index = none)) := by
  have hps := hs.pageSize_eq hi
  obtain ⟨p, pg, hp, hpg⟩ := hs.slot hi hj
  have hmem := List.mem_of_getElem? hp
  refine ⟨p, pg, hp, hpg, ?_⟩
  simp only [State.writeByte, hi, Option.bind_eq_bind, Option.bind_some, hps, hidx.1, hp, hpg]
  by_cases hrc : 1 < pg.refCount
  · rw [if_pos hrc]
    cases hm : k.mmap s.mem.mmaps s.mem.mapped with
    | none =>
      refine .inr (.inr ⟨fun hk => hk _ _ hm, ?_⟩)
      rw [State.copyPage, newPage_fail hm]
      rfl
    | some a =>
      have ha : a ∉ s.mem.mapped := k.fresh _ _ a hm
      have hal : k.getpagesize ∣ a := k.aligned _ _ a hm
      have hnext := copied_next (a := a) hs.pages hpg e it (j / k.getpagesize)
      have hprot : (s.copied e it (j / k.getpagesize) p pg a).mem.prot a = .write :=
        copied_writable hs hi hp hpg ha hw _
          (List.mem_of_getElem? ((copied_slot hp (j / k.getpagesize)).trans (if_pos rfl))) _ hnext
      refine .inr (.inl ⟨hrc, a, ha, hal, ?_⟩)
      rw [copyPage_eq hs.pages hpg ha hm (hw p hmem pg hpg), Option.bind_some]
      exact storeByte_eq (hs.pages.copied hpg e it _ ha hal) hnext hprot hps hidx _
  · rw [if_neg hrc]
    exact .inl ⟨hrc, storeByte_eq hs.pages hpg (hw p hmem pg hpg) hps hidx _⟩

/-- A round that returns keeps the invariant of the loop. -/
theorem Writing.round {size : UInt32} {index : Int} (h : Writing k s₀ t e size bytes s) (hj : j < size.toNat)
    (hidx : Leads k.getpagesize index j) (buffer : Nat → UInt8) (c : Nat)
    (hr : s.writeByte k e buffer c index = some s') :
    Writing k s₀ t e size (bytes.set j (buffer c)) s' := by
  have hs := h.inv
  obtain ⟨it, ⟨hi, -⟩, hsize, -⟩ := h.item
  obtain ⟨p, pg, hp, hpg, hcase⟩ := writeByte_cases hs hi (h.writable it hi) (hsize ▸ hj) hidx buffer c
  obtain ⟨hrc, heq⟩ | ⟨hrc, a, ha, hal, heq⟩ | ⟨-, heq⟩ := hcase
  · have hpos := hs.refs_pos hi (List.mem_of_getElem? hp)
    have hone : s.refs p = 1 := by
      have := hs.refCount p pg hpg hpos
      omega
    rw [heq, Option.some.injEq] at hr
    rw [← hr]
    exact h.store hi hp hpg hone (buffer c)
  · have hitem : (s.copied e it (j / k.getpagesize) p pg a).items e =
        some (it.setPage (j / k.getpagesize) s.nextPage) := Function.update_self _ _ _
    have hone : (s.copied e it (j / k.getpagesize) p pg a).refs s.nextPage = 1 := by
      have hrefs := copied_refs hs hi hp hpg a s.nextPage
      rw [if_neg (hs.pages.ne_next hpg).symm, if_pos rfl, hs.refs_next] at hrefs
      exact hrefs
    rw [heq, Option.some.injEq] at hr
    rw [← hr]
    exact (h.copied hi hp hpg hrc ha hal).store hitem ((copied_slot hp _).trans (if_pos rfl))
      (copied_next hs.pages hpg e it _) hone (buffer c)
  · rw [heq] at hr
    cases hr

/-- Every round returns when no mmap fails. -/
theorem Writing.returns {size : UInt32} {index : Int} (hk : k.Maps) (h : Writing k s₀ t e size bytes s)
    (hj : j < size.toNat) (hidx : Leads k.getpagesize index j) (buffer : Nat → UInt8) (c : Nat) :
    ∃ s', s.writeByte k e buffer c index = some s' := by
  obtain ⟨it, ⟨hi, -⟩, hsize, -⟩ := h.item
  obtain ⟨p, pg, -, -, hcase⟩ := writeByte_cases h.inv hi (h.writable it hi) (hsize ▸ hj) hidx buffer c
  obtain ⟨-, heq⟩ | ⟨-, a, -, -, heq⟩ | ⟨hno, -⟩ := hcase
  · exact ⟨_, heq⟩
  · exact ⟨_, heq⟩
  · exact absurd hk hno

/-- `n` bytes of `buffer` in place of those from `off` on. -/
def written (bytes : List UInt8) (off n : Nat) (buffer : Nat → UInt8) : List UInt8 :=
  bytes.take off ++ (List.range n).map buffer ++ bytes.drop (off + n)

theorem written_zero (bytes : List UInt8) (off : Nat) (buffer : Nat → UInt8) :
    written bytes off 0 buffer = bytes := by
  simp [written]

theorem written_succ {bytes : List UInt8} {off n : Nat} (h : off + n < bytes.length) (buffer : Nat → UInt8) :
    (written bytes off n buffer).set (off + n) (buffer n) = written bytes off (n + 1) buffer := by
  have hlen : (bytes.take off ++ (List.range n).map buffer).length = off + n := by
    simp only [List.length_append, List.length_take, List.length_map, List.length_range]
    omega
  rw [written, List.set_append_right _ _ (by omega), hlen, Nat.sub_self, ← List.getElem_cons_drop h,
    List.set_cons_zero, written, List.range_succ, List.map_append, ← List.append_assoc, List.append_assoc]
  simp [Nat.add_assoc]

end EC440.Tls
