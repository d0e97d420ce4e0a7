/-
  The copy tls_write makes of a shared page before it writes to it. The copy takes the page's
  place in one slot of the caller's LSA; the counter of the page goes down by one, and no LSA's
  bytes change.
-/
import EC440.Tls.Steps

namespace EC440.Tls

open EC440.Lib

variable {k : Kernel} {s s' s₀ : State} {t : UInt64} {e i n page p q a off : Nat} {it : Item}
  {pg : Page}

def Item.setPage (it : Item) (n q : Nat) : Item :=
  { it with tls := { it.tls with pages := it.tls.pages.set n q } }

/-- The bytes after memcpy of the page at `src` to a new page at `dst`. -/
def State.copyBytes (s : State) (dst src x : Nat) : UInt8 :=
  if dst ≤ x ∧ x < dst + s.pageSize then s.mem.byte (src + (x - dst)) else s.mem.byte x

/-- The state after a private copy of `page`, at address `a`, has come into slot `n` of the LSA. -/
def State.copied (e : Nat) (it : Item) (n page : Nat) (pg : Page) (a : Nat) (s : State) : State :=
  { s.mapPage .write a with
    items := Function.update s.items e (some (it.setPage n s.nextPage))
    pages := Function.update (s.mapPage .write a).pages page (some { pg with refCount := pg.refCount - 1 })
    mem :=
      { (s.mapPage .write a).mem with
        byte := (s.mapPage .write a).copyBytes a pg.address
        prot := Function.update (s.mapPage .write a).mem.prot pg.address .none } }

theorem copyPage_eq (hs : PagesOk k s) (hpg : s.pages page = some pg) (ha : a ∉ s.mem.mapped)
    (hm : k.mmap s.mem.mmaps s.mem.mapped = some a) (hw : s.mem.prot pg.address = .write)
    (e : Nat) (it : Item) (n : Nat) :
    s.copyPage k e it n page pg = some (s.nextPage, s.copied e it n page pg a) := by
  have hadr : pg.address ≠ a := fun h => ha (h ▸ hs.mapped page pg hpg)
  have hmap : pg.address ∈ (s.mapPage .write a).mem.mapped := Finset.mem_insert_of_mem (hs.mapped page pg hpg)
  have hcpy : (s.mapPage .write a).mem.memcpy (s.mapPage .write a).pageSize a pg.address =
      some { (s.mapPage .write a).mem with byte := (s.mapPage .write a).copyBytes a pg.address } := by
    have hw' : (s.mapPage .write a).mem.prot pg.address = .write := (Function.update_of_ne hadr _ _).trans hw
    have ha' : (s.mapPage .write a).mem.prot a = .write := Function.update_self _ _ _
    have hma : a ∈ (s.mapPage .write a).mem.mapped := Finset.mem_insert_self _ _
    rw [Memory.memcpy, hw', ha', if_pos ⟨⟨hma, rfl⟩, hmap, rfl⟩]
    rfl
  simp only [State.copyPage, newPage_map hm, Option.bind_eq_bind, Option.bind_some, mapPage_new, hcpy]
  rw [State.tlsProtect, tlsUnprotect_eq (?_ : _ = some { pg with refCount := pg.refCount - 1 }) ?_]
  · rfl
  · exact Function.update_self _ _ _
  · exact hmap

section
variable (hs : PagesOk k s) (hpg : s.pages page = some pg) (e : Nat) (it : Item) (n : Nat)
include hs hpg

theorem copied_next :
    (s.copied e it n page pg a).pages s.nextPage = some { address := a, refCount := 1 } := by
  rw [State.copied]
  dsimp only
  rw [Function.update_of_ne (hs.ne_next hpg).symm, mapPage_new]

omit hs hpg in
theorem copied_page :
    (s.copied e it n page pg a).pages page = some { pg with refCount := pg.refCount - 1 } :=
  Function.update_self _ _ _

omit hpg in
theorem copied_other {qg : Page} (hq : s.pages q = some qg) (hne : q ≠ page) :
    (s.copied e it n page pg a).pages q = some qg := by
  rw [State.copied]
  dsimp only
  rw [Function.update_of_ne hne, hs.mapPage_old hq]

omit hpg in
theorem copied_keep {qg : Page} (hq : s.pages q = some qg) :
    ∃ qg', (s.copied e it n page pg a).pages q = some qg' := by
  by_cases hqp : q = page
  · rw [hqp]
    exact ⟨_, copied_page e it n⟩
  · exact ⟨qg, copied_other hs e it n hq hqp⟩

omit hs hpg in
theorem copied_cases {qg : Page} (h : (s.copied e it n page pg a).pages q = some qg) :
    (q = s.nextPage ∧ qg = { address := a, refCount := 1 }) ∨
    (q = page ∧ qg = { pg with refCount := pg.refCount - 1 }) ∨ (q ≠ page ∧ s.pages q = some qg) := by
  by_cases hq : q = page
  · rw [hq, copied_page, Option.some.injEq] at h
    exact .inr (.inl ⟨hq, h.symm⟩)
  · rw [State.copied] at h
    dsimp only at h
    rw [Function.update_of_ne hq] at h
    rcases mapPage_cases h with h | h
    · exact .inl h
    · exact .inr (.inr ⟨hq, h⟩)

/-- Every page of the copied state lies where a page of the state with the new mapping lies. -/
theorem copied_address {qg : Page} (h : (s.copied e it n page pg a).pages q = some qg) :
    ∃ qg', (s.mapPage .write a).pages q = some qg' ∧ qg'.address = qg.address := by
  rcases copied_cases e it n h with ⟨rfl, rfl⟩ | ⟨rfl, rfl⟩ | ⟨-, h⟩
  · exact ⟨_, mapPage_new s .write a, rfl⟩
  · exact ⟨_, hs.mapPage_old hpg _ _, rfl⟩
  · exact ⟨_, hs.mapPage_old h _ _, rfl⟩

theorem PagesOk.copied (ha : a ∉ s.mem.mapped) (hal : k.getpagesize ∣ a) :
    PagesOk k (s.copied e it n page pg a) := by
  have hs₁ := hs.mapPage ha hal .write
  refine hs₁.of_address le_rfl (fun q qg h => copied_address hs hpg e it n h) fun q qg h => ?_
  obtain ⟨qg', h', hadr⟩ := copied_address hs hpg e it n h
  exact hadr ▸ hs₁.mapped q qg' h'

variable (hps : s.pageSize = k.getpagesize) (ha : a ∉ s.mem.mapped) (hal : k.getpagesize ∣ a)
include hps ha hal

omit hpg in
theorem copied_byte {qg : Page} (hq : s.pages q = some qg) (hoff : off < k.getpagesize) :
    (s.copied e it n page pg a).mem.byte (qg.address + off) = s.mem.byte (qg.address + off) := by
  have hqa : qg.address ≠ a := fun h => ha (h ▸ hs.mapped q qg hq)
  have hout : (s.copied e it n page pg a).mem.byte (qg.address + off) =
      (s.mapPage .write a).mem.byte (qg.address + off) :=
    if_neg (show ¬ (_ ∧ _ < a + s.pageSize) from hps ▸ not_in_page (hs.aligned q qg hq) hal hoff hqa)
  rw [hout]
  exact hs.mapPage_byte hps ha hal hq hoff .write

/-- Old pages keep their bytes, -/
theorem copied_content {qg : Page} (hq : s.pages q = some qg) (hoff : off < k.getpagesize) :
    (s.copied e it n page pg a).content q off = s.content q off := by
  rw [State.content, State.content, hq]
  by_cases hne : q = page
  · rw [hne, hpg, Option.some.injEq] at hq
    rw [hne, copied_page, ← hq]
    have hbyte : (s.copied e it n page pg a).mem.byte (pg.address + off) = _ :=
      copied_byte hs e it n hps ha hal hpg hoff
    exact hbyte
  · rw [copied_other hs e it n hq hne]
    exact copied_byte hs e it n hps ha hal hq hoff

/-- and the copy has those of the page it was made of. -/
theorem copied_content_next (hoff : off < k.getpagesize) :
    (s.copied e it n page pg a).content s.nextPage off = s.content page off := by
  rw [State.content, copied_next hs hpg, State.content, hpg]
  have hin : a ≤ a + off ∧ a + off < a + s.pageSize := ⟨by omega, by omega⟩
  have hcopy : (s.copied e it n page pg a).mem.byte (a + off) =
      (s.mapPage .write a).mem.byte (pg.address + (a + off - a)) := if_pos hin
  rw [Nat.add_sub_cancel_left] at hcopy
  exact hcopy.trans (hs.mapPage_byte hps ha hal hpg hoff .write)

end

/-! ## The invariant after a copy -/

theorem Inv.refs_next (hs : Inv k s) : s.refs s.nextPage = 0 := by
  apply refs_eq_zero.mpr
  intro i _ hi
  obtain ⟨it, hit, hp⟩ := mem_slots hi
  obtain ⟨pg, hpg⟩ := hs.alloc i it hit _ hp
  exact hs.pages.ne_next hpg rfl

theorem Inv.refs_pos (hs : Inv k s) (hi : s.items e = some it) (hp : p ∈ it.tls.pages) : 0 < s.refs p :=
  Lib.refs_pos (hs.items_lt e it hi) (by rw [slots_some hi]; exact hp)

theorem copied_items {jt : Item} (h : (s.copied e it n page pg a).items i = some jt) :
    (i = e ∧ jt = it.setPage n s.nextPage) ∨ s.items i = some jt := by
  by_cases hie : i = e
  · rw [hie, show (s.copied e it n page pg a).items e = _ from Function.update_self _ _ _,
      Option.some.injEq] at h
    exact .inl ⟨hie, h.symm⟩
  · rw [show (s.copied e it n page pg a).items i = s.items i from Function.update_of_ne hie _ _] at h
    exact .inr h

/-- One LSA is changed; its thread stays. -/
theorem TableOk.setItem (hs : TableOk s) (hi : s.items e = some it) {it' : Item} (ht : it'.tid = it.tid)
    (hitems : s'.items = Function.update s.items e (some it')) (htable : s'.table = s.table)
    (hnext : s'.nextItem = s.nextItem) : TableOk s' := by
  have hold : ∀ i jt, s'.items i = some jt → ∃ jt₀, s.items i = some jt₀ ∧ jt₀.tid = jt.tid := by
    intro i jt h
    rw [hitems] at h
    by_cases hie : i = e
    · rw [hie, Function.update_self, Option.some.injEq] at h
      exact ⟨it, hie ▸ hi, by rw [← h, ht]⟩
    · rw [Function.update_of_ne hie] at h
      exact ⟨jt, h, rfl⟩
  refine ⟨fun i jt h => ?_, fun i jt h => ?_, fun i j jt jt' h h' heq => ?_⟩
  · obtain ⟨jt₀, h₀, -⟩ := hold i jt h
    rw [hnext]
    exact hs.items_lt i jt₀ h₀
  · obtain ⟨jt₀, h₀, ht₀⟩ := hold i jt h
    rw [htable, ← ht₀]
    exact hs.linked i jt₀ h₀
  · obtain ⟨jt₀, h₀, ht₀⟩ := hold i jt h
    obtain ⟨jt₁, h₁, ht₁⟩ := hold j jt' h'
    exact hs.owner i j jt₀ jt₁ h₀ h₁ (ht₀.trans (heq.trans ht₁.symm))

/-- The slots of the LSA after the copy. -/
theorem copied_slot (hn : it.tls.pages[n]? = some page) (m : Nat) : (it.setPage n s.nextPage).tls.pages[m]? =
    if m = n then some s.nextPage else it.tls.pages[m]? := by
  rw [Item.setPage]
  dsimp only
  obtain ⟨hlt, -⟩ := List.getElem?_eq_some_iff.mp hn
  rw [List.getElem?_set]
  by_cases hm : n = m
  · rw [if_pos hm, if_pos hlt, if_pos hm.symm]
  · rw [if_neg hm, if_neg (Ne.symm hm)]

section
variable (hs : Inv k s) (hi : s.items e = some it) (hn : it.tls.pages[n]? = some page)
  (hpg : s.pages page = some pg)
include hs hi hn hpg

theorem copied_refs (a q : Nat) :
    (s.copied e it n page pg a).refs q + (if q = page then 1 else 0) =
      s.refs q + (if q = s.nextPage then 1 else 0) := by
  have hlt := hs.items_lt e it hi
  have hitem : (s.copied e it n page pg a).items e = some (it.setPage n s.nextPage) :=
    Function.update_self _ _ _
  have hself : (s.copied e it n page pg a).slots e = it.tls.pages.set n s.nextPage := slots_some hitem
  have hother : ∀ j < s.nextItem, j ≠ e → (s.copied e it n page pg a).slots j = s.slots j := by
    intro j _ hj
    rw [State.slots, show (s.copied e it n page pg a).items j = s.items j from Function.update_of_ne hj _ _,
      State.slots]
  have hch := refs_change q hlt hother
  have hcount := count_set (r := q) hn (hs.pages.ne_next hpg).symm
  rw [hself, slots_some hi] at hch
  rw [State.refs, show (s.copied e it n page pg a).nextItem = s.nextItem from rfl, State.refs]
  omega

theorem Inv.copied (ha : a ∉ s.mem.mapped) (hal : k.getpagesize ∣ a) : Inv k (s.copied e it n page pg a) := by
  have hmem : page ∈ it.tls.pages := List.mem_of_getElem? hn
  have hne := hs.pages.ne_next hpg
  refine
    { toTableOk := hs.toTableOk.setItem hi (show (it.setPage n s.nextPage).tid = it.tid from rfl) rfl rfl rfl
      pages := hs.pages.copied hpg e it n ha hal
      init := fun _ _ _ => hs.init e it hi
      pageSize := hs.pageSize
      pageNum := ?_, nodup := ?_, alloc := ?_, refCount := ?_ }
  · intro i jt h
    rcases copied_items h with ⟨-, rfl⟩ | h
    · rw [Item.setPage]
      dsimp only
      rw [List.length_set]
      exact hs.pageNum e it hi
    · exact hs.pageNum i jt h
  · intro i jt h
    rcases copied_items h with ⟨-, rfl⟩ | h
    · refine (hs.nodup e it hi).set fun hin => ?_
      obtain ⟨qg, hq⟩ := hs.alloc e it hi _ hin
      exact hs.pages.ne_next hq rfl
    · exact hs.nodup i jt h
  · intro i jt h q hq
    rcases copied_items h with ⟨-, rfl⟩ | h
    · rcases List.mem_or_eq_of_mem_set hq with hq | rfl
      · obtain ⟨qg, hqg⟩ := hs.alloc e it hi q hq
        exact copied_keep hs.pages e it n hqg
      · exact ⟨_, copied_next hs.pages hpg e it n⟩
    · obtain ⟨qg, hqg⟩ := hs.alloc i jt h q hq
      exact copied_keep hs.pages e it n hqg
  · intro q qg h hpos
    have hrefs := copied_refs hs hi hn hpg a q
    rcases copied_cases e it n h with ⟨rfl, rfl⟩ | ⟨rfl, rfl⟩ | ⟨hqp, h⟩
    · rw [hs.refs_next, if_neg hne.symm, if_pos rfl] at hrefs
      dsimp only
      omega
    · rw [if_pos rfl, if_neg hne] at hrefs
      have hrc := hs.refCount q pg hpg (hs.refs_pos hi hmem)
      simp only [hrc]
      omega
    · rw [if_neg hqp, if_neg (hs.pages.ne_next h)] at hrefs
      rw [hs.refCount q qg h (by omega)]
      omega

theorem copied_noLeak (hleak : NoLeak s) (hrc : 1 < pg.refCount) (a : Nat) :
    NoLeak (s.copied e it n page pg a) := by
  intro q qg h
  have hmem : page ∈ it.tls.pages := List.mem_of_getElem? hn
  have hrefs := copied_refs hs hi hn hpg a q
  have hne := hs.pages.ne_next hpg
  rcases copied_cases e it n h with ⟨rfl, rfl⟩ | ⟨rfl, rfl⟩ | ⟨hqp, h⟩
  · rw [if_neg hne.symm, if_pos rfl] at hrefs
    omega
  · rw [if_pos rfl, if_neg hne] at hrefs
    have := hs.refCount q pg hpg (hs.refs_pos hi hmem)
    omega
  · have := hleak q qg h
    rw [if_neg hqp, if_neg (hs.pages.ne_next h)] at hrefs
    omega

omit hn in
/-- Copying changes no LSA's bytes: not the others', -/
theorem copied_bytesOf {i : Nat} {jt : Item} (hj : s.items i = some jt) (ha : a ∉ s.mem.mapped)
    (hal : k.getpagesize ∣ a) :
    (s.copied e it n page pg a).bytesOf jt.tls = s.bytesOf jt.tls := by
  have hps := hs.pageSize_eq hi
  refine bytesOf_content rfl (hps ▸ getpagesize_pos k) fun q hq off hoff => ?_
  obtain ⟨qg, hqg⟩ := hs.alloc i jt hj q hq
  exact copied_content hs.pages hpg e it n hps ha hal hqg (hps ▸ hoff)

/-- nor the caller's. -/
theorem copied_bytesOf_self (ha : a ∉ s.mem.mapped) (hal : k.getpagesize ∣ a) :
    (s.copied e it n page pg a).bytesOf (it.setPage n s.nextPage).tls = s.bytesOf it.tls := by
  have hps := hs.pageSize_eq hi
  have hpos : 0 < s.pageSize := hps ▸ getpagesize_pos k
  refine bytesOf_congr rfl fun j _ => ?_
  have hoff : j % s.pageSize < k.getpagesize := hps ▸ Nat.mod_lt _ hpos
  rw [State.byteAt, show (s.copied e it n page pg a).pageSize = s.pageSize from rfl,
    copied_slot hn, State.byteAt]
  by_cases hm : j / s.pageSize = n
  · rw [if_pos hm, hm, hn]
    exact copied_content_next hs.pages hpg e it n hps ha hal hoff
  · rw [if_neg hm]
    split
    · next q hq =>
      obtain ⟨qg, hqg⟩ := hs.alloc e it hi q (List.mem_of_getElem? hq)
      exact copied_content hs.pages hpg e it n hps ha hal hqg hoff
    · rfl

end

end EC440.Tls
