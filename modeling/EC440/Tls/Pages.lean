/-
  The pages behind the LSAs. `Inv` is what holds between two rounds of any loop of tls.c: every
  Page has a mapping of its own, a slot of a live LSA leads to a Page, and the counter of a Page
  that is in use is the number of slots that lead to it.

  `bytesOf` are the bytes of an LSA. The lemmas say what each primitive step does to them.
-/
import EC440.Lib.RefCount
import EC440.Tls.Table

namespace EC440.Tls

open EC440.Lib

namespace State

/-- The slots of a live LSA; a destroyed one has none. -/
def slots (s : State) (i : Nat) : List Nat :=
  match s.items i with
  | some it => it.tls.pages
  | none => []

/-- The number of slots of live LSAs that lead to `p`. -/
def refs (s : State) (p : Nat) : Nat := Lib.refs s.nextItem s.slots p

/-- The bytes of a page. -/
def content (s : State) (p off : Nat) : UInt8 :=
  match s.pages p with
  | some pg => s.mem.byte (pg.address + off)
  | none => 0

def byteAt (s : State) (tls : ThreadLocalStorage) (j : Nat) : UInt8 :=
  match tls.pages[j / s.pageSize]? with
  | some p => s.content p (j % s.pageSize)
  | none => 0

def bytesOf (s : State) (tls : ThreadLocalStorage) : List UInt8 :=
  (List.range tls.size.toNat).map (s.byteAt tls)

end State

structure PagesOk (k : Kernel) (s : State) : Prop where
  lt : ∀ p pg, s.pages p = some pg → p < s.nextPage
  mapped : ∀ p pg, s.pages p = some pg → pg.address ∈ s.mem.mapped
  aligned : ∀ p pg, s.pages p = some pg → k.getpagesize ∣ pg.address
  distinct : ∀ p q pg qg, s.pages p = some pg → s.pages q = some qg → pg.address = qg.address → p = q

structure Inv (k : Kernel) (s : State) : Prop extends TableOk s where
  pages : PagesOk k s
  init : ∀ i it, s.items i = some it → s.isFirstCall = false
  pageSize : s.isFirstCall = false → s.pageSize = k.getpagesize
  pageNum : ∀ i it, s.items i = some it → it.tls.pages.length = State.pageNum it.tls.size k.getpagesize
  nodup : ∀ i it, s.items i = some it → it.tls.pages.Nodup
  alloc : ∀ i it, s.items i = some it → ∀ p ∈ it.tls.pages, ∃ pg, s.pages p = some pg
  refCount : ∀ p pg, s.pages p = some pg → 0 < s.refs p → pg.refCount = s.refs p

/-- No Page is left without a slot. -/
def NoLeak (s : State) : Prop := ∀ p pg, s.pages p = some pg → 0 < s.refs p

section
variable {k : Kernel} {s s' : State} {t : UInt64} {i p q a : Nat} {it : Item} {pg : Page}

theorem slots_some (h : s.items i = some it) : s.slots i = it.tls.pages := by
  rw [State.slots, h]

theorem mem_slots (h : p ∈ s.slots i) : ∃ it, s.items i = some it ∧ p ∈ it.tls.pages := by
  unfold State.slots at h
  split at h
  · next it hi => exact ⟨it, hi, h⟩
  · cases h

theorem getpagesize_pos (k : Kernel) : 0 < k.getpagesize := Nat.two_pow_pos _

theorem Inv.pageSize_eq (h : Inv k s) (hi : s.items i = some it) : s.pageSize = k.getpagesize :=
  h.pageSize (h.init i it hi)

/-- The slot of a byte below the size exists. -/
theorem pageNum_spec {size : UInt32} {ps j : Nat} (hps : 0 < ps) (hj : j < size.toNat) :
    j / ps < State.pageNum size ps := by
  unfold State.pageNum
  rw [Nat.div_lt_iff_lt_mul hps]
  have h1 := Nat.div_add_mod size.toNat ps
  have h2 := Nat.mod_lt size.toNat hps
  rw [mul_comm] at h1
  rw [add_mul]
  split <;> omega

theorem Inv.slot (h : Inv k s) (hi : s.items i = some it) {j : Nat} (hj : j < it.tls.size.toNat) :
    ∃ p pg, it.tls.pages[j / k.getpagesize]? = some p ∧ s.pages p = some pg := by
  have hlt : j / k.getpagesize < it.tls.pages.length := by
    rw [h.pageNum i it hi]
    exact pageNum_spec (getpagesize_pos k) hj
  obtain ⟨pg, hpg⟩ := h.alloc i it hi _ (List.getElem_mem hlt)
  exact ⟨_, pg, List.getElem?_eq_getElem hlt, hpg⟩

theorem bytesOf_length (s : State) (tls : ThreadLocalStorage) : (s.bytesOf tls).length = tls.size.toNat := by
  simp [State.bytesOf]

theorem bytesOf_congr {tls tls' : ThreadLocalStorage} (hsize : tls'.size = tls.size)
    (h : ∀ j < tls.size.toNat, s'.byteAt tls' j = s.byteAt tls j) : s'.bytesOf tls' = s.bytesOf tls := by
  unfold State.bytesOf
  rw [hsize]
  exact List.map_congr_left fun j hj => h j (List.mem_range.mp hj)

/-- An LSA whose pages keep their bytes keeps its own. -/
theorem bytesOf_content {tls : ThreadLocalStorage} (hps : s'.pageSize = s.pageSize) (hpos : 0 < s.pageSize)
    (h : ∀ p ∈ tls.pages, ∀ off < s.pageSize, s'.content p off = s.content p off) :
    s'.bytesOf tls = s.bytesOf tls := by
  refine bytesOf_congr rfl fun j _ => ?_
  unfold State.byteAt
  rw [hps]
  split
  · next p hp => exact h p (List.mem_of_getElem? hp) _ (Nat.mod_lt _ hpos)
  · rfl

/-- Pages that lie where pages of a good state lie. -/
theorem PagesOk.of_address (hs : PagesOk k s) (hnext : s.nextPage ≤ s'.nextPage)
    (hold : ∀ p pg', s'.pages p = some pg' → ∃ pg, s.pages p = some pg ∧ pg.address = pg'.address)
    (hmapped : ∀ p pg', s'.pages p = some pg' → pg'.address ∈ s'.mem.mapped) : PagesOk k s' := by
  refine ⟨fun p pg' h => ?_, hmapped, fun p pg' h => ?_, fun p q pg' qg' hp hq heq => ?_⟩
  · obtain ⟨pg, hpg, -⟩ := hold p pg' h
    exact lt_of_lt_of_le (hs.lt p pg hpg) hnext
  · obtain ⟨pg, hpg, ha⟩ := hold p pg' h
    exact ha ▸ hs.aligned p pg hpg
  · obtain ⟨pg, hpg, ha⟩ := hold p pg' hp
    obtain ⟨qg, hqg, hb⟩ := hold q qg' hq
    exact hs.distinct p q pg qg hpg hqg (ha.trans (heq.trans hb.symm))

theorem content_of_address {pg' : Page} (hbyte : s'.mem.byte = s.mem.byte) (hp : s.pages p = some pg)
    (hp' : s'.pages p = some pg') (ha : pg'.address = pg.address) : s'.content p = s.content p := by
  funext off
  simp only [State.content, hp, hp', ha, hbyte]

/-! ## Steps that leave the table alone -/

/-- The same table and the same LSAs. -/
structure SameItems (s s' : State) : Prop where
  table : s'.table = s.table
  items : s'.items = s.items
  nextItem : s'.nextItem = s.nextItem
  pageSize : s'.pageSize = s.pageSize
  isFirstCall : s'.isFirstCall = s.isFirstCall

theorem SameItems.refl (s : State) : SameItems s s := ⟨rfl, rfl, rfl, rfl, rfl⟩

theorem SameItems.trans {s₁ s₂ s₃ : State} (h : SameItems s₁ s₂) (h' : SameItems s₂ s₃) : SameItems s₁ s₃ :=
  ⟨h'.table.trans h.table, h'.items.trans h.items, h'.nextItem.trans h.nextItem,
    h'.pageSize.trans h.pageSize, h'.isFirstCall.trans h.isFirstCall⟩

theorem SameItems.slots (h : SameItems s s') : s'.slots = s.slots := by
  funext i
  unfold State.slots
  rw [h.items]

theorem SameItems.refs (h : SameItems s s') : s'.refs = s.refs := by
  funext p
  unfold State.refs
  rw [h.slots, h.nextItem]

theorem SameItems.tableOk (h : SameItems s s') (hs : TableOk s) : TableOk s' := by
  refine ⟨?_, ?_, ?_⟩ <;> rw [h.items]
  · rw [h.nextItem]; exact hs.items_lt
  · rw [h.table]; exact hs.linked
  · exact hs.owner

/-- The invariant, when the pages in use keep their counters. -/
theorem Inv.same (hs : Inv k s) (h : SameItems s s') (hp : PagesOk k s')
    (hold : ∀ p pg, s.pages p = some pg → 0 < s.refs p →
      ∃ pg', s'.pages p = some pg' ∧ pg'.refCount = pg.refCount) : Inv k s' where
  toTableOk := h.tableOk hs.toTableOk
  pages := hp
  init := by rw [h.items, h.isFirstCall]; exact hs.init
  pageSize := by rw [h.isFirstCall, h.pageSize]; exact hs.pageSize
  pageNum := by rw [h.items]; exact hs.pageNum
  nodup := by rw [h.items]; exact hs.nodup
  alloc := by
    rw [h.items]
    intro i it hi p hp
    obtain ⟨pg, hpg⟩ := hs.alloc i it hi p hp
    have hpos : 0 < s.refs p := refs_pos (hs.items_lt i it hi) (by rw [slots_some hi]; exact hp)
    obtain ⟨pg', hpg', -⟩ := hold p pg hpg hpos
    exact ⟨pg', hpg'⟩
  refCount := by
    rw [h.refs]
    intro p pg' hpg' hpos
    obtain ⟨j, hj, hpj⟩ : ∃ j, j < s.nextItem ∧ p ∈ s.slots j := by
      by_contra hno
      have : s.refs p = 0 := refs_eq_zero.mpr fun j hj hpj => hno ⟨j, hj, hpj⟩
      omega
    obtain ⟨it, hi, hpit⟩ := mem_slots hpj
    obtain ⟨pg, hpg⟩ := hs.alloc j it hi p hpit
    obtain ⟨pg'', hpg'', hrc⟩ := hold p pg hpg hpos
    rw [hpg', Option.some.injEq] at hpg''
    rw [hpg'', hrc]
    exact hs.refCount p pg hpg hpos

/-! ## Protections -/

/-- Only protections differ. -/
def Reprotected (s s' : State) : Prop := ∃ prot, s' = { s with mem := { s.mem with prot := prot } }

theorem Reprotected.same (h : Reprotected s s') : SameItems s s' := by
  obtain ⟨prot, rfl⟩ := h
  exact ⟨rfl, rfl, rfl, rfl, rfl⟩

theorem Reprotected.inv (h : Reprotected s s') (hs : Inv k s) : Inv k s' := by
  refine hs.same h.same ?_ fun p pg hp _ => ?_
  · obtain ⟨prot, rfl⟩ := h
    exact ⟨hs.pages.lt, hs.pages.mapped, hs.pages.aligned, hs.pages.distinct⟩
  · obtain ⟨prot, rfl⟩ := h
    exact ⟨pg, hp, rfl⟩

theorem Reprotected.pages (h : Reprotected s s') : s'.pages = s.pages := by
  obtain ⟨prot, rfl⟩ := h
  rfl

theorem Reprotected.byteAt (h : Reprotected s s') : s'.byteAt = s.byteAt := by
  obtain ⟨prot, rfl⟩ := h
  rfl

theorem Reprotected.bytesOf (h : Reprotected s s') : s'.bytesOf = s.bytesOf := by
  obtain ⟨prot, rfl⟩ := h
  rfl

theorem Reprotected.noLeak (h : Reprotected s s') (hs : NoLeak s) : NoLeak s' := by
  unfold NoLeak
  rw [h.same.refs, h.pages]
  exact hs

theorem tlsUnprotect_eq (h : s.pages p = some pg) (hm : pg.address ∈ s.mem.mapped) (prot : Prot) :
    s.tlsUnprotect prot p =
      some { s with mem := { s.mem with prot := Function.update s.mem.prot pg.address prot } } := by
  rw [State.tlsUnprotect, h, Option.bind_eq_bind, Option.bind_some, Memory.mprotect, if_pos hm]
  rfl

/-- tls_protect and tls_unprotect on all pages of a list. -/
theorem protect_spec (hp : PagesOk k s) {l : List Nat} (hl : ∀ p ∈ l, ∃ pg, s.pages p = some pg)
    (prot : Prot) :
    ∃ s', l.foldlM (State.tlsUnprotect prot) s = some s' ∧ Reprotected s s' ∧
      ∀ p ∈ l, ∀ pg, s.pages p = some pg → s'.mem.prot pg.address = prot := by
  refine foldlM_run (I := fun done s' => Reprotected s s' ∧
    ∀ p ∈ done, ∀ pg, s.pages p = some pg → s'.mem.prot pg.address = prot) ⟨⟨_, rfl⟩, by simp⟩ ?_
  intro done p rest s₁ hsplit ⟨hre, hdone⟩
  obtain ⟨pg, hpg⟩ := hl p (by rw [hsplit]; simp)
  have hpg₁ : s₁.pages p = some pg := by rw [hre.pages]; exact hpg
  obtain ⟨prot₁, rfl⟩ := hre
  refine ⟨{ s with mem := { s.mem with prot := Function.update prot₁ pg.address prot } }, ?_, ⟨_, rfl⟩, ?_⟩
  · exact tlsUnprotect_eq hpg₁ (hp.mapped p pg hpg) prot
  · intro q hq qg hqg
    by_cases hadr : qg.address = pg.address
    · simp [hadr]
    · rw [List.mem_append, List.mem_singleton] at hq
      rcases hq with hq | rfl
      · simpa [hadr] using hdone q hq qg hqg
      · rw [hpg, Option.some.injEq] at hqg
        exact absurd (by rw [hqg]) hadr

end

end EC440.Tls
