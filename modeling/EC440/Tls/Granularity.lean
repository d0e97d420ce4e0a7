/-
  What tls_write copies. The byte loop tests for sharing at every byte; a slot whose page is shared
  gets a private copy at the first byte the loop writes in it, and at the following bytes the page in
  the slot is the copy, with a counter of 1. So there is one copy for each shared page in the range,
  and nothing else changes its page.

  A range that wraps around in 32 bits passes the test and copies nothing.
-/
import EC440.Tls.Bounds

namespace EC440.Tls

open EC440.Lib

variable {k : Kernel} {s s' s₀ : State} {t : UInt64} {e n m p q a c o l j ps : Nat} {it it₀ it' : Item}
  {pg pg₀ : Page} {offset length : UInt32}

/-- Slot `n` of the LSA is in the range, and its page is shared. -/
def Splits (ps : Nat) (s : State) (it : Item) (o l n : Nat) : Prop :=
  (o / ps ≤ n ∧ n ≤ (o + l - 1) / ps) ∧
    ∃ p pg, it.tls.pages[n]? = some p ∧ s.pages p = some pg ∧ 1 < pg.refCount

/-- Slot `n`: the page `q` has come in the place of `p` while the bytes from `o` on were written,
    `c` of them. -/
structure SlotCopied (ps : Nat) (s₀ s : State) (o c n p : Nat) (pg : Page) (q : Nat) : Prop where
  new : s₀.pages q = none
  page : ∃ a, s.pages q = some { address := a, refCount := 1 }
  bytes : ∀ off < ps, ¬ (o ≤ n * ps + off ∧ n * ps + off < o + c) → s.content q off = s₀.content p off
  old : s.pages p = some { pg with refCount := pg.refCount - 1 }
  oldBytes : ∀ off < ps, s.content p off = s₀.content p off

/-- A write of `l` bytes from `o` on to the LSA `it` has copied the shared pages in its range, one
    new page for each, and has changed no other slot of any LSA. -/
structure CopiesShared (ps : Nat) (s : State) (e : Nat) (it : Item) (o l : Nat) (s' : State) (it' : Item) : Prop where
  exactly : ∀ n, it'.tls.pages[n]? ≠ it.tls.pages[n]? ↔ Splits ps s it o l n
  copy : ∀ n p pg, Splits ps s it o l n → it.tls.pages[n]? = some p → s.pages p = some pg →
    ∃ q, it'.tls.pages[n]? = some q ∧ SlotCopied ps s s' o l n p pg q
  one : ∀ q, s'.pages q ≠ none → s.pages q ≠ none ∨ ∃ n, Splits ps s it o l n ∧ it'.tls.pages[n]? = some q
  others : ∀ i, i ≠ e → s'.items i = s.items i

/-! ## The loop -/

/-- One of the first `c` bytes from `o` on lies in slot `n`. -/
def Touched (ps o c n : Nat) : Prop := ∃ i < c, (o + i) / ps = n

theorem touched_succ : Touched ps o (c + 1) n ↔ Touched ps o c n ∨ n = (o + c) / ps := by
  constructor
  · intro ⟨i, hi, hn⟩
    by_cases hic : i = c
    · exact .inr (hic ▸ hn.symm)
    · exact .inl ⟨i, by omega, hn⟩
  · intro h
    obtain ⟨i, hi, hn⟩ | hn := h
    · exact ⟨i, by omega, hn⟩
    · exact ⟨c, by omega, hn.symm⟩

theorem touched_iff (hps : 0 < ps) (hl : 1 ≤ l) : Touched ps o l n ↔ o / ps ≤ n ∧ n ≤ (o + l - 1) / ps := by
  constructor
  · intro ⟨i, hi, hn⟩
    rw [← hn]
    exact ⟨Nat.div_le_div_right (by omega), Nat.div_le_div_right (by omega)⟩
  · intro ⟨hlo, hhi⟩
    rw [Nat.le_div_iff_mul_le hps] at hhi
    by_cases hn : o / ps = n
    · exact ⟨0, by omega, hn⟩
    · have hlt : o < n * ps := (Nat.div_lt_iff_lt_mul hps).mp (by omega)
      refine ⟨n * ps - o, by omega, ?_⟩
      rw [Nat.add_sub_cancel' (by omega), Nat.mul_div_cancel n hps]

/-- Slot `n` still has the page it had. -/
structure SlotKept (ps : Nat) (s₀ s : State) (p : Nat) (pg : Page) : Prop where
  page : s.pages p = some pg
  bytes : 1 < pg.refCount → ∀ off < ps, s.content p off = s₀.content p off

/-- The invariant of the byte loop: after `c` bytes the touched slots with shared pages have been
    copied, the others are as they were, and there are no other pages. -/
structure Splitting (ps : Nat) (s₀ : State) (it₀ : Item) (o c : Nat) (s : State) (it : Item) : Prop where
  length : it.tls.pages.length = it₀.tls.pages.length
  next : s₀.nextPage ≤ s.nextPage
  slot : ∀ n p pg, it₀.tls.pages[n]? = some p → s₀.pages p = some pg →
    (Touched ps o c n ∧ 1 < pg.refCount ∧ ∃ q, it.tls.pages[n]? = some q ∧ SlotCopied ps s₀ s o c n p pg q) ∨
    (¬ (Touched ps o c n ∧ 1 < pg.refCount) ∧ it.tls.pages[n]? = some p ∧ SlotKept ps s₀ s p pg)
  one : ∀ q, s.pages q ≠ none → s₀.pages q ≠ none ∨ ∃ n p pg, Touched ps o c n ∧
    it₀.tls.pages[n]? = some p ∧ s₀.pages p = some pg ∧ 1 < pg.refCount ∧ it.tls.pages[n]? = some q

/-- A step that changes neither page nor, outside of the range, their bytes. -/
theorem SlotCopied.frame (h : SlotCopied ps s₀ s o c n p pg q) {c' : Nat} (hc : c ≤ c')
    (hq : s'.pages q = s.pages q)
    (hqb : ∀ off < ps, ¬ (o ≤ n * ps + off ∧ n * ps + off < o + c') → s'.content q off = s.content q off)
    (hp : s'.pages p = s.pages p) (hpb : ∀ off < ps, s'.content p off = s.content p off) :
    SlotCopied ps s₀ s' o c' n p pg q where
  new := h.new
  page := by rw [hq]; exact h.page
  bytes := by
    intro off hoff hout
    rw [hqb off hoff hout]
    exact h.bytes off hoff (by omega)
  old := by rw [hp]; exact h.old
  oldBytes := fun off hoff => (hpb off hoff).trans (h.oldBytes off hoff)

theorem SlotKept.frame (h : SlotKept ps s₀ s p pg) (hp : s'.pages p = s.pages p)
    (hpb : 1 < pg.refCount → ∀ off < ps, s'.content p off = s.content p off) : SlotKept ps s₀ s' p pg :=
  ⟨by rw [hp]; exact h.page, fun hrc off hoff => (hpb hrc off hoff).trans (h.bytes hrc off hoff)⟩

/-- Before the first byte. -/
theorem splitting_start (ps : Nat) (s₀ : State) (it₀ : Item) (o : Nat) (hre : Reprotected s₀ s) :
    Splitting ps s₀ it₀ o 0 s it₀ := by
  obtain ⟨prot, rfl⟩ := hre
  refine ⟨rfl, le_rfl, fun n p pg hn hp => .inr ⟨?_, hn, ⟨hp, fun _ _ _ => rfl⟩⟩, fun q hq => .inl hq⟩
  intro ⟨⟨i, hi, _⟩, _⟩
  omega

/-- The page in slot `n` of the LSA at the next byte. -/
theorem Splitting.page (h : Splitting ps s₀ it₀ o c s it) (hn₀ : it₀.tls.pages[n]? = some p)
    (hp₀ : s₀.pages p = some pg₀) (hn : it.tls.pages[n]? = some q) (hq : s.pages q = some pg) :
    (Touched ps o c n ∧ 1 < pg₀.refCount ∧ s₀.pages q = none ∧ pg.refCount = 1) ∨
    (¬ (Touched ps o c n ∧ 1 < pg₀.refCount) ∧ q = p ∧ pg = pg₀) := by
  obtain ⟨ht, hrc, q', hq', hcp⟩ | ⟨hno, hp, hk⟩ := h.slot n p pg₀ hn₀ hp₀
  · rw [hn, Option.some.injEq] at hq'
    obtain ⟨a, hpage⟩ := hcp.page
    rw [← hq', hq, Option.some.injEq] at hpage
    refine .inl ⟨ht, hrc, ?_, by rw [hpage]⟩
    rw [hq']
    exact hcp.new
  · rw [hn, Option.some.injEq] at hp
    have hpage := hk.page
    rw [← hp, hq, Option.some.injEq] at hpage
    exact .inr ⟨hno, hp, hpage⟩

/-- A byte in a slot whose page is private already: nothing is copied. -/
theorem Splitting.touch (h : Splitting ps s₀ it₀ o c s it) (hn₀ : it₀.tls.pages[(o + c) / ps]? = some p)
    (hp₀ : s₀.pages p = some pg₀) (hn : it.tls.pages[(o + c) / ps]? = some q) (hq : s.pages q = some pg)
    (hrc : ¬ 1 < pg.refCount) : Splitting ps s₀ it₀ o (c + 1) s it := by
  have hsame : ∀ n p' pg', it₀.tls.pages[n]? = some p' → s₀.pages p' = some pg' →
      Touched ps o (c + 1) n → 1 < pg'.refCount → Touched ps o c n := by
    intro n p' pg' hn' hp' ht hshared
    obtain ht | rfl := touched_succ.mp ht
    · exact ht
    · rw [hn₀, Option.some.injEq] at hn'
      rw [← hn', hp₀, Option.some.injEq] at hp'
      obtain ⟨ht, -⟩ | ⟨-, -, heq⟩ := h.page hn₀ hp₀ hn hq
      · exact ht
      · rw [heq, hp'] at hrc
        exact absurd hshared hrc
  refine ⟨h.length, h.next, fun n p' pg' hn' hp' => ?_, fun q' hq' => ?_⟩
  · obtain ⟨ht, hshared, q', hq', hcp⟩ | ⟨hno, hslot, hk⟩ := h.slot n p' pg' hn' hp'
    · exact .inl ⟨touched_succ.mpr (.inl ht), hshared, q', hq',
        hcp.frame (Nat.le_succ c) rfl (fun _ _ _ => rfl) rfl fun _ _ => rfl⟩
    · exact .inr ⟨fun ht => hno ⟨hsame n p' pg' hn' hp' ht.1 ht.2, ht.2⟩, hslot, hk⟩
  · obtain hold | ⟨n, p', pg', ht, hrest⟩ := h.one q' hq'
    · exact .inl hold
    · exact .inr ⟨n, p', pg', touched_succ.mpr (.inl ht), hrest⟩

/-- The byte is stored, in a page that was not shared when the call began. -/
theorem Splitting.store (h : Splitting k.getpagesize s₀ it₀ o (c + 1) s it) (hs : Inv k s)
    (hi : s.items e = some it) (hn₀ : it₀.tls.pages[(o + c) / k.getpagesize]? = some p)
    (hp₀ : s₀.pages p = some pg₀) (hn : it.tls.pages[(o + c) / k.getpagesize]? = some q)
    (hq : s.pages q = some pg) (b : UInt8) :
    Splitting k.getpagesize s₀ it₀ o (c + 1) (s.stored (pg.address + (o + c) % k.getpagesize) b) it := by
  have hpos := getpagesize_pos k
  have hfresh : ∀ r rg, s₀.pages r = some rg → 1 < rg.refCount → r ≠ q := by
    intro r rg hr hshared hrq
    obtain ⟨-, -, hnew, -⟩ | ⟨hno, hqp, -⟩ := h.page hn₀ hp₀ hn hq
    · rw [hrq, hnew] at hr
      cases hr
    · rw [hrq, hqp, hp₀, Option.some.injEq] at hr
      exact hno ⟨touched_succ.mpr (.inr rfl), hr ▸ hshared⟩
  have hkeep : ∀ r rg, s.pages r = some rg → r ≠ q → ∀ off < k.getpagesize,
      (s.stored (pg.address + (o + c) % k.getpagesize) b).content r off = s.content r off := by
    intro r rg hr hne off hoff
    rw [stored_content hs.pages hq (Nat.mod_lt _ hpos) hr hoff, if_neg fun heq => hne heq.1]
  refine ⟨h.length, h.next, fun n p' pg' hn' hp' => ?_, h.one⟩
  obtain ⟨ht, hshared, q', hq', hcp⟩ | ⟨hno, hslot, hk⟩ := h.slot n p' pg' hn' hp'
  · obtain ⟨a, hpage⟩ := hcp.page
    refine .inl ⟨ht, hshared, q', hq', hcp.frame le_rfl rfl (fun off hoff hout => ?_) rfl ?_⟩
    · rw [stored_content hs.pages hq (Nat.mod_lt _ hpos) hpage hoff, if_neg]
      intro ⟨hqq, hoff'⟩
      rw [hqq] at hq'
      obtain ⟨hlt, -⟩ := List.getElem?_eq_some_iff.mp hq'
      have hslots := (List.getElem?_inj hlt (hs.nodup e it hi)).mp (hq'.trans hn.symm)
      have hdiv := Nat.div_add_mod (o + c) k.getpagesize
      rw [hslots, hoff', mul_comm] at hout
      omega
    · exact hkeep p' _ hcp.old (hfresh p' pg' hp' hshared)
  · exact .inr ⟨hno, hslot, hk.frame rfl fun hshared => hkeep p' pg' hk.page (hfresh p' pg' hp' hshared)⟩

section
variable (hs : Inv k s) (hi : s.items e = some it) (hq : s.pages q = some pg) (ha : a ∉ s.mem.mapped)
  (hal : k.getpagesize ∣ a)
include hs hi hq ha hal

/-- The slot whose page is copied. -/
theorem SlotKept.slotCopied (h : SlotKept k.getpagesize s₀ s q pg) (hrc : 1 < pg.refCount)
    (hnew : s₀.pages s.nextPage = none) :
    SlotCopied k.getpagesize s₀ (s.copied e it m q pg a) o c n q pg s.nextPage := by
  have hps := hs.pageSize_eq hi
  refine ⟨hnew, ⟨a, copied_next hs.pages hq e it m⟩, fun off hoff _ => ?_, copied_page e it m, fun off hoff => ?_⟩
  · rw [copied_content_next hs.pages hq e it m hps ha hal hoff]
    exact h.bytes hrc off hoff
  · rw [copied_content hs.pages hq e it m hps ha hal hq hoff]
    exact h.bytes hrc off hoff

variable {p' q' : Nat} {pg' : Page} (hne : p' ≠ q)
include hne

/-- The other slots. -/
theorem SlotCopied.copied (h : SlotCopied k.getpagesize s₀ s o c n p' pg' q') (hq' : q' ≠ q) :
    SlotCopied k.getpagesize s₀ (s.copied e it m q pg a) o (c + 1) n p' pg' q' := by
  have hps := hs.pageSize_eq hi
  obtain ⟨a', hpage⟩ := h.page
  refine h.frame (Nat.le_succ c) ?_ (fun off hoff _ => ?_) ?_ fun off hoff => ?_
  · exact (copied_other hs.pages e it m hpage hq').trans hpage.symm
  · exact copied_content hs.pages hq e it m hps ha hal hpage hoff
  · exact (copied_other hs.pages e it m h.old hne).trans h.old.symm
  · exact copied_content hs.pages hq e it m hps ha hal h.old hoff

theorem SlotKept.copied (h : SlotKept k.getpagesize s₀ s p' pg') :
    SlotKept k.getpagesize s₀ (s.copied e it m q pg a) p' pg' := by
  have hps := hs.pageSize_eq hi
  refine h.frame ((copied_other hs.pages e it m h.page hne).trans h.page.symm) fun _ off hoff => ?_
  exact copied_content hs.pages hq e it m hps ha hal h.page hoff

end

/-- The first byte in a slot whose page is shared: the page is copied. -/
theorem Splitting.copied (h : Splitting k.getpagesize s₀ it₀ o c s it) (hs₀ : PagesOk k s₀)
    (hnd : it₀.tls.pages.Nodup) (hs : Inv k s) (hi : s.items e = some it)
    (hn₀ : it₀.tls.pages[(o + c) / k.getpagesize]? = some p) (hp₀ : s₀.pages p = some pg₀)
    (hn : it.tls.pages[(o + c) / k.getpagesize]? = some q) (hq : s.pages q = some pg) (hrc : 1 < pg.refCount)
    (ha : a ∉ s.mem.mapped) (hal : k.getpagesize ∣ a) :
    Splitting k.getpagesize s₀ it₀ o (c + 1) (s.copied e it ((o + c) / k.getpagesize) q pg a)
      (it.setPage ((o + c) / k.getpagesize) s.nextPage) := by
  obtain ⟨-, -, -, hone⟩ | ⟨hno, rfl, rfl⟩ := h.page hn₀ hp₀ hn hq
  · omega
  have huntouched : ¬ Touched k.getpagesize o c ((o + c) / k.getpagesize) := fun ht => hno ⟨ht, hrc⟩
  have hslot : ∀ n, (it.setPage ((o + c) / k.getpagesize) s.nextPage).tls.pages[n]? =
      if n = (o + c) / k.getpagesize then some s.nextPage else it.tls.pages[n]? := copied_slot hn
  refine ⟨?_, Nat.le_succ_of_le h.next, fun n p' pg' hn' hp' => ?_, fun q' hq' => ?_⟩
  · rw [Item.setPage]
    dsimp only
    rw [List.length_set, h.length]
  · rw [hslot]
    by_cases hnm : n = (o + c) / k.getpagesize
    · -- the slot of the byte
      rw [hnm, hn₀, Option.some.injEq] at hn'
      rw [← hn', hp₀, Option.some.injEq] at hp'
      rw [if_pos hnm, ← hn', ← hp']
      obtain ⟨ht, -⟩ | ⟨-, -, hk⟩ := h.slot _ q pg hn₀ hp₀
      · exact absurd ht huntouched
      have hnew : s₀.pages s.nextPage = none := by
        apply Option.eq_none_iff_forall_ne_some.mpr
        intro rg hrg
        have := hs₀.lt _ rg hrg
        have := h.next
        omega
      exact .inl ⟨touched_succ.mpr (.inr hnm), hrc, s.nextPage, rfl, hk.slotCopied hs hi hq ha hal hrc hnew⟩
    · rw [if_neg hnm]
      have hne : p' ≠ q := by
        intro heq
        rw [heq] at hn'
        obtain ⟨hlt, -⟩ := List.getElem?_eq_some_iff.mp hn'
        exact hnm ((List.getElem?_inj hlt hnd).mp (hn'.trans hn₀.symm))
      obtain ⟨ht, hshared, q', hq', hcp⟩ | ⟨hno', hold, hk⟩ := h.slot n p' pg' hn' hp'
      · have hq'q : q' ≠ q := by
          intro heq
          have hnew := hcp.new
          rw [heq, hp₀] at hnew
          cases hnew
        exact .inl ⟨touched_succ.mpr (.inl ht), hshared, q', hq', hcp.copied hs hi hq ha hal hne hq'q⟩
      · exact .inr ⟨fun ht => hno' ⟨(touched_succ.mp ht.1).resolve_right hnm, ht.2⟩, hold,
          hk.copied hs hi hq ha hal hne⟩
  · obtain ⟨qg, hqg⟩ := Option.ne_none_iff_exists'.mp hq'
    have hcases : q' = s.nextPage ∨ s.pages q' ≠ none := by
      obtain ⟨hnew, -⟩ | ⟨heq, -⟩ | ⟨-, hsome⟩ := copied_cases e it _ hqg
      · exact .inl hnew
      · exact .inr (by rw [heq, hq]; simp)
      · exact .inr (by rw [hsome]; simp)
    obtain hnew | hsome := hcases
    · exact .inr ⟨_, q, pg, touched_succ.mpr (.inr rfl), hn₀, hp₀, hrc, by rw [hslot, if_pos rfl, hnew]⟩
    · obtain hold | ⟨n, p', pg', ht, hn', hp', hshared, hnq⟩ := h.one q' hsome
      · exact .inl hold
      · refine .inr ⟨n, p', pg', touched_succ.mpr (.inl ht), hn', hp', hshared, ?_⟩
        rw [hslot, if_neg fun hnm : n = (o + c) / k.getpagesize => huntouched (hnm ▸ ht)]
        exact hnq

/-- One round of the byte loop. -/
theorem Splitting.round {size : UInt32} {bytes : List UInt8} {index : Int} {buffer : Nat → UInt8}
    (h : Splitting k.getpagesize s₀ it₀ o c s it) (hs₀ : Inv k s₀) (hi₀ : s₀.items e = some it₀)
    (hw : Writing k s₀ t e size bytes s) (hi : s.items e = some it) (hsize : it.tls.size = it₀.tls.size)
    (hj : o + c < it₀.tls.size.toNat) (hidx : Leads k.getpagesize index (o + c))
    (hr : s.writeByte k e buffer c index = some s') :
    ∃ it', s'.items e = some it' ∧ it'.tls.size = it₀.tls.size ∧
      Splitting k.getpagesize s₀ it₀ o (c + 1) s' it' := by
  obtain ⟨p, pg₀, hn₀, hp₀⟩ := hs₀.slot hi₀ hj
  obtain ⟨q, pg, hn, hq, hcase⟩ := writeByte_cases hw.inv hi (hw.writable it hi) (hsize ▸ hj) hidx buffer c
  obtain ⟨hrc, heq⟩ | ⟨hrc, a, ha, hal, heq⟩ | ⟨-, heq⟩ := hcase
  · rw [heq, Option.some.injEq] at hr
    rw [← hr]
    exact ⟨it, hi, hsize, (h.touch hn₀ hp₀ hn hq hrc).store hw.inv hi hn₀ hp₀ hn hq _⟩
  · rw [heq, Option.some.injEq] at hr
    rw [← hr]
    have hitem : (s.copied e it ((o + c) / k.getpagesize) q pg a).items e =
        some (it.setPage ((o + c) / k.getpagesize) s.nextPage) := Function.update_self _ _ _
    have hcopied := h.copied hs₀.pages (hs₀.nodup e it₀ hi₀) hw.inv hi hn₀ hp₀ hn hq hrc ha hal
    exact ⟨_, hitem, hsize, hcopied.store (hw.inv.copied hi hn hq ha hal) hitem hn₀ hp₀
      ((copied_slot hn _).trans (if_pos rfl)) (copied_next hw.inv.pages hq e it _) _⟩
  · rw [heq] at hr
    cases hr

/-! ## The call -/

theorem Splitting.reprotected (h : Splitting ps s₀ it₀ o c s it) (hre : Reprotected s s') :
    Splitting ps s₀ it₀ o c s' it := by
  obtain ⟨prot, rfl⟩ := hre
  refine ⟨h.length, h.next, fun n p pg hn hp => ?_, h.one⟩
  obtain ⟨ht, hrc, q, hq, hcp⟩ | ⟨hno, hslot, hk⟩ := h.slot n p pg hn hp
  · exact .inl ⟨ht, hrc, q, hq, hcp.frame le_rfl rfl (fun _ _ _ => rfl) rfl fun _ _ => rfl⟩
  · exact .inr ⟨hno, hslot, hk.frame rfl fun _ _ _ => rfl⟩

/-- What the loop has done when it ends. -/
theorem Splitting.copiesShared (h : Splitting ps s it o l s' it') (hps : 0 < ps) (hl : 1 ≤ l)
    (halloc : ∀ p ∈ it.tls.pages, ∃ pg, s.pages p = some pg) (hothers : ∀ i, i ≠ e → s'.items i = s.items i) :
    CopiesShared ps s e it o l s' it' := by
  have hsplits : ∀ n p pg, it.tls.pages[n]? = some p → s.pages p = some pg →
      (Splits ps s it o l n ↔ Touched ps o l n ∧ 1 < pg.refCount) := by
    intro n p pg hn hp
    rw [touched_iff hps hl]
    refine ⟨fun ⟨hin, p', pg', hn', hp', hrc⟩ => ⟨hin, ?_⟩, fun ⟨hin, hrc⟩ => ⟨hin, p, pg, hn, hp, hrc⟩⟩
    rw [hn, Option.some.injEq] at hn'
    rw [← hn', hp, Option.some.injEq] at hp'
    rw [hp']
    exact hrc
  refine ⟨fun n => ?_, fun n p pg hsp hn hp => ?_, fun q hq => ?_, hothers⟩
  · cases hn : it.tls.pages[n]? with
    | none =>
      have hnone : it'.tls.pages[n]? = none := by
        rw [List.getElem?_eq_none_iff, h.length]
        exact List.getElem?_eq_none_iff.mp hn
      rw [hnone]
      refine ⟨fun hne => absurd rfl hne, fun ⟨_, p, pg, hn', _⟩ => ?_⟩
      rw [hn] at hn'
      cases hn'
    | some p =>
      obtain ⟨pg, hp⟩ := halloc p (List.mem_of_getElem? hn)
      rw [hsplits n p pg hn hp]
      obtain ⟨ht, hrc, q, hq, hcp⟩ | ⟨hno, hslot, -⟩ := h.slot n p pg hn hp
      · refine ⟨fun _ => ⟨ht, hrc⟩, fun _ heq => ?_⟩
        rw [hq, Option.some.injEq] at heq
        have hnew := hcp.new
        rw [heq, hp] at hnew
        cases hnew
      · exact ⟨fun hne => absurd hslot hne, fun hsp => absurd hsp hno⟩
  · obtain ⟨-, -, q, hq, hcp⟩ | ⟨hno, -⟩ := h.slot n p pg hn hp
    · exact ⟨q, hq, hcp⟩
    · exact absurd ((hsplits n p pg hn hp).mp hsp) hno
  · obtain hold | ⟨n, p, pg, ht, hn, hp, hrc, hslot⟩ := h.one q hq
    · exact .inl hold
    · exact .inr ⟨n, (hsplits n p pg hn hp).mpr ⟨ht, hrc⟩, hslot⟩

/-- A range inside the LSA. -/
theorem tlsWrite_copiesShared {r : Int} {buffer : Nat → UInt8} (hs : Inv k s)
    (hf : s.find t = some (some e)) (hi : s.Owns t e it) (hsize : it.tls.size.toNat < 2 ^ 31)
    (hle : ¬ offset + length > it.tls.size) (hsum : offset.toNat + length.toNat < 2 ^ 32)
    (hlen : 1 ≤ length.toNat) (hw : s.tlsWrite k t offset length buffer = some (r, s')) :
    ∃ it', s'.Owns t e it' ∧ CopiesShared k.getpagesize s e it offset.toNat length.toNat s' it' := by
  have hserved : Served k offset length := by
    refine InInt.served (fun hrange => .inr ?_) hle k
    omega
  obtain ⟨s₂, hw₂, ⟨it₂, hi₂, -, hsplit⟩, hre⟩ := tlsWrite_rule
    (I := fun c s₁ => ∃ it₁, s₁.items e = some it₁ ∧ it₁.tls.size = it.tls.size ∧
      Splitting k.getpagesize s it offset.toNat c s₁ it₁) hs hf hi hle hserved
    (fun s₁ hre => ⟨it, by rw [hre.same.items]; exact hi.1, rfl, splitting_start _ s it _ hre⟩)
    (fun c s₁ s₂ bytes index hj hidx hwriting ⟨it₁, hi₁, hsz, hsp⟩ hround =>
      hsp.round hs hi.1 hwriting hi₁ hsz hj hidx hround) hw
  rw [rounds_eq hsum] at hsplit
  obtain ⟨it', ⟨hi', ht'⟩, -⟩ := hw₂.item
  rw [hi₂, Option.some.injEq] at hi'
  refine ⟨it₂, ⟨by rw [hre.same.items]; exact hi₂, hi' ▸ ht'⟩, ?_⟩
  refine (hsplit.reprotected hre).copiesShared (getpagesize_pos k) hlen (hs.alloc e it hi.1) fun i hne => ?_
  rw [hre.same.items]
  exact hw₂.items i hne

/-- A range that wraps around: no slot changes. -/
theorem tlsWrite_wraps {r : Int} {buffer : Nat → UInt8} (hs : Inv k s) (hf : s.find t = some (some e))
    (hi : s.Owns t e it) (hle : ¬ offset + length > it.tls.size)
    (hsum : 2 ^ 32 ≤ offset.toNat + length.toNat)
    (hw : s.tlsWrite k t offset length buffer = some (r, s')) :
    (∃ it', s'.Owns t e it' ∧ CopiesShared k.getpagesize s e it offset.toNat length.toNat s' it') ↔
      ∀ n, ¬ Splits k.getpagesize s it offset.toNat length.toNat n := by
  have hserved : Served k offset length := fun hlt => absurd hlt (by omega)
  have hzero : rounds offset length = 0 := by
    have ho := offset.toNat_lt
    have hl := length.toNat_lt
    rw [rounds, UInt32.toNat_add]
    omega
  obtain ⟨s₂, -, hre, hre₂⟩ := tlsWrite_rule (I := fun c s₁ => c = 0 → Reprotected s s₁) hs hf hi hle hserved
    (fun _ hre _ => hre) (fun c _ _ _ _ _ _ _ _ _ hc => absurd hc (Nat.succ_ne_zero c)) hw
  have hkept : Reprotected s s' := by
    obtain ⟨prot, rfl⟩ := hre hzero
    obtain ⟨prot', rfl⟩ := hre₂
    exact ⟨prot', rfl⟩
  have hi' : s'.Owns t e it := ⟨by rw [hkept.same.items]; exact hi.1, hi.2⟩
  constructor
  · intro h n hsp
    obtain ⟨it', hown, hcopies⟩ := h
    have heq : it' = it := Option.some.inj (hown.1.symm.trans hi'.1)
    rw [heq] at hcopies
    exact (hcopies.exactly n).mpr hsp rfl
  · intro hno
    refine ⟨it, hi', fun n => ⟨fun hne => absurd rfl hne, fun hsp => absurd hsp (hno n)⟩,
      fun n p pg hsp => absurd hsp (hno n), fun q hq => .inl ?_, fun i _ => by rw [hkept.same.items]⟩
    rw [← hkept.pages]
    exact hq

/-- In every state that calls lead to, a tls_write of at least one byte to an LSA below 2^31 bytes
    that returns 0. -/
theorem copiesShared_iff {es : List ((UInt64 × Call) × Ret)} {buffer : Nat → UInt8}
    (hrun : Run (Returned k) {} es s) (hi : s.Owns t e it) (hsize : it.tls.size.toNat < 2 ^ 31)
    (hlen : 1 ≤ length.toNat) (hw : s.tlsWrite k t offset length buffer = some (0, s')) :
    (∃ it', s'.Owns t e it' ∧ CopiesShared k.getpagesize s e it offset.toNat length.toNat s' it') ↔
      offset.toNat + length.toNat < 2 ^ 32 ∨
        ∀ n, ¬ Splits k.getpagesize s it offset.toNat length.toNat n := by
  have hs := run_inv hrun
  have hf : s.find t = some (some e) := by
    refine hs.toTableOk.find_owns (State.clear_iff.mpr fun hf => ?_) hi
    rw [State.tlsWrite, hf] at hw
    cases hw
  have hle : ¬ offset + length > it.tls.size := by
    intro hgt
    rw [tlsWrite_range hf hi hgt, Option.some.injEq, Prod.mk.injEq] at hw
    exact absurd hw.1 (by decide)
  by_cases hsum : offset.toNat + length.toNat < 2 ^ 32
  · exact ⟨fun _ => .inl hsum, fun _ => tlsWrite_copiesShared hs hf hi hsize hle hsum hlen hw⟩
  · rw [tlsWrite_wraps hs hf hi hle (by omega) hw]
    exact ⟨.inr, fun h => h.resolve_left hsum⟩

/-- Two threads share two pages; one of them writes across the pages. -/
theorem copiesShared_iff_clone : ∃ es s s' it', Run (Returned .upward) {} es s ∧
    s.tlsWrite .upward 24 4095 2 (fun _ => 7) = some (0, s') ∧ s'.Owns 24 1 it' ∧
    CopiesShared 4096 s 1 ⟨24, 5000, [0, 1]⟩ 4095 2 s' it' := by
  obtain ⟨es, s, hrun, hp⟩ := run_of_exec .upward (fun _ _ => True) [(1, .create 5000), (24, .clone 1)]
    (fun _ s => decide (s.items 1 = some ⟨24, 5000, [0, 1]⟩ ∧
      (s.tlsWrite .upward 24 4095 2 fun _ => 7).map Prod.fst = some 0)) (by decide +kernel)
  obtain ⟨hitem, hwrite⟩ := of_decide_eq_true hp
  obtain ⟨⟨r, s'⟩, hw, rfl⟩ := Option.map_eq_some_iff.mp hwrite
  obtain ⟨it', hi', hcopies⟩ := (copiesShared_iff hrun ⟨hitem, rfl⟩ (by decide) (by decide) hw).mpr
    (.inl (by decide))
  exact ⟨es, s, s', it', hrun, hw, hi', hcopies⟩

/-- A shared page, and a write from byte 1 on whose end wraps around to 0: it returns 0 and leaves the
    page shared. -/
theorem write_wraps_around : ∃ es s s', Run (Returned .upward) {} es s ∧ s.Owns 24 1 ⟨24, 1, [0]⟩ ∧
    s.tlsWrite .upward 24 1 4294967295 (fun _ => 7) = some (0, s') ∧
    ¬ ∃ it', s'.Owns 24 1 it' ∧ CopiesShared 4096 s 1 ⟨24, 1, [0]⟩ 1 4294967295 s' it' := by
  obtain ⟨es, s, hrun, hp⟩ := run_of_exec .upward (fun _ _ => True) [(1, .create 1), (24, .clone 1)]
    (fun _ s => decide (s.items 1 = some ⟨24, 1, [0]⟩ ∧ s.find 24 = some (some 1) ∧
      (s.pages 0).map Page.refCount = some 2 ∧
      (s.tlsWrite .upward 24 1 4294967295 fun _ => 7).map Prod.fst = some 0)) (by decide +kernel)
  obtain ⟨hitem, hfind, hshared, hwrite⟩ := of_decide_eq_true hp
  obtain ⟨⟨r, s'⟩, hw, rfl⟩ := Option.map_eq_some_iff.mp hwrite
  obtain ⟨pg, hpg, hrc⟩ := Option.map_eq_some_iff.mp hshared
  refine ⟨es, s, s', hrun, ⟨hitem, rfl⟩, hw, fun hcopies => ?_⟩
  have hno := (tlsWrite_wraps (run_inv hrun) hfind ⟨hitem, rfl⟩ (by decide) (by decide) hw).mp hcopies
  exact hno 0 ⟨by decide, 0, pg, rfl, hpg, by omega⟩

end EC440.Tls
