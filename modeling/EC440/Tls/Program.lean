/-
  A process whose threads call tls.c and access memory themselves. The bytes of the LSAs lie in the
  same address space as everything else the threads own; what keeps a thread out of them is that the
  pages are PROT_NONE between calls, and that the handler tls_init installs tells a fault in an LSA
  from any other.

  `Program` is the process as its threads see it: private arrays next to a shared memory, with no
  pages, no protections and no table. An access outside the shared memory ends the thread or the
  process, and changes nothing else.
-/
import EC440.Tls.Isolation
import EC440.Tls.Fault

namespace EC440.Tls

open EC440.Lib

/-- What a thread does: a call, or an access of its own at an address. -/
inductive Act
  | call (c : Call)
  | load (x : UInt64)
  | store (x : UInt64) (b : UInt8)

/-- The address of an access. -/
def Act.address : Act → Option UInt64
  | .call _ => none
  | .load x => some x
  | .store x _ => some x

inductive Outcome
  | returned (r : Ret)
  | loaded (b : UInt8)
  | stored
  | exited
  | killed
  deriving DecidableEq, Repr

/-- `own` is the memory that is not tls.c's, where something is mapped. -/
structure Process where
  tls : State := {}
  own : UInt64 → Option UInt8
  exited : UInt64 → Bool := fun _ => false
  killed : Bool := false

namespace Process

/-- pthread_exit ends the thread, and the default action of the signal the process. -/
def handled (t : UInt64) (p : Process) : FaultAction → Outcome × Process
  | .exitThread => (.exited, { p with exited := Function.update p.exited t true })
  | .reraise => (.killed, { p with killed := true })

/-- SIGSEGV: until the first tls_create has run tls_init, there is no handler. -/
def fault (t x : UInt64) (p : Process) : Option (Outcome × Process) :=
  if p.tls.isFirstCall then some (p.handled t .reraise)
  else (p.tls.tlsHandlePageFault x).map (p.handled t)

/-- The byte lies in a page that tls.c has mapped. -/
def InPage (k : Kernel) (p : Process) (x : UInt64) : Prop := Memory.base k.getpagesize x.toNat ∈ p.tls.mem.mapped

instance (k : Kernel) (p : Process) (x : UInt64) : Decidable (p.InPage k x) := inferInstanceAs (Decidable (_ ∈ _))

/-- `*x`; `none` is a fault. -/
def read (k : Kernel) (x : UInt64) (p : Process) : Option UInt8 :=
  if p.InPage k x then p.tls.mem.load k.getpagesize x.toNat else p.own x

/-- `*x = b` -/
def write (k : Kernel) (x : UInt64) (b : UInt8) (p : Process) : Option Process :=
  if p.InPage k x then
    (p.tls.mem.store k.getpagesize x.toNat b).map fun mem => { p with tls := { p.tls with mem := mem } }
  else (p.own x).map fun _ => { p with own := Function.update p.own x (some b) }

/-- The thread can go on. -/
def Runs (p : Process) (t : UInt64) : Prop := p.killed = false ∧ p.exited t = false

instance (p : Process) (t : UInt64) : Decidable (p.Runs t) := inferInstanceAs (Decidable (_ ∧ _))

def act (k : Kernel) (t : UInt64) (p : Process) : Act → Option (Outcome × Process)
  | .call c => (p.tls.step k (t, c)).map fun q => (.returned q.1, { p with tls := q.2 })
  | .load x =>
      match p.read k x with
      | some b => some (.loaded b, p)
      | none => p.fault t x
  | .store x b =>
      match p.write k x b with
      | some p => some (.stored, p)
      | none => p.fault t x

/-- No other thread runs while a call does. -/
def step (k : Kernel) (p : Process) (i : UInt64 × Act) : Option (Outcome × Process) :=
  if p.Runs i.1 then p.act k i.1 i.2 else none

end Process

/-! ## The process as its threads see it -/

structure Program where
  arrays : Arrays
  own : UInt64 → Option UInt8
  exited : UInt64 → Bool := fun _ => false
  killed : Bool := false

def Program.Runs (a : Program) (t : UInt64) : Prop := a.killed = false ∧ a.exited t = false

inductive Program.Step (a : Program) : (UInt64 × Act) × Outcome → Program → Prop
  | call {t : UInt64} {c : Call} : a.Runs t →
      Program.Step a ((t, .call c), .returned (a.arrays.step (t, c)).1)
        { a with arrays := (a.arrays.step (t, c)).2 }
  | load {t x : UInt64} {b : UInt8} : a.Runs t → a.own x = some b → Program.Step a ((t, .load x), .loaded b) a
  | store {t x : UInt64} {b : UInt8} : a.Runs t → a.own x ≠ none →
      Program.Step a ((t, .store x b), .stored) { a with own := Function.update a.own x (some b) }
  | exit {t x : UInt64} {act : Act} : a.Runs t → act.address = some x → a.own x = none →
      Program.Step a ((t, act), .exited) { a with exited := Function.update a.exited t true }
  | kill {t x : UInt64} {act : Act} : a.Runs t → act.address = some x → a.own x = none →
      Program.Step a ((t, act), .killed) { a with killed := true }

/-- The program of a process. -/
def Process.program (p : Process) : Program :=
  { arrays := p.tls.view, own := p.own, exited := p.exited, killed := p.killed }

/-- The calls in question are those of `Call.Cow`; an access may go anywhere. -/
def Act.Cow : Act → Prop
  | .call c => c.Cow
  | _ => True

instance : DecidablePred Act.Cow
  | .call c => inferInstanceAs (Decidable c.Cow)
  | .load _ => inferInstanceAs (Decidable True)
  | .store _ _ => inferInstanceAs (Decidable True)

variable {k : Kernel} {s s' : State} {t u : UInt64} {e n page p a : Nat} {it : Item} {pg : Page}

/-! ## What is mapped -/

/-- Every mapping of tls.c is the page of some Page, at an address that mmap gave. -/
def Recorded (k : Kernel) (s : State) : Prop :=
  ∀ a ∈ s.mem.mapped, (∃ p pg, s.pages p = some pg ∧ pg.address = a) ∧ ∃ n mapped, k.mmap n mapped = some a

/-- The pages stay where they are. -/
def Placed (s s' : State) : Prop :=
  ∀ p pg, s.pages p = some pg → ∃ pg', s'.pages p = some pg' ∧ pg'.address = pg.address

theorem Recorded.same (h : Recorded k s) (hmapped : s'.mem.mapped = s.mem.mapped) (hplaced : Placed s s') :
    Recorded k s' := by
  intro a ha
  rw [hmapped] at ha
  obtain ⟨⟨p, pg, hp, hadr⟩, hmmap⟩ := h a ha
  obtain ⟨pg', hp', hadr'⟩ := hplaced p pg hp
  exact ⟨⟨p, pg', hp', hadr'.trans hadr⟩, hmmap⟩

/-- One more page is mapped. -/
theorem Recorded.insert (h : Recorded k s) {i : Nat} {mapped : Finset Nat} (hm : k.mmap i mapped = some a)
    (hmapped : s'.mem.mapped = insert a s.mem.mapped) (hplaced : Placed s s') (hp : s'.pages p = some pg)
    (hadr : pg.address = a) : Recorded k s' := by
  intro b hb
  rw [hmapped, Finset.mem_insert] at hb
  rcases hb with rfl | hb
  · exact ⟨⟨p, pg, hp, hadr⟩, i, mapped, hm⟩
  · obtain ⟨⟨q, qg, hq, hqa⟩, hmmap⟩ := h b hb
    obtain ⟨qg', hq', hqa'⟩ := hplaced q qg hq
    exact ⟨⟨q, qg', hq', hqa'.trans hqa⟩, hmmap⟩

theorem Placed.refl (h : s'.pages = s.pages) : Placed s s' := by
  intro p pg hp
  exact ⟨pg, h ▸ hp, rfl⟩

theorem Recorded.reprotected (h : Recorded k s) (hre : Reprotected s s') : Recorded k s' := by
  obtain ⟨prot, rfl⟩ := hre
  exact h.same rfl (.refl rfl)

theorem Recorded.mapPage (h : Recorded k s) (hp : PagesOk k s) (hm : k.mmap s.mem.mmaps s.mem.mapped = some a)
    (prot : Prot) : Recorded k (s.mapPage prot a) :=
  h.insert hm rfl (fun _ pg hq => ⟨pg, hp.mapPage_old hq prot a, rfl⟩) (mapPage_new s prot a) rfl

theorem Recorded.copied (h : Recorded k s) (hp : PagesOk k s) (hpg : s.pages page = some pg)
    (hm : k.mmap s.mem.mmaps s.mem.mapped = some a) (e : Nat) (it : Item) (n : Nat) :
    Recorded k (s.copied e it n page pg a) := by
  refine h.insert hm rfl (fun q qg hq => ?_) (copied_next (a := a) hp hpg e it n) rfl
  by_cases hqp : q = page
  · rw [hqp, hpg, Option.some.injEq] at hq
    rw [hqp, ← hq]
    exact ⟨_, copied_page e it n, rfl⟩
  · exact ⟨qg, copied_other hp e it n hq hqp, rfl⟩

/-! ## The calls -/

/-- A loop of tls_protect or tls_unprotect. -/
theorem foldlM_reprotected {prot : Prot} {l : List Nat} (h : l.foldlM (State.tlsUnprotect prot) s = some s') :
    Reprotected s s' := by
  refine foldlM_invariant (I := fun _ s' => Reprotected s s') ⟨_, rfl⟩ ?_ h
  intro done p _ s₁ s₂ _ hI hp
  obtain ⟨prot₁, rfl⟩ := hI
  obtain ⟨pg, -, rfl⟩ := tlsUnprotect_cases hp
  exact ⟨_, rfl⟩

theorem writeByte_recorded {buffer : Nat → UInt8} {count : Nat} {index : Int} (hu : Unsealed k e s)
    (h : Recorded k s) (hw : s.writeByte k e buffer count index = some s') : Recorded k s' := by
  obtain ⟨it, hi, hs⟩ := hu
  obtain ⟨it', page, pg, x, hi', hn, hpg, ⟨-, rfl⟩ | ⟨-, a, hm, rfl⟩⟩ := writeByte_run hw
  · exact h.same rfl (.refl rfl)
  · exact (h.copied hs.pages hpg hm e it' (State.pageNumber s.pageSize index)).same rfl (.refl rfl)

theorem tlsWrite_recorded {offset length : UInt32} {buffer : Nat → UInt8} {r : Int} (hs : SealedBut k [] s)
    (h : Recorded k s) (hw : s.tlsWrite k t offset length buffer = some (r, s')) : Recorded k s' := by
  obtain ⟨-, rfl⟩ | ⟨e, it, s₁, s₂, it₂, -, hi, -, h₁, h₂, hi₂, h₃, -⟩ := tlsWrite_run hw
  · exact h
  obtain ⟨hs₁, hre⟩ := hs.unprotect h₁
  have hloop : Unsealed k e s₂ ∧ Recorded k s₂ := by
    refine forInt_invariant (I := fun s => Unsealed k e s ∧ Recorded k s)
      ⟨⟨it, by rw [hre.same.items]; exact hi, hs₁⟩, h.reprotected hre⟩ ?_ h₂
    intro s _ _ s' hI hb
    exact ⟨writeByte_unsealed hI.1 hb, writeByte_recorded hI.1 hI.2 hb⟩
  exact hloop.2.reprotected (foldlM_reprotected h₃)

theorem tlsRead_recorded {offset length : UInt32} {r : Int × List UInt8} (hs : SealedBut k [] s)
    (h : Recorded k s) (hr : s.tlsRead t offset length = some (r, s')) : Recorded k s' := by
  obtain ⟨-, rfl⟩ | ⟨e, it, s₁, buffer, -, -, -, h₁, -, h₂, -⟩ := tlsRead_run hr
  · exact h
  · exact (h.reprotected (hs.unprotect h₁).2).reprotected (foldlM_reprotected h₂)

theorem createPages_recorded (n : Nat) {s s' : State} {o : Option (List Nat)} (hs : SealedBut k [] s)
    (h : Recorded k s) (hc : s.createPages k n = (o, s')) : Recorded k s' := by
  induction n generalizing s s' o with
  | zero =>
    rw [State.createPages, Prod.mk.injEq] at hc
    exact hc.2 ▸ h
  | succ n ih =>
    rw [State.createPages] at hc
    cases hm : k.mmap s.mem.mmaps s.mem.mapped with
    | none =>
      rw [newPage_fail hm, Prod.mk.injEq] at hc
      rw [← hc.2]
      exact h.same rfl (.refl rfl)
    | some a =>
      rw [newPage_map hm] at hc
      have hmap := hs.mapPage (k.fresh _ _ a hm) (k.aligned _ _ a hm)
      have hrec := h.mapPage hs.pages hm .none
      cases hrest : (s.mapPage .none a).createPages k n with
      | mk o' s₁ =>
        have hs₁ := ih hmap hrec hrest
        simp only [hrest] at hc
        cases o' with
        | none => exact (Prod.mk.inj hc).2 ▸ hs₁
        | some l₁ => exact (Prod.mk.inj hc).2 ▸ hs₁

theorem tlsCreate_recorded {size : UInt32} {r : Int} (hs : SealedBut k [] s) (h : Recorded k s)
    (hc : s.tlsCreate k t size = some (r, s')) : Recorded k s' := by
  have hinit : Recorded k (s.tlsInit k) := by
    unfold State.tlsInit
    split
    · exact h.same rfl (.refl rfl)
    · exact h
  obtain ⟨-, rfl⟩ | ⟨o, s₁, hpages, hcase⟩ := tlsCreate_run hc
  · exact hinit
  have hs₁ := createPages_recorded _ (tlsInit_sealed hs) hinit hpages
  rcases hcase with ⟨-, -, rfl⟩ | ⟨pages, -, -, rfl⟩
  · exact hs₁
  · exact hs₁.same rfl (.refl rfl)

theorem sharePage_recorded (h : Recorded k s) (hp : s.sharePage p = some s') : Recorded k s' := by
  rw [State.sharePage] at hp
  obtain ⟨pg, hpg, hp⟩ := Option.bind_eq_some_iff.mp hp
  rw [Option.pure_def, Option.some.injEq, State.setRefCount] at hp
  rw [← hp]
  refine h.same rfl fun q qg hq => ?_
  by_cases hqp : q = p
  · rw [hqp, hpg, Option.some.injEq] at hq
    rw [hqp, ← hq]
    exact ⟨_, Function.update_self _ _ _, rfl⟩
  · exact ⟨qg, (Function.update_of_ne hqp _ _).trans hq, rfl⟩

theorem tlsClone_recorded {r : Int} (h : Recorded k s) (hc : s.tlsClone t u = some (r, s')) : Recorded k s' := by
  obtain ⟨-, rfl⟩ | ⟨e, it, s₁, -, -, -, h₁, -, rfl⟩ := tlsClone_run hc
  · exact h
  have hloop : Recorded k s₁ :=
    foldlM_invariant (I := fun _ s => Recorded k s) h (fun _ _ _ _ _ _ hI hp => sharePage_recorded hI hp) h₁
  exact hloop.same rfl (.refl rfl)

theorem step_recorded {c : UInt64 × Call} {r : Ret} (hs : SealedBut k [] s) (h : Recorded k s)
    (hc : c.2.isDestroy = false) (hstep : s.step k c = some (r, s')) : Recorded k s' := by
  obtain ⟨t, c⟩ := c
  cases c with
  | destroy => cases hc
  | create size =>
    obtain ⟨r₁, h₁⟩ := returned_of_map hstep fun _ => rfl
    exact tlsCreate_recorded hs h h₁
  | write offset length buffer =>
    obtain ⟨r₁, h₁⟩ := returned_of_map hstep fun _ => rfl
    exact tlsWrite_recorded hs h h₁
  | read offset length =>
    obtain ⟨r₁, h₁⟩ := returned_of_map hstep fun _ => rfl
    exact tlsRead_recorded hs h h₁
  | clone tid =>
    obtain ⟨r₁, h₁⟩ := returned_of_map hstep fun _ => rfl
    exact tlsClone_recorded h h₁

/-! ## Between two actions -/

/-- The LSAs are whole, and sealed; what is mapped belongs to one of them, and none of it is the
    threads' own. -/
structure Sound (k : Kernel) (own : UInt64 → Option UInt8) (p : Process) : Prop where
  intact : Intact k p.tls
  sealedBut : SealedBut k [] p.tls
  tabled : Tabled k p.tls
  recorded : Recorded k p.tls
  noLeak : NoLeak p.tls
  own : ∀ x, p.own x = none ↔ own x = none

/-- mmap never answers with memory that is in use. -/
def Disjoint (k : Kernel) (own : UInt64 → Option UInt8) : Prop :=
  ∀ n mapped a, k.mmap n mapped = some a → ∀ x : UInt64, Memory.base k.getpagesize x.toNat = a → own x = none

section
variable {own : UInt64 → Option UInt8} {p : Process} {x : UInt64} {b : UInt8}

/-- The pages of tls.c are those of the LSAs. -/
theorem Sound.inPage_iff (h : Sound k own p) : p.InPage k x ↔ p.tls.InLsa x.toNat := by
  have hsize : ∀ i it, p.tls.items i = some it → p.tls.pageSize = k.getpagesize :=
    fun i it hi => h.tabled.pageSize (h.tabled.started i it hi)
  constructor
  · intro hx
    obtain ⟨⟨q, pg, hq, hadr⟩, -⟩ := h.recorded _ hx
    have hpos := h.noLeak q pg hq
    obtain ⟨i, -, hqi⟩ : ∃ i, i < p.tls.nextItem ∧ q ∈ p.tls.slots i := by
      by_contra hno
      have hzero : p.tls.refs q = 0 := refs_eq_zero.mpr fun j hj hqj => hno ⟨j, hj, hqj⟩
      omega
    obtain ⟨it, hit, hqit⟩ := mem_slots hqi
    refine ⟨it.tid, i, it, ⟨hit, rfl⟩, q, hqit, pg, hq, ?_⟩
    rw [hsize i it hit]
    exact (base_eq_iff (getpagesize_pos k) (h.sealedBut.pages.aligned q pg hq)).mp hadr
  · intro ⟨t, i, it, hown, q, hq, pg, hpg, hrange⟩
    rw [hsize i it hown.1] at hrange
    have hadr := (base_eq_iff (getpagesize_pos k) (h.sealedBut.pages.aligned q pg hpg)).mpr hrange
    unfold Process.InPage
    rw [← hadr]
    exact h.sealedBut.pages.mapped q pg hpg

theorem Sound.prot_none (h : Sound k own p) (hx : p.InPage k x) :
    p.tls.mem.prot (Memory.base k.getpagesize x.toNat) = .none := by
  obtain ⟨⟨q, pg, hq, hadr⟩, -⟩ := h.recorded _ hx
  exact hadr ▸ h.sealedBut.none hq

theorem Sound.own_none (h : Sound k own p) (hfree : Disjoint k own) (hx : p.InPage k x) : p.own x = none := by
  obtain ⟨-, n, mapped, hm⟩ := h.recorded _ hx
  exact (h.own x).mpr (hfree n mapped _ hm x rfl)

/-- No byte of an LSA is read past tls_read. -/
theorem Sound.read (h : Sound k own p) (hfree : Disjoint k own) (x : UInt64) : p.read k x = p.own x := by
  unfold Process.read
  split
  · next hx =>
    rw [h.own_none hfree hx, Memory.load, if_neg]
    intro hload
    rw [h.prot_none hx] at hload
    cases hload.2
  · rfl

/-- No byte of an LSA is written past tls_write. -/
theorem Sound.write (h : Sound k own p) (hfree : Disjoint k own) (x : UInt64) (b : UInt8) :
    p.write k x b = (p.own x).map fun _ => { p with own := Function.update p.own x (some b) } := by
  unfold Process.write
  split
  · next hx =>
    rw [h.own_none hfree hx, Memory.store, if_neg]
    · rfl
    intro hstore
    rw [h.prot_none hx] at hstore
    cases hstore.2
  · rfl

/-- The handler ends the thread for a fault in a page of tls.c, and the process for any other. -/
theorem Sound.fault (h : Sound k own p) (t x : UInt64) :
    p.fault t x = some (p.handled t (if p.InPage k x then .exitThread else .reraise)) := by
  unfold Process.fault
  split
  · next hfirst =>
    rw [if_neg]
    intro hx
    obtain ⟨t', i, it, hown, -⟩ := h.inPage_iff.mp hx
    rw [h.tabled.started i it hown.1] at hfirst
    cases hfirst
  · next hfirst =>
    have hwalk : Walkable p.tls := ⟨h.sealedBut.live, h.sealedBut.alloc, h.tabled.linked⟩
    obtain ⟨found, hfound, hiff⟩ := hwalk.search (faultPage p.tls.pageSize x)
    have hsize := h.tabled.pageSize (Bool.not_eq_true _ ▸ hfirst)
    have hin : found = true ↔ p.InPage k x := by
      rw [hiff, h.inPage_iff]
      refine exists_congr fun u => exists_congr fun i => exists_congr fun it => and_congr_right fun _ =>
        exists_congr fun page => and_congr_right fun _ => exists_congr fun pg => and_congr_right fun hpg => ?_
      rw [hsize, Kernel.getpagesize, faultPage_toNat]
      exact base_eq_iff (getpagesize_pos k) (h.sealedBut.pages.aligned page pg hpg)
    unfold State.tlsHandlePageFault
    dsimp only
    rw [hfound]
    by_cases hx : p.InPage k x
    · rw [if_pos hx, hin.mpr hx]
      rfl
    · have hno : found = false := by rw [← Bool.not_eq_true, hin]; exact hx
      rw [if_neg hx, hno]
      rfl

theorem Sound.handled (h : Sound k own p) (t : UInt64) (a : FaultAction) : Sound k own (p.handled t a).2 := by
  cases a with
  | exitThread => exact ⟨h.intact, h.sealedBut, h.tabled, h.recorded, h.noLeak, h.own⟩
  | reraise => exact ⟨h.intact, h.sealedBut, h.tabled, h.recorded, h.noLeak, h.own⟩

/-! ## One action -/

theorem Call.Cow.isDestroy {c : Call} (hc : c.Cow) : c.isDestroy = false := by
  cases c with
  | destroy => exact hc.elim
  | create size => rfl
  | write offset length buffer => rfl
  | read offset length => rfl
  | clone tid => rfl

/-- No walk meets a destroyed item, and no byte loop leaves the ints. -/
theorem Intact.safe (h : Intact k s) (t : UInt64) {c : Call} (hc : c.Cow) : Safe s (t, c) := by
  have hint : ∀ offset length, s.InInt t offset length := by
    intro offset length i _
    cases hit : s.items i with
    | none => rfl
    | some it =>
      rw [Option.all_some, decide_eq_true_eq]
      intro ht
      exact h.inInt ⟨hit, ht⟩ offset length
  have hclear := h.live.clear t
  cases c with
  | create size => exact .inr hclear
  | destroy => exact hc.elim
  | write offset length buffer => exact ⟨hclear, hint offset length⟩
  | read offset length => exact ⟨hclear, hint offset length⟩
  | clone tid => exact ⟨hclear, h.live.clear tid⟩

theorem Sound.call (hk : k.Maps) (h : Sound k own p) (t : UInt64) {c : Call} (hc : c.Cow) :
    ∃ r s', p.tls.step k (t, c) = some (r, s') ∧ Sound k own { p with tls := s' } ∧
      p.tls.view.step (t, c) = (r, s'.view) := by
  obtain ⟨r, s', hstep, hintact, hsim⟩ := step_sim hk h.intact t hc
  obtain ⟨r', s'', hstep', -, hleak, -⟩ := step_safe hk h.intact.toInv h.noLeak (h.intact.safe t hc)
  obtain ⟨rfl, rfl⟩ := Prod.mk.inj (Option.some.inj (hstep.symm.trans hstep'))
  exact ⟨r, s', hstep, ⟨hintact, step_sealed h.sealedBut hc.isDestroy hstep,
    step_tabled h.sealedBut.pages h.tabled hc.isDestroy hstep,
    step_recorded h.sealedBut h.recorded hc.isDestroy hstep, hleak, h.own⟩, hsim⟩

/-- An access where the threads have no memory. -/
theorem Sound.access (h : Sound k own p) (act : Act) (hruns : p.Runs t) (hact : act.address = some x)
    (hx : p.own x = none) :
    ∃ o p', p.fault t x = some (o, p') ∧ Sound k own p' ∧ Program.Step p.program ((t, act), o) p'.program ∧
      (o = .exited ↔ p.tls.InLsa x.toNat) := by
  by_cases hin : p.InPage k x
  · refine ⟨.exited, _, (h.fault t x).trans (by rw [if_pos hin]; rfl), h.handled t .exitThread,
      .exit hruns hact hx, iff_of_true rfl (h.inPage_iff.mp hin)⟩
  · refine ⟨.killed, _, (h.fault t x).trans (by rw [if_neg hin]; rfl), h.handled t .reraise,
      .kill hruns hact hx, iff_of_false (fun hc => by cases hc) (mt h.inPage_iff.mpr hin)⟩

theorem Sound.act (hk : k.Maps) (h : Sound k own p) (hfree : Disjoint k own) (hruns : p.Runs t) {act : Act}
    (hact : act.Cow) :
    ∃ o p', p.step k (t, act) = some (o, p') ∧ Sound k own p' ∧ Program.Step p.program ((t, act), o) p'.program ∧
      (o = .exited ↔ ∃ x, act.address = some x ∧ p.tls.InLsa x.toNat) := by
  have hstep : p.step k (t, act) = p.act k t act := if_pos hruns
  rw [hstep]
  -- no LSA lies where the threads have memory of their own
  have hown : ∀ x b, p.own x = some b → ¬ p.tls.InLsa x.toNat := by
    intro x b hx hin
    rw [h.own_none hfree (h.inPage_iff.mpr hin)] at hx
    cases hx
  cases act with
  | call c =>
    obtain ⟨r, s', hc, hs', hsim⟩ := h.call hk t hact
    have hstep : Program.Step p.program ((t, .call c), .returned (p.tls.view.step (t, c)).1)
        { p.program with arrays := (p.tls.view.step (t, c)).2 } := .call hruns
    rw [hsim] at hstep
    refine ⟨_, _, by rw [Process.act, hc]; rfl, hs', hstep, ?_⟩
    refine iff_of_false (fun hc => by cases hc) ?_
    rintro ⟨x, ⟨⟩, -⟩
  | load x =>
    unfold Process.act
    dsimp only
    rw [h.read hfree x]
    cases hx : p.own x with
    | some b =>
      refine ⟨_, _, rfl, h, .load hruns hx, iff_of_false (fun hc => by cases hc) ?_⟩
      rintro ⟨y, ⟨⟩, hin⟩
      exact hown x b hx hin
    | none =>
      obtain ⟨o, p', hf, hs', hstep, hiff⟩ := h.access (.load x) hruns rfl hx
      refine ⟨o, p', hf, hs', hstep, hiff.trans ⟨fun hin => ⟨x, rfl, hin⟩, ?_⟩⟩
      rintro ⟨y, ⟨⟩, hin⟩
      exact hin
  | store x b =>
    unfold Process.act
    dsimp only
    rw [h.write hfree x b]
    cases hx : p.own x with
    | some b' =>
      refine ⟨_, _, rfl, ⟨h.intact, h.sealedBut, h.tabled, h.recorded, h.noLeak, fun y => ?_⟩,
        .store hruns (by rw [show p.program.own x = p.own x from rfl, hx]; simp), iff_of_false (fun hc => by cases hc) ?_⟩
      · dsimp only
        by_cases hy : y = x
        · rw [hy, Function.update_self, ← h.own x, hx]
          simp
        · rw [Function.update_of_ne hy]
          exact h.own y
      · rintro ⟨y, ⟨⟩, hin⟩
        exact hown x b' hx hin
    | none =>
      obtain ⟨o, p', hf, hs', hstep, hiff⟩ := h.access (.store x b) hruns rfl hx
      refine ⟨o, p', hf, hs', hstep, hiff.trans ⟨fun hin => ⟨x, rfl, hin⟩, ?_⟩⟩
      rintro ⟨y, ⟨⟩, hin⟩
      exact hin

/-! ## Runs -/

end

end EC440.Tls
