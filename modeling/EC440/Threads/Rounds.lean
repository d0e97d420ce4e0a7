/-
  The rounds of the barrier. A round is gathered (`Gathering`) until its last arrival, and then
  released (`Releasing`) until the thread that was blocked returns and sets `left` back.

  When that thread returns, no thread may still be in the while loop, or it would wait for a round
  it has left. This is where round robin comes in: between the last schedule() of the blocked
  thread and its return every ready thread has been switched in once (`Ahead`).
-/
import EC440.Threads.Barrier

namespace EC440.Threads

open EC440.Lib

variable {P : Finset Tid} {s s' : Barrier} {t u a : Tid} {p : BarrierPc} {r k : Nat} {v : Int}

/-! ## schedule() -/

/-- Ready, or running. -/
def Barrier.Alive (s : Barrier) (t : Tid) : Prop := s.status t = .ready ∨ t = s.tid

def Barrier.atPc (p : BarrierPc) (s : Barrier) : Barrier := { s with pc := Function.update s.pc s.tid p }

def Barrier.switchTo (status : Tid → Status) (u : Tid) (s : Barrier) : Barrier :=
  { s with status := status, tid := u }

/-- What a schedule() leaves, of a thread that goes on at `p`. -/
structure SwitchedFrom (s : Barrier) (p : BarrierPc) (s' : Barrier) : Prop where
  eq : s' = (s.atPc p).switchTo s'.status s'.tid
  running : s'.status s'.tid = .running
  only : (∀ t, s.status t = .running → t = s.tid) → ∀ t, s'.status t = .running → t = s'.tid
  alive : ∀ t, preempt s.status s.tid t = .ready → s'.Alive t
  blocked : ∀ t, s.status t = .blocked → s'.status t = .blocked
  order : ∀ t u, preempt s.status s.tid t = .ready → rounds s.tid t < rounds s.tid u →
    distance s'.tid t < distance s'.tid u

theorem schedule_spec (h : s.schedule p = some s') : SwitchedFrom s p s' := by
  obtain ⟨u, hpick, rfl⟩ := Option.map_eq_some_iff.mp h
  have hready := pick_ready hpick
  refine
    { eq := rfl
      running := switched_self
      only := fun honly t ht => switched_running honly ht
      alive := fun t ht => ?_
      blocked := fun t ht => (switched_blocked hready).mpr ht
      order := fun t v ht hlt => pick_order hpick ht hlt }
  by_cases htu : t = u
  · exact .inr htu
  · exact .inl ((switched_of_ne htu).trans ht)

theorem atPc_self (s : Barrier) (p : BarrierPc) : (s.atPc p).pc s.tid = p := Function.update_self _ _ _

theorem atPc_of_ne (p : BarrierPc) (h : t ≠ s.tid) : (s.atPc p).pc t = s.pc t := Function.update_of_ne h _ _

theorem SwitchedFrom.pc (h : SwitchedFrom s p s') : s'.pc = (s.atPc p).pc := by rw [h.eq]; rfl

/-! ## The threads inside the barrier -/

/-- The thread that the barrier keeps blocked. -/
def Barrier.blockedThread (s : Barrier) : Option Tid := if s.flag = 1 then s.callingThread else none

/-- Only `tid` runs; every thread inside the barrier is alive, except the blocked one. -/
structure StatusOk (s : Barrier) : Prop where
  running : s.status s.tid = .running
  only : ∀ t, s.status t = .running → t = s.tid
  alive : ∀ t, s.pc t ≠ .user → s.blockedThread ≠ some t → s.Alive t
  blocked : ∀ t, s.blockedThread = some t → s.status t = .blocked

/-- The calls and returns of each thread match. -/
structure CallsOk (P : Finset Tid) (s : Barrier) : Prop where
  count : P.card = s.count.toNat
  two : 2 ≤ P.card
  outside : ∀ t, t ∉ P → s.pc t = .user ∧ s.entered t = 0
  user : ∀ t, s.pc t = .user → (s.results t).length = s.entered t
  inside : ∀ t, s.pc t ≠ .user → (s.results t).length + 1 = s.entered t

/-- Round `k` is over for the thread that returns PTHREAD_BARRIER_SERIAL_THREAD from it. -/
def SerialAt (P : Finset Tid) (s : Barrier) (k : Nat) : Prop :=
  ∃ t ∈ P, (s.results t)[k]? = some serialThread ∧
    ∀ u ∈ P, u ≠ t → ∀ v, (s.results u)[k]? = some v → v = 0

/-- The threads that have entered round `r`. -/
def arrived (P : Finset Tid) (r : Nat) (s : Barrier) : Finset Tid := P.filter fun t => s.entered t = r + 1

structure Gathering (P : Finset Tid) (r : Nat) (s : Barrier) : Prop where
  entered : ∀ t ∈ P, s.entered t = r ∨ s.entered t = r + 1
  new : ∀ t ∈ P, s.entered t = r + 1 → s.pc t = .inIf ∨ s.pc t = .inWhile
  old : ∀ t ∈ P, s.entered t = r → s.pc t = .user ∨ s.pc t = .inLast
  inIf : ∀ t, s.pc t = .inIf → s.flag = 1 ∧ s.callingThread = some t
  first : s.flag = 1 → ∃ a, s.callingThread = some a ∧ s.pc a = .inIf
  idle : s.flag ≠ 1 → (∀ t ∈ P, s.entered t = r) ∧ ∀ c, s.callingThread = some c → s.pc c = .user
  left : s.left.toNat + (arrived P r s).card = s.count.toNat
  nonzero : s.left ≠ 0
  serials : ∀ k < r, SerialAt P s k

structure Releasing (P : Finset Tid) (r : Nat) (a : Tid) (s : Barrier) : Prop where
  entered : ∀ t ∈ P, s.entered t = r + 1
  left : s.left = 0
  flag : s.flag ≠ 1
  callingThread : s.callingThread = some a
  mem : a ∈ P
  calling : s.pc a = .inIf ∨ s.pc a = .inLast
  others : ∀ t, s.pc t = .inIf → t = a
  serials : ∀ k < r, SerialAt P s k
  zero : ∀ t ∈ P, ∀ v, (s.results t)[r]? = some v → v = 0

/-- Once the released thread is in its last schedule(), the threads in the while loop come up
    before it. -/
def Ahead (a : Tid) (s : Barrier) : Prop :=
  s.pc a = .inLast → ∀ t, s.pc t = .inWhile → distance s.tid t < distance s.tid a

structure BarrierInv (P : Finset Tid) (s : Barrier) : Prop where
  calls : CallsOk P s
  status : StatusOk s
  phase : (∃ r, Gathering P r s) ∨ ∃ r a, Releasing P r a s ∧ Ahead a s

/-! ## What the invariant says of the rounds -/

theorem SerialAt.value (h : SerialAt P s k) (ht : t ∈ P) (hv : (s.results t)[k]? = some v) :
    v = serialThread ∨ v = 0 := by
  obtain ⟨c, -, hc, hothers⟩ := h
  by_cases htc : t = c
  · rw [htc, hc, Option.some.injEq] at hv
    exact .inl hv.symm
  · exact .inr (hothers t ht htc v hv)

theorem SerialAt.unique (h : SerialAt P s k) (ht : t ∈ P) (hu : u ∈ P)
    (h1 : (s.results t)[k]? = some serialThread) (h2 : (s.results u)[k]? = some serialThread) : t = u := by
  obtain ⟨c, -, -, hothers⟩ := h
  have hc : ∀ x ∈ P, (s.results x)[k]? = some serialThread → x = c := by
    intro x hx hs
    by_contra hne
    exact absurd (hothers x hx hne _ hs) (by decide)
  rw [hc t ht h1, hc u hu h2]

theorem CallsOk.length_le (h : CallsOk P s) (t : Tid) : (s.results t).length ≤ s.entered t := by
  by_cases hpc : s.pc t = .user
  · exact (h.user t hpc).le
  · have := h.inside t hpc
    omega

/-- What is known of each round, when the results of round `r` and later are none or 0. -/
theorem RoundsOk.of_serials (hlt : ∀ t ∈ P, ∀ k, k < (s.results t).length → ∀ u ∈ P, k < s.entered u)
    (hser : ∀ k < r, SerialAt P s k) (hzero : ∀ k, r ≤ k → ∀ t ∈ P, ∀ v, (s.results t)[k]? = some v → v = 0)
    (hnone : ∀ k, r ≤ k → ∃ t ∈ P, (s.results t).length ≤ k) (hleft : s.left.toNat ≤ s.count.toNat) :
    RoundsOk P s := by
  refine ⟨hlt, fun t ht k v hv => ?_, fun t ht u hu k h1 h2 => ?_, fun k hk => ?_, hleft⟩
  · by_cases hkr : k < r
    · exact (hser k hkr).value ht hv
    · exact .inr (hzero k (by omega) t ht v hv)
  · by_cases hkr : k < r
    · exact (hser k hkr).unique ht hu h1 h2
    · exact absurd (hzero k (by omega) t ht _ h1) (by decide)
  · by_cases hkr : k < r
    · obtain ⟨t, ht, hs, -⟩ := hser k hkr
      exact ⟨t, ht, hs⟩
    · obtain ⟨t, ht, hle⟩ := hnone k (by omega)
      exact absurd (hk t ht) (by omega)

theorem Gathering.length_le (h : Gathering P r s) (hc : CallsOk P s) (ht : t ∈ P) : (s.results t).length ≤ r := by
  rcases h.entered t ht with he | he
  · exact he ▸ hc.length_le t
  · have hpc : s.pc t ≠ .user := by
      rcases h.new t ht he with hp | hp <;> rw [hp] <;> simp
    have := hc.inside t hpc
    omega

theorem Gathering.roundsOk (h : Gathering P r s) (hc : CallsOk P s) : RoundsOk P s := by
  obtain ⟨t, ht⟩ : P.Nonempty := Finset.card_pos.mp (by have := hc.two; omega)
  have hlen : ∀ t ∈ P, (s.results t).length ≤ r := fun t ht => h.length_le hc ht
  refine RoundsOk.of_serials (fun t ht k hk u hu => ?_) h.serials (fun k hk t ht v hv => ?_)
    (fun k hk => ⟨t, ht, (hlen t ht).trans hk⟩) (by have := h.left; omega)
  · have h1 := hlen t ht
    rcases h.entered u hu with he | he <;> omega
  · obtain ⟨hlt, -⟩ := List.getElem?_eq_some_iff.mp hv
    have := hlen t ht
    omega

theorem Releasing.roundsOk (h : Releasing P r a s) (hc : CallsOk P s) : RoundsOk P s := by
  have hlen : ∀ t ∈ P, (s.results t).length ≤ r + 1 := fun t ht => h.entered t ht ▸ hc.length_le t
  have ha : (s.results a).length ≤ r := by
    have hpc : s.pc a ≠ .user := by
      rcases h.calling with hp | hp <;> rw [hp] <;> simp
    have h1 := hc.inside a hpc
    have h2 := h.entered a h.mem
    omega
  refine RoundsOk.of_serials (fun t ht k hk u hu => ?_) h.serials (fun k hk t ht v hv => ?_)
    (fun k hk => ⟨a, h.mem, ha.trans hk⟩) (by rw [h.left]; exact Nat.zero_le _)
  · have h1 := hlen t ht
    have h2 := h.entered u hu
    omega
  · obtain ⟨hlt, -⟩ := List.getElem?_eq_some_iff.mp hv
    have h1 := hlen t ht
    obtain rfl : k = r := by omega
    exact h.zero t ht v hv

theorem BarrierInv.roundsOk (h : BarrierInv P s) : RoundsOk P s := by
  rcases h.phase with ⟨r, hg⟩ | ⟨r, a, hr, -⟩
  · exact hg.roundsOk h.calls
  · exact hr.roundsOk h.calls

theorem Barrier.Initial.inv (h : s.Initial P) : BarrierInv P s := by
  have hflag : s.flag ≠ 1 := by rw [h.flag]; simp
  have hcount := h.count
  have htwo := h.two
  refine ⟨⟨hcount, htwo, fun t _ => ⟨h.pc t, h.entered t⟩, fun t _ => ?_, fun t ht => absurd (h.pc t) ht⟩,
    ⟨h.running, fun t ht => ?_, fun t ht => absurd (h.pc t) ht, fun t ht => ?_⟩, .inl ⟨0, ?_⟩⟩
  · rw [h.results, h.entered]
    rfl
  · by_contra hne
    exact h.others t hne ht
  · rw [Barrier.blockedThread, if_neg hflag] at ht
    cases ht
  · refine
      { entered := fun t _ => .inl (h.entered t)
        new := fun t _ ht => ?_
        old := fun t _ _ => .inl (h.pc t)
        inIf := fun t ht => ?_
        first := fun hf => absurd hf hflag
        idle := fun _ => ⟨fun t _ => h.entered t, fun c _ => h.pc c⟩
        left := ?_
        nonzero := ?_
        serials := fun k hk => absurd hk (Nat.not_lt_zero k) }
    · rw [h.entered] at ht
      cases ht
    · rw [h.pc] at ht
      cases ht
    · have hnone : arrived P 0 s = ∅ := by
        apply Finset.filter_eq_empty_iff.mpr
        intro t _
        rw [h.entered]
        simp
      rw [hnone, h.left]
      rfl
    · intro hz
      rw [← h.left, hz] at hcount
      have : P.card = 0 := hcount
      omega

/-! ## Switches keep the invariant -/

theorem CallsOk.switchTo (h : CallsOk P s) (st : Tid → Status) (u : Tid) : CallsOk P (s.switchTo st u) :=
  ⟨h.count, h.two, h.outside, h.user, h.inside⟩

theorem Gathering.switchTo (h : Gathering P r s) (st : Tid → Status) (u : Tid) :
    Gathering P r (s.switchTo st u) :=
  ⟨h.entered, h.new, h.old, h.inIf, h.first, h.idle, h.left, h.nonzero, h.serials⟩

theorem Releasing.switchTo (h : Releasing P r a s) (st : Tid → Status) (u : Tid) :
    Releasing P r a (s.switchTo st u) :=
  ⟨h.entered, h.left, h.flag, h.callingThread, h.mem, h.calling, h.others, h.serials, h.zero⟩

/-- The statuses just before a schedule() by a thread that goes on at `p`. -/
structure BeforeSwitch (p : BarrierPc) (s : Barrier) : Prop where
  only : ∀ t, s.status t = .running → t = s.tid
  ready : ∀ t, t ≠ s.tid → s.pc t ≠ .user → s.blockedThread ≠ some t → s.status t = .ready
  self : p ≠ .user → s.blockedThread ≠ some s.tid → s.status s.tid = .running
  blocked : ∀ t, s.blockedThread = some t → s.status t = .blocked

theorem SwitchedFrom.statusOk (h : SwitchedFrom s p s') (hb : BeforeSwitch p s) : StatusOk s' := by
  have hblk : s'.blockedThread = s.blockedThread := by rw [h.eq]; rfl
  refine ⟨h.running, h.only hb.only, fun t ht hnb => h.alive t ?_, fun t ht => h.blocked t (hb.blocked t ?_)⟩
  · rw [h.pc] at ht
    rw [hblk] at hnb
    by_cases htt : t = s.tid
    · rw [htt] at ht hnb ⊢
      rw [atPc_self] at ht
      exact preempt_self (hb.self ht hnb)
    · rw [atPc_of_ne p htt] at ht
      rw [preempt_of_ne htt]
      exact hb.ready t htt ht hnb
  · rw [← hblk]
    exact ht

/-- The threads in the while loop still come up before `a`, or `a` has just begun its last
    schedule(). -/
theorem SwitchedFrom.ahead (h : SwitchedFrom s p s') (hp : p ≠ .inWhile)
    (hready : ∀ t, t ≠ s.tid → s.pc t = .inWhile → s.status t = .ready)
    (ha : s.tid = a ∨ Ahead a s) : Ahead a s' := by
  intro hlast t ht
  rw [h.pc] at hlast ht
  have htt : t ≠ s.tid := by
    intro htt
    rw [htt, atPc_self] at ht
    exact hp ht
  rw [atPc_of_ne p htt] at ht
  have hpre : preempt s.status s.tid t = .ready := by
    rw [preempt_of_ne htt]
    exact hready t htt ht
  refine h.order t a hpre ?_
  by_cases hta : s.tid = a
  · rw [← hta, rounds_self]
    exact rounds_lt htt
  · rw [atPc_of_ne p (Ne.symm hta)] at hlast
    rw [rounds_eq_distance (Ne.symm htt), rounds_eq_distance hta]
    exact (ha.resolve_left hta) hlast t ht

theorem SwitchedFrom.gathering (h : SwitchedFrom s p s') (hb : BeforeSwitch p s) (hc : CallsOk P (s.atPc p))
    (hg : Gathering P r (s.atPc p)) : BarrierInv P s' := by
  refine ⟨?_, h.statusOk hb, .inl ⟨r, ?_⟩⟩ <;> rw [h.eq]
  · exact hc.switchTo _ _
  · exact hg.switchTo _ _

theorem SwitchedFrom.releasing (h : SwitchedFrom s p s') (hb : BeforeSwitch p s) (hc : CallsOk P (s.atPc p))
    (hr : Releasing P r a (s.atPc p)) (hp : p ≠ .inWhile) (ha : s.tid = a ∨ Ahead a s) : BarrierInv P s' := by
  refine ⟨?_, h.statusOk hb, .inr ⟨r, a, ?_, h.ahead hp (fun t htt ht => ?_) ha⟩⟩
  · rw [h.eq]
    exact hc.switchTo _ _
  · rw [h.eq]
    exact hr.switchTo _ _
  · refine hb.ready t htt (by rw [ht]; simp) ?_
    rw [Barrier.blockedThread, if_neg (show s.flag ≠ 1 from hr.flag)]
    simp

/-! ## Calls in user code -/

/-- A thread in user code gives way; the statuses of the threads in the barrier are as before. -/
theorem BarrierInv.userSwitch (h : BarrierInv P s) (hpc : s.pc s.tid = .user) {st : Tid → Status}
    (hst : ∀ t, t ≠ s.tid → s.status t = .ready ∨ s.status t = .blocked → st t = s.status t)
    (honly : ∀ t, st t = .running → t = s.tid)
    (hs : ({ s with status := st } : Barrier).schedule .user = some s') : BarrierInv P s' := by
  have hsw := schedule_spec hs
  have hat : Function.update s.pc s.tid .user = s.pc := by rw [← hpc, Function.update_eq_self]
  have htid : ∀ t, s.pc t ≠ .user → t ≠ s.tid := fun t ht htt => ht (htt ▸ hpc)
  have hblk : ∀ t, s.blockedThread = some t → t ≠ s.tid := by
    intro t ht htt
    have h1 := h.status.blocked t ht
    rw [htt, h.status.running] at h1
    cases h1
  have hb : BeforeSwitch .user ({ s with status := st } : Barrier) := by
    refine ⟨honly, fun t htt ht hnb => ?_, fun hp => absurd rfl hp, fun t ht => ?_⟩
    · have hready := (h.status.alive t ht hnb).resolve_right htt
      exact (hst t htt (.inl hready)).trans hready
    · have hblocked := h.status.blocked t ht
      exact (hst t (hblk t ht) (.inr hblocked)).trans hblocked
  have hcalls : CallsOk P (({ s with status := st } : Barrier).atPc .user) := by
    refine ⟨h.calls.count, h.calls.two, ?_, ?_, ?_⟩ <;> simp only [Barrier.atPc, hat]
    · exact h.calls.outside
    · exact h.calls.user
    · exact h.calls.inside
  rcases h.phase with ⟨r, hg⟩ | ⟨r, a, hr, ha⟩
  · refine hsw.gathering hb hcalls (r := r) ?_
    refine ⟨hg.entered, ?_, ?_, ?_, ?_, ?_, hg.left, hg.nonzero, hg.serials⟩ <;> simp only [Barrier.atPc, hat]
    · exact hg.new
    · exact hg.old
    · exact hg.inIf
    · exact hg.first
    · exact hg.idle
  · refine hsw.releasing hb hcalls (r := r) (a := a) ?_ (by simp) (.inr ha)
    refine ⟨hr.entered, hr.left, hr.flag, hr.callingThread, hr.mem, ?_, ?_, hr.serials, hr.zero⟩ <;>
      simp only [Barrier.atPc, hat]
    · exact hr.calling
    · exact hr.others

theorem BarrierInv.create (h : BarrierInv P s) (hpc : s.pc s.tid = .user) (hu : s.status u = .empty)
    (hs : { s with status := Function.update s.status u .ready }.schedule .user = some s') :
    BarrierInv P s' := by
  apply h.userSwitch hpc (fun t _ ht => ?_) (fun t ht => ?_) hs
  · apply Function.update_of_ne
    intro htu
    rw [htu, hu] at ht
    rcases ht with ht | ht <;> cases ht
  · by_cases htu : t = u
    · rw [htu, Function.update_self] at ht
      cases ht
    · rw [Function.update_of_ne htu] at ht
      exact h.status.only t ht

theorem BarrierInv.yield (h : BarrierInv P s) (hpc : s.pc s.tid = .user) (hs : s.schedule .user = some s') :
    BarrierInv P s' :=
  h.userSwitch hpc (fun _ _ _ => rfl) h.status.only hs

theorem BarrierInv.exit (h : BarrierInv P s) (hpc : s.pc s.tid = .user)
    (hs : { s with status := Function.update s.status s.tid .exited }.schedule .user = some s') :
    BarrierInv P s' := by
  apply h.userSwitch hpc (fun t ht _ => Function.update_of_ne ht _ _) (fun t ht => ?_) hs
  by_contra htt
  rw [Function.update_of_ne htt] at ht
  exact htt (h.status.only t ht)

end EC440.Threads
