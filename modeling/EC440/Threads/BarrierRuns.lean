/-
  Each statement of pthread_barrier_wait keeps the invariant of the rounds: the wait loop, the
  return, and the arrivals as first, next and last thread of a round.
-/
import EC440.Threads.Rounds

namespace EC440.Threads

open EC440.Lib

variable {P : Finset Tid} {s s' : Barrier} {t u a : Tid} {p : BarrierPc} {r k : Nat} {v : Int}

/-! ## In the barrier -/

theorem CallsOk.mem (h : CallsOk P s) (hpc : s.pc t ≠ .user) : t ∈ P := by
  by_contra ht
  exact hpc (h.outside t ht).1

theorem CallsOk.atPc (h : CallsOk P s) (hpc : s.pc s.tid ≠ .user) (hp : p ≠ .user) : CallsOk P (s.atPc p) := by
  refine ⟨h.count, h.two, fun t ht => ?_, fun t ht => ?_, fun t ht => ?_⟩
  · have htt : t ≠ s.tid := fun htt => ht (htt ▸ h.mem hpc)
    rw [atPc_of_ne p htt]
    exact h.outside t ht
  · have htt : t ≠ s.tid := by
      intro htt
      rw [htt, atPc_self] at ht
      exact hp ht
    rw [atPc_of_ne p htt] at ht
    exact h.user t ht
  · by_cases htt : t = s.tid
    · rw [htt]
      exact h.inside s.tid hpc
    · rw [atPc_of_ne p htt] at ht
      exact h.inside t ht

theorem StatusOk.beforeSwitch (h : StatusOk s) (p : BarrierPc) : BeforeSwitch p s :=
  ⟨h.only, fun t htt ht hnb => (h.alive t ht hnb).resolve_right htt, fun _ _ => h.running, h.blocked⟩

/-- The thread that runs while a round is gathered is not the blocked one. -/
theorem Gathering.tid_ne_inIf (hg : Gathering P r s) (hs : StatusOk s) : s.pc s.tid ≠ .inIf := by
  intro hpc
  obtain ⟨hflag, hcall⟩ := hg.inIf s.tid hpc
  have hblk : s.blockedThread = some s.tid := by
    rw [Barrier.blockedThread, if_pos hflag]
    exact hcall
  have hstatus := hs.blocked s.tid hblk
  rw [hs.running] at hstatus
  cases hstatus

theorem Gathering.resume (hg : Gathering P r s) (hc : CallsOk P s) (hs : StatusOk s)
    (hpc : s.pc s.tid = .inIf ∨ s.pc s.tid = .inWhile) (hw : s.waitLoop = some s') : BarrierInv P s' := by
  have hwhile := hpc.resolve_left (hg.tid_ne_inIf hs)
  rw [Barrier.waitLoop, if_pos hg.nonzero] at hw
  have hat : s.atPc .inWhile = s := by
    unfold Barrier.atPc
    rw [← hwhile, Function.update_eq_self]
  apply (schedule_spec hw).gathering (hs.beforeSwitch .inWhile)
  · rw [hat]
    exact hc
  · rw [hat]
    exact hg

theorem Releasing.atLast (hr : Releasing P r a s) : Releasing P r a (s.atPc .inLast) := by
  refine ⟨hr.entered, hr.left, hr.flag, hr.callingThread, hr.mem, ?_, fun t ht => ?_, hr.serials, hr.zero⟩
  · by_cases hat : a = s.tid
    · rw [hat]
      exact .inr (atPc_self s .inLast)
    · rw [atPc_of_ne .inLast hat]
      exact hr.calling
  · have htt : t ≠ s.tid := by
      intro htt
      rw [htt, atPc_self] at ht
      cases ht
    rw [atPc_of_ne .inLast htt] at ht
    exact hr.others t ht

theorem Releasing.resume (hr : Releasing P r a s) (ha : Ahead a s) (hc : CallsOk P s) (hs : StatusOk s)
    (hpc : s.pc s.tid ≠ .user) (hw : s.waitLoop = some s') : BarrierInv P s' := by
  rw [Barrier.waitLoop, if_neg (not_not.mpr hr.left), if_neg hr.flag] at hw
  exact (schedule_spec hw).releasing (hs.beforeSwitch .inLast) (hc.atPc hpc (by simp)) hr.atLast (by simp) (.inr ha)

/-! ## Returns -/

theorem returns_pc_of_ne (h : t ≠ s.tid) : (s.returns v).pc t = s.pc t := Function.update_of_ne h _ _

theorem returns_pc_self (s : Barrier) (v : Int) : (s.returns v).pc s.tid = .user := Function.update_self _ _ _

/-- A thread that is not in user code after a return is not the one that returned. -/
theorem returns_pc_ne (h : (s.returns v).pc t ≠ .user) : t ≠ s.tid := by
  intro htt
  rw [htt] at h
  exact h (returns_pc_self s v)

theorem returns_results_self (s : Barrier) (v : Int) : (s.returns v).results s.tid = s.results s.tid ++ [v] :=
  Function.update_self _ _ _

theorem returns_results_of_ne (h : t ≠ s.tid) : (s.returns v).results t = s.results t :=
  Function.update_of_ne h _ _

theorem getElem?_returns {w : Int} (h : (s.results t)[k]? = some w) : ((s.returns v).results t)[k]? = some w := by
  by_cases htt : t = s.tid
  · rw [htt] at h ⊢
    obtain ⟨hlt, -⟩ := List.getElem?_eq_some_iff.mp h
    rw [returns_results_self, List.getElem?_append_left hlt]
    exact h
  · rw [returns_results_of_ne htt]
    exact h

theorem returns_getElem? {w : Int} (h : ((s.returns v).results t)[k]? = some w) :
    (s.results t)[k]? = some w ∨ t = s.tid ∧ k = (s.results s.tid).length ∧ w = v := by
  by_cases htt : t = s.tid
  · rw [htt] at h ⊢
    rw [returns_results_self, List.getElem?_append] at h
    split at h
    · exact .inl h
    · next hk =>
      obtain ⟨hlt, hw⟩ := List.getElem?_eq_some_iff.mp h
      rw [List.length_singleton] at hlt
      refine .inr ⟨rfl, by omega, ?_⟩
      simpa using hw.symm
  · rw [returns_results_of_ne htt] at h
    exact .inl h

theorem SerialAt.returns (h : SerialAt P s k) (hv : v = 0 ∨ k < (s.results s.tid).length) :
    SerialAt P (s.returns v) k := by
  obtain ⟨t, ht, hserial, hothers⟩ := h
  refine ⟨t, ht, getElem?_returns hserial, fun u hu hut w hw => ?_⟩
  rcases returns_getElem? hw with hold | ⟨-, hk, hwv⟩
  · exact hothers u hu hut w hold
  · rw [hwv]
    exact hv.resolve_right (by omega)

theorem CallsOk.returns (h : CallsOk P s) (hpc : s.pc s.tid ≠ .user) : CallsOk P (s.returns v) := by
  refine ⟨h.count, h.two, fun t ht => ?_, fun t ht => ?_, fun t ht => ?_⟩
  · have htt : t ≠ s.tid := fun htt => ht (htt ▸ h.mem hpc)
    rw [returns_pc_of_ne htt]
    exact h.outside t ht
  · by_cases htt : t = s.tid
    · rw [htt, returns_results_self, List.length_append]
      exact h.inside s.tid hpc
    · rw [returns_pc_of_ne htt] at ht
      rw [returns_results_of_ne htt]
      exact h.user t ht
  · have htt := returns_pc_ne ht
    rw [returns_pc_of_ne htt] at ht
    rw [returns_results_of_ne htt]
    exact h.inside t ht

theorem StatusOk.returns (h : StatusOk s) (v : Int) : StatusOk (s.returns v) := by
  refine ⟨h.running, h.only, fun t ht hnb => ?_, h.blocked⟩
  rw [returns_pc_of_ne (returns_pc_ne ht)] at ht
  exact h.alive t ht hnb

/-- The calling thread of a round that is gathered is blocked, or out of the barrier. -/
theorem Gathering.tid_ne_callingThread (hg : Gathering P r s) (hpc : s.pc s.tid = .inLast) :
    s.callingThread ≠ some s.tid := by
  intro hcall
  by_cases hflag : s.flag = 1
  · obtain ⟨a, ha, hinIf⟩ := hg.first hflag
    rw [hcall, Option.some.injEq] at ha
    rw [← ha, hpc] at hinIf
    cases hinIf
  · have huser := (hg.idle hflag).2 s.tid hcall
    rw [hpc] at huser
    cases huser

theorem Gathering.returns_zero (hg : Gathering P r s) (hpc : s.pc s.tid = .inLast) :
    Gathering P r (s.returns 0) := by
  have hne : ∀ t q, s.pc t = q → q ≠ .inLast → t ≠ s.tid := by
    intro t q ht hq htt
    rw [htt, hpc] at ht
    exact hq ht.symm
  refine
    { entered := hg.entered
      new := fun t ht he => ?_
      old := fun t ht he => ?_
      inIf := fun t ht => ?_
      first := fun hf => ?_
      idle := fun hf => ⟨(hg.idle hf).1, fun c hcall => ?_⟩
      left := hg.left
      nonzero := hg.nonzero
      serials := fun k hk => (hg.serials k hk).returns (.inl rfl) }
  · have hold := hg.new t ht he
    have htt : t ≠ s.tid := by
      rcases hold with hold | hold
      · exact hne t _ hold (by simp)
      · exact hne t _ hold (by simp)
    rw [returns_pc_of_ne htt]
    exact hold
  · by_cases htt : t = s.tid
    · rw [htt]
      exact .inl (returns_pc_self s 0)
    · rw [returns_pc_of_ne htt]
      exact hg.old t ht he
  · have htt := returns_pc_ne (v := 0) (by rw [ht]; simp)
    rw [returns_pc_of_ne htt] at ht
    exact hg.inIf t ht
  · obtain ⟨a, hcall, ha⟩ := hg.first hf
    refine ⟨a, hcall, ?_⟩
    rw [returns_pc_of_ne (hne a _ ha (by simp))]
    exact ha
  · have huser := (hg.idle hf).2 c hcall
    rw [returns_pc_of_ne (hne c _ huser (by simp))]
    exact huser

theorem Releasing.returns_zero (hr : Releasing P r a s) (ha : s.tid ≠ a) : Releasing P r a (s.returns 0) := by
  refine ⟨hr.entered, hr.left, hr.flag, hr.callingThread, hr.mem, ?_, fun t ht => ?_,
    fun k hk => (hr.serials k hk).returns (.inl rfl), fun t ht w hw => ?_⟩
  · rw [returns_pc_of_ne (Ne.symm ha)]
    exact hr.calling
  · rw [returns_pc_of_ne (returns_pc_ne (by rw [ht]; simp))] at ht
    exact hr.others t ht
  · rcases returns_getElem? hw with hold | ⟨-, -, hwv⟩
    · exact hr.zero t ht w hold
    · exact hwv

theorem Ahead.returns (h : Ahead a s) (ha : s.tid ≠ a) : Ahead a (s.returns v) := by
  intro hlast t ht
  rw [returns_pc_of_ne (Ne.symm ha)] at hlast
  rw [returns_pc_of_ne (returns_pc_ne (by rw [ht]; simp))] at ht
  exact h hlast t ht

/-- The released thread returns last of those in the while loop and begins the next round. -/
theorem Releasing.returns_serial (hr : Releasing P r s.tid s) (hc : CallsOk P s) (ha : Ahead s.tid s)
    (hpc : s.pc s.tid = .inLast) :
    Gathering P (r + 1) (({ s with left := s.count } : Barrier).returns serialThread) := by
  have hlen : (s.results s.tid).length = r := by
    have h1 := hc.inside s.tid (by rw [hpc]; simp)
    have h2 := hr.entered s.tid hr.mem
    omega
  have htwo := hc.two
  have hcount := hc.count
  have hout : ∀ t, s.pc t ≠ .inIf ∧ s.pc t ≠ .inWhile := by
    refine fun t => ⟨fun ht => ?_, fun ht => ?_⟩
    · rw [hr.others t ht, hpc] at ht
      cases ht
    · have hlt := ha hpc t ht
      rw [distance_self] at hlt
      exact absurd hlt (Nat.not_lt_zero _)
  have hother : ∀ t, t ≠ s.tid → (({ s with left := s.count } : Barrier).returns serialThread).pc t = s.pc t :=
    fun t ht => Function.update_of_ne ht _ _
  refine
    { entered := fun t ht => .inl (hr.entered t ht)
      new := fun t ht he => ?_
      old := fun t _ _ => ?_
      inIf := fun t ht => ?_
      first := fun hf => absurd hf hr.flag
      idle := fun _ => ⟨hr.entered, fun c hcall => ?_⟩
      left := ?_
      nonzero := ?_
      serials := fun k hk => ?_ }
  · have hold : s.entered t = r + 1 + 1 := he
    rw [hr.entered t ht] at hold
    omega
  · by_cases htt : t = s.tid
    · rw [htt]
      exact .inl (returns_pc_self _ _)
    · rw [hother t htt]
      have hnot := hout t
      cases hq : s.pc t with
      | user => exact .inl rfl
      | inLast => exact .inr rfl
      | inIf => exact absurd hq hnot.1
      | inWhile => exact absurd hq hnot.2
  · have htt := returns_pc_ne (by rw [ht]; simp)
    rw [hother t htt] at ht
    exact absurd ht (hout t).1
  · have hcall' : s.callingThread = some c := hcall
    rw [hr.callingThread, Option.some.injEq] at hcall'
    rw [← hcall']
    exact returns_pc_self _ _
  · have hnone : arrived P (r + 1) (({ s with left := s.count } : Barrier).returns serialThread) = ∅ := by
      apply Finset.filter_eq_empty_iff.mpr
      intro t ht he
      have hold : s.entered t = r + 1 + 1 := he
      rw [hr.entered t ht] at hold
      omega
    rw [hnone]
    rfl
  · intro hz
    have hz' : s.count = 0 := hz
    rw [hz'] at hcount
    have : P.card = 0 := hcount
    omega
  · by_cases hkr : k < r
    · exact SerialAt.returns (s := { s with left := s.count }) (hr.serials k hkr) (.inr (hlen ▸ hkr))
    · obtain rfl : k = r := by omega
      refine ⟨s.tid, hr.mem, ?_, fun u hu hut w hw => ?_⟩
      · rw [show (({ s with left := s.count } : Barrier).returns serialThread).results s.tid =
          s.results s.tid ++ [serialThread] from returns_results_self _ _, ← hlen]
        simp
      · rcases returns_getElem? hw with hold | ⟨htid, -, -⟩
        · exact hr.zero u hu w hold
        · exact absurd htid hut

theorem BarrierInv.returns (h : BarrierInv P s) (hpc : s.pc s.tid = .inLast) : BarrierInv P s.barrierReturn := by
  have hin : s.pc s.tid ≠ .user := by rw [hpc]; simp
  unfold Barrier.barrierReturn
  rcases h.phase with ⟨r, hg⟩ | ⟨r, a, hr, ha⟩
  · rw [if_neg (hg.tid_ne_callingThread hpc)]
    exact ⟨h.calls.returns hin, h.status.returns 0, .inl ⟨r, hg.returns_zero hpc⟩⟩
  · by_cases hta : s.tid = a
    · rw [← hta] at hr ha
      rw [if_pos hr.callingThread]
      have hcalls : CallsOk P ({ s with left := s.count } : Barrier) :=
        ⟨h.calls.count, h.calls.two, h.calls.outside, h.calls.user, h.calls.inside⟩
      have hstatus : StatusOk ({ s with left := s.count } : Barrier) :=
        ⟨h.status.running, h.status.only, h.status.alive, h.status.blocked⟩
      exact ⟨hcalls.returns hin, hstatus.returns _, .inl ⟨r + 1, hr.returns_serial h.calls ha hpc⟩⟩
    · have hcall : s.callingThread ≠ some s.tid := by
        rw [hr.callingThread, Ne, Option.some.injEq]
        exact Ne.symm hta
      rw [if_neg hcall]
      exact ⟨h.calls.returns hin, h.status.returns 0, .inr ⟨r, a, hr.returns_zero hta, ha.returns hta⟩⟩

/-! ## Arrivals -/

/-- `s'` is `s` after the running thread's call, at its schedule() at `p`. The flag, the calling
    thread and the statuses are left open. -/
structure ArrivedAt (p : BarrierPc) (s s' : Barrier) : Prop where
  pc : s'.pc = Function.update s.pc s.tid p
  entered : s'.entered = Function.update s.entered s.tid (s.entered s.tid + 1)
  left : s'.left = s.left - 1
  count : s'.count = s.count
  results : s'.results = s.results

section
variable (h : ArrivedAt p s s')
include h

theorem ArrivedAt.pc_self : s'.pc s.tid = p := by
  rw [h.pc, Function.update_self]

theorem ArrivedAt.pc_of_ne (ht : t ≠ s.tid) : s'.pc t = s.pc t := by
  rw [h.pc, Function.update_of_ne ht]

theorem ArrivedAt.entered_self : s'.entered s.tid = s.entered s.tid + 1 := by
  rw [h.entered, Function.update_self]

theorem ArrivedAt.entered_of_ne (ht : t ≠ s.tid) : s'.entered t = s.entered t := by
  rw [h.entered, Function.update_of_ne ht]

theorem ArrivedAt.callsOk (hc : CallsOk P s) (hmem : s.tid ∈ P) (hpc : s.pc s.tid = .user) (hp : p ≠ .user) :
    CallsOk P s' := by
  refine ⟨h.count ▸ hc.count, hc.two, fun t ht => ?_, fun t ht => ?_, fun t ht => ?_⟩
  · have htt : t ≠ s.tid := fun htt => ht (htt ▸ hmem)
    rw [h.pc_of_ne htt, h.entered_of_ne htt]
    exact hc.outside t ht
  · have htt : t ≠ s.tid := by
      intro htt
      rw [htt, h.pc_self] at ht
      exact hp ht
    rw [h.pc_of_ne htt] at ht
    rw [h.entered_of_ne htt, h.results]
    exact hc.user t ht
  · rw [h.results]
    by_cases htt : t = s.tid
    · rw [htt, h.entered_self, hc.user s.tid hpc]
    · rw [h.pc_of_ne htt] at ht
      rw [h.entered_of_ne htt]
      exact hc.inside t ht

theorem ArrivedAt.arrived (hmem : s.tid ∈ P) (he : s.entered s.tid = r) :
    (arrived P r s').card = (arrived P r s).card + 1 := by
  have hnot : s.tid ∉ Threads.arrived P r s := by
    intro hin
    have := (Finset.mem_filter.mp hin).2
    omega
  have hins : Threads.arrived P r s' = insert s.tid (Threads.arrived P r s) := by
    ext t
    simp only [Threads.arrived, Finset.mem_filter, Finset.mem_insert]
    by_cases htt : t = s.tid
    · rw [htt, h.entered_self, he]
      simp [hmem]
    · rw [h.entered_of_ne htt]
      simp [htt]
  rw [hins, Finset.card_insert_of_notMem hnot]

theorem ArrivedAt.left_toNat (hz : s.left ≠ 0) : s'.left.toNat + 1 = s.left.toNat := by
  have hpos : 0 < s.left.toNat := by
    apply Nat.pos_of_ne_zero
    intro h0
    exact hz (UInt32.toNat_inj.mp h0)
  have hone : (1 : UInt32) ≤ s.left := UInt32.le_iff_toNat_le.mpr hpos
  rw [h.left, UInt32.toNat_sub_of_le _ _ hone]
  exact Nat.sub_add_cancel hpos

theorem ArrivedAt.serialAt (hs : SerialAt P s k) : SerialAt P s' k := by
  unfold SerialAt
  rw [h.results]
  exact hs

end

theorem Gathering.entered_tid (hg : Gathering P r s) (hmem : s.tid ∈ P) (hpc : s.pc s.tid = .user) :
    s.entered s.tid = r := by
  apply (hg.entered s.tid hmem).resolve_right
  intro he
  rcases hg.new s.tid hmem he with hq | hq
  · rw [hpc] at hq
    cases hq
  · rw [hpc] at hq
    cases hq

theorem Gathering.inIf_eq (hg : Gathering P r s) (hcall : s.callingThread = some a) (ht : s.pc t = .inIf) :
    t = a := by
  have hcall' := (hg.inIf t ht).2
  rw [hcall, Option.some.injEq] at hcall'
  exact hcall'.symm

/-- An arrival that is not the last of its round. -/
theorem Gathering.arrive (hg : Gathering P r s) (hmem : s.tid ∈ P) (hpc : s.pc s.tid = .user)
    (h : ArrivedAt p s s') (hp : p = .inIf ∨ p = .inWhile) (hz : s'.left ≠ 0) (hflag : s'.flag = 1)
    (hcall : s'.callingThread = some a) (ha : ∀ t, s'.pc t = .inIf ↔ t = a) : Gathering P r s' := by
  have he := hg.entered_tid hmem hpc
  refine
    { entered := fun t ht => ?_
      new := fun t ht het => ?_
      old := fun t ht het => ?_
      inIf := fun t ht => ⟨hflag, ?_⟩
      first := fun _ => ⟨a, hcall, (ha a).mpr rfl⟩
      idle := fun hf => absurd hflag hf
      left := ?_
      nonzero := hz
      serials := fun k hk => h.serialAt (hg.serials k hk) }
  · by_cases htt : t = s.tid
    · rw [htt, h.entered_self, he]
      exact .inr rfl
    · rw [h.entered_of_ne htt]
      exact hg.entered t ht
  · by_cases htt : t = s.tid
    · rw [htt, h.pc_self]
      exact hp
    · rw [h.entered_of_ne htt] at het
      rw [h.pc_of_ne htt]
      exact hg.new t ht het
  · have htt : t ≠ s.tid := by
      intro htt
      rw [htt, h.entered_self] at het
      omega
    rw [h.entered_of_ne htt] at het
    rw [h.pc_of_ne htt]
    exact hg.old t ht het
  · rw [hcall, (ha t).mp ht]
  · have h1 := h.left_toNat hg.nonzero
    have h2 := h.arrived hmem he
    have h3 := hg.left
    rw [h.count]
    omega

/-- The last arrival of a round. -/
theorem Gathering.release (hg : Gathering P r s) (hc : CallsOk P s) (hmem : s.tid ∈ P)
    (hpc : s.pc s.tid = .user) (h : ArrivedAt .inLast s s') (hz : s'.left = 0) (hflag : s'.flag ≠ 1)
    (hcall : s'.callingThread = some a) (ha : s.pc a = .inIf) (hold : s.callingThread = some a) :
    Releasing P r a s' := by
  have hne : ∀ t, s.pc t = .inIf → t ≠ s.tid := by
    intro t ht htt
    rw [htt, hpc] at ht
    cases ht
  have hall : arrived P r s' = P := by
    apply Finset.eq_of_subset_of_card_le (Finset.filter_subset _ _)
    change P.card ≤ (arrived P r s').card
    have h1 := h.left_toNat hg.nonzero
    have h2 := h.arrived hmem (hg.entered_tid hmem hpc)
    have h3 := hg.left
    have h4 := hc.count
    have h5 : s'.left.toNat = 0 := by rw [hz]; rfl
    omega
  refine ⟨fun t ht => ?_, hz, hflag, hcall, hc.mem (by rw [ha]; simp), .inl ?_, fun t ht => ?_,
    fun k hk => h.serialAt (hg.serials k hk), fun t ht w hw => ?_⟩
  · rw [← hall] at ht
    exact (Finset.mem_filter.mp ht).2
  · rw [h.pc_of_ne (hne a ha)]
    exact ha
  · have htt : t ≠ s.tid := by
      intro htt
      rw [htt, h.pc_self] at ht
      cases ht
    rw [h.pc_of_ne htt] at ht
    exact hg.inIf_eq hold ht
  · rw [h.results] at hw
    obtain ⟨hlt, -⟩ := List.getElem?_eq_some_iff.mp hw
    have := hg.length_le hc ht
    omega

/-- The state in which the first thread of a round calls schedule(). -/
def Barrier.arriveFirst (s : Barrier) : Barrier :=
  { s with
    left := s.left - 1
    entered := Function.update s.entered s.tid (s.entered s.tid + 1)
    status := Function.update s.status s.tid .blocked
    callingThread := some s.tid
    flag := 1 }

/-- The same for a thread that finds others to come. -/
def Barrier.arriveNext (s : Barrier) : Barrier :=
  { s with left := s.left - 1, entered := Function.update s.entered s.tid (s.entered s.tid + 1) }

/-- The same for the last thread, which releases `a`. -/
def Barrier.arriveLast (a : Tid) (s : Barrier) : Barrier :=
  { s.arriveNext with flag := 0, status := Function.update s.status a .ready }

theorem barrierWait_first (hflag : s.flag ≠ 1) : s.barrierWait = s.arriveFirst.schedule .inIf := if_pos hflag

theorem barrierWait_next (hflag : s.flag = 1) (hz : s.left - 1 ≠ 0) :
    s.barrierWait = s.arriveNext.schedule .inWhile :=
  calc s.barrierWait = s.arriveNext.waitLoop := if_neg (not_not.mpr hflag)
    _ = s.arriveNext.schedule .inWhile := if_pos hz

theorem barrierWait_last (hflag : s.flag = 1) (hz : s.left - 1 = 0) (hcall : s.callingThread = some a) :
    s.barrierWait = (s.arriveLast a).schedule .inLast :=
  calc s.barrierWait = s.arriveNext.waitLoop := if_neg (not_not.mpr hflag)
    _ = s.callingThread.bind fun c => (s.arriveLast c).schedule .inLast :=
        (if_neg (not_not.mpr hz)).trans (if_pos hflag)
    _ = (s.arriveLast a).schedule .inLast := by rw [hcall, Option.bind_some]

theorem arriveFirst_beforeSwitch (hs : StatusOk s) (hflag : s.flag ≠ 1) : BeforeSwitch .inIf s.arriveFirst := by
  have hblk : s.blockedThread = none := if_neg hflag
  have hne : ∀ t, t ≠ s.tid → s.arriveFirst.status t = s.status t := fun t ht => Function.update_of_ne ht _ _
  refine ⟨fun t ht => ?_, fun t htt ht _ => ?_, fun _ hnb => absurd rfl hnb, fun t ht => ?_⟩
  · by_contra htt
    rw [hne t htt] at ht
    exact htt (hs.only t ht)
  · rw [hne t htt]
    exact (hs.alive t ht (by rw [hblk]; simp)).resolve_right htt
  · obtain rfl : s.tid = t := Option.some.inj ht
    exact Function.update_self _ _ _

theorem arriveLast_beforeSwitch (hs : StatusOk s) (hblk : s.blockedThread = some a) (hta : s.tid ≠ a) :
    BeforeSwitch .inLast (s.arriveLast a) := by
  have hself : (s.arriveLast a).status a = .ready := Function.update_self _ _ _
  have hne : ∀ t, t ≠ a → (s.arriveLast a).status t = s.status t := fun t ht => Function.update_of_ne ht _ _
  refine ⟨fun t ht => ?_, fun t htt ht _ => ?_, fun _ _ => (hne s.tid hta).trans hs.running, fun t ht => ?_⟩
  · have hat : t ≠ a := by
      intro hat
      rw [hat, hself] at ht
      cases ht
    rw [hne t hat] at ht
    exact hs.only t ht
  · by_cases hat : t = a
    · rw [hat]
      exact hself
    · rw [hne t hat]
      apply (hs.alive t ht ?_).resolve_right htt
      rw [hblk, Ne, Option.some.injEq]
      exact Ne.symm hat
  · cases ht

theorem Gathering.wait_first (hg : Gathering P r s) (hc : CallsOk P s) (hs : StatusOk s) (hmem : s.tid ∈ P)
    (hpc : s.pc s.tid = .user) (hflag : s.flag ≠ 1) (hw : s.barrierWait = some s') : BarrierInv P s' := by
  rw [barrierWait_first hflag] at hw
  have harr : ArrivedAt .inIf s (s.arriveFirst.atPc .inIf) := ⟨rfl, rfl, rfl, rfl, rfl⟩
  apply (schedule_spec hw).gathering (arriveFirst_beforeSwitch hs hflag) (harr.callsOk hc hmem hpc (by simp))
  apply hg.arrive hmem hpc harr (.inl rfl) (a := s.tid) ?_ rfl rfl (fun t => ⟨fun ht => ?_, fun ht => ?_⟩)
  · -- no thread has arrived and there are at least two
    intro hz
    have hnone : arrived P r s = ∅ := by
      apply Finset.filter_eq_empty_iff.mpr
      intro t ht
      rw [(hg.idle hflag).1 t ht]
      omega
    have h1 := harr.left_toNat hg.nonzero
    have h2 := hg.left
    rw [hnone, Finset.card_empty] at h2
    rw [hz, show (0 : UInt32).toNat = 0 from rfl] at h1
    have h3 := hc.two
    have h4 := hc.count
    omega
  · by_contra htt
    rw [harr.pc_of_ne htt] at ht
    exact hflag (hg.inIf t ht).1
  · rw [ht]
    exact harr.pc_self

theorem Gathering.wait_next (hg : Gathering P r s) (hc : CallsOk P s) (hs : StatusOk s) (hmem : s.tid ∈ P)
    (hpc : s.pc s.tid = .user) (hflag : s.flag = 1) (hz : s.left - 1 ≠ 0) (hw : s.barrierWait = some s') :
    BarrierInv P s' := by
  rw [barrierWait_next hflag hz] at hw
  obtain ⟨a, hcall, ha⟩ := hg.first hflag
  have harr : ArrivedAt .inWhile s (s.arriveNext.atPc .inWhile) := ⟨rfl, rfl, rfl, rfl, rfl⟩
  have hb := hs.beforeSwitch .inWhile
  apply (schedule_spec hw).gathering ⟨hb.only, hb.ready, hb.self, hb.blocked⟩ (harr.callsOk hc hmem hpc (by simp))
  apply hg.arrive hmem hpc harr (.inr rfl) hz hflag hcall (fun t => ⟨fun ht => ?_, fun ht => ?_⟩)
  · have htt : t ≠ s.tid := by
      intro htt
      rw [htt, harr.pc_self] at ht
      cases ht
    rw [harr.pc_of_ne htt] at ht
    exact hg.inIf_eq hcall ht
  · have hta : a ≠ s.tid := by
      intro hta
      rw [hta, hpc] at ha
      cases ha
    rw [ht, harr.pc_of_ne hta]
    exact ha

theorem Gathering.wait_last (hg : Gathering P r s) (hc : CallsOk P s) (hs : StatusOk s) (hmem : s.tid ∈ P)
    (hpc : s.pc s.tid = .user) (hflag : s.flag = 1) (hz : s.left - 1 = 0) (hw : s.barrierWait = some s') :
    BarrierInv P s' := by
  obtain ⟨a, hcall, ha⟩ := hg.first hflag
  rw [barrierWait_last hflag hz hcall] at hw
  have hta : s.tid ≠ a := by
    intro hta
    rw [← hta, hpc] at ha
    cases ha
  have hblk : s.blockedThread = some a := (if_pos hflag).trans hcall
  have harr : ArrivedAt .inLast s ((s.arriveLast a).atPc .inLast) := ⟨rfl, rfl, rfl, rfl, rfl⟩
  have hflag' : ((s.arriveLast a).atPc .inLast).flag ≠ 1 := Nat.zero_ne_one
  have hahead : Ahead a (s.arriveLast a) := by
    intro hlast
    have hlast' : s.pc a = .inLast := hlast
    rw [ha] at hlast'
    cases hlast'
  exact (schedule_spec hw).releasing (arriveLast_beforeSwitch hs hblk hta) (harr.callsOk hc hmem hpc (by simp))
    (hg.release hc hmem hpc harr hz hflag' hcall ha hcall) (by simp) (.inr hahead)

theorem BarrierInv.wait (h : BarrierInv P s) (hmem : s.tid ∈ P) (hpc : s.pc s.tid = .user)
    (hafter : AfterRelease s .wait) (hw : s.barrierWait = some s') : BarrierInv P s' := by
  rcases h.phase with ⟨r, hg⟩ | ⟨r, a, hr, -⟩
  · by_cases hflag : s.flag = 1
    · by_cases hz : s.left - 1 = 0
      · exact hg.wait_last h.calls h.status hmem hpc hflag hz hw
      · exact hg.wait_next h.calls h.status hmem hpc hflag hz hw
    · exact hg.wait_first h.calls h.status hmem hpc hflag hw
  · have huser := hafter.resolve_left hr.flag a hr.callingThread
    rcases hr.calling with hq | hq
    · rw [huser] at hq
      cases hq
    · rw [huser] at hq
      cases hq

/-! ## Runs -/

theorem BarrierInv.resume (h : BarrierInv P s) (hpc : s.pc s.tid = .inIf ∨ s.pc s.tid = .inWhile)
    (hw : s.waitLoop = some s') : BarrierInv P s' := by
  have hin : s.pc s.tid ≠ .user := by
    rcases hpc with hq | hq
    · rw [hq]
      simp
    · rw [hq]
      simp
  rcases h.phase with ⟨r, hg⟩ | ⟨r, a, hr, ha⟩
  · exact hg.resume h.calls h.status hpc hw
  · exact hr.resume ha h.calls h.status hin hw

/-- A step that ends in a call of schedule(). -/
theorem eq_some_of_answered {x : Option Barrier} {o : Unit} (h : (x.map fun s => ((), s)) = some (o, s')) :
    x = some s' := by
  obtain ⟨s'', hx, he⟩ := Option.map_eq_some_iff.mp h
  rw [hx, (Prod.mk.inj he).2]

theorem BarrierInv.step {i : BarrierInput} (h : BarrierInv P s) (hby : ByParticipants P s i)
    (hafter : AfterRelease s i) {o : Unit} (hs : s.step i = some (o, s')) : BarrierInv P s' := by
  cases i with
  | wait =>
    obtain ⟨hpc, hw⟩ := Option.ite_none_right_eq_some.mp hs
    exact h.wait hby hpc hafter (eq_some_of_answered hw)
  | resume =>
    rw [Barrier.step] at hs
    cases hpc : s.pc s.tid with
    | user =>
      rw [hpc] at hs
      cases hs
    | inIf =>
      rw [hpc] at hs
      exact h.resume (.inl hpc) (eq_some_of_answered hs)
    | inWhile =>
      rw [hpc] at hs
      exact h.resume (.inr hpc) (eq_some_of_answered hs)
    | inLast =>
      rw [hpc] at hs
      obtain rfl : s.barrierReturn = s' := (Prod.mk.inj (Option.some.inj hs)).2
      exact h.returns hpc
  | create u =>
    obtain ⟨⟨hpc, hu⟩, hw⟩ := Option.ite_none_right_eq_some.mp hs
    exact h.create hpc hu (eq_some_of_answered hw)
  | yield =>
    obtain ⟨hpc, hw⟩ := Option.ite_none_right_eq_some.mp hs
    exact h.yield hpc (eq_some_of_answered hw)
  | exit =>
    obtain ⟨hpc, hw⟩ := Option.ite_none_right_eq_some.mp hs
    exact h.exit hpc (eq_some_of_answered hw)

/-- Rounds do not overlap, and each returns PTHREAD_BARRIER_SERIAL_THREAD once, in every run in
    which no thread calls pthread_barrier_wait before the blocked thread of the last round is out. -/
theorem barrier_rounds {s₀ : Barrier} {es : List (BarrierInput × Unit)} (h₀ : s₀.Initial P)
    (hrun : Run (Guarded Barrier.step fun s i => ByParticipants P s i ∧ AfterRelease s i) s₀ es s) :
    RoundsOk P s := by
  refine (hrun.invariant (I := BarrierInv P) h₀.inv ?_).roundsOk
  intro s e s' hs ⟨⟨hby, hafter⟩, hstep⟩
  exact hs.step hby hafter hstep

/-! ## Two threads -/

instance (s : Barrier) : DecidablePred (ByParticipants P s)
  | .wait => inferInstanceAs (Decidable (s.tid ∈ P))
  | .resume => inferInstanceAs (Decidable True)
  | .create _ => inferInstanceAs (Decidable True)
  | .yield => inferInstanceAs (Decidable True)
  | .exit => inferInstanceAs (Decidable True)

instance (s : Barrier) : DecidablePred (AfterRelease s)
  | .wait => inferInstanceAs (Decidable (_ ∨ ∀ _, _ → _))
  | .resume => inferInstanceAs (Decidable True)
  | .create _ => inferInstanceAs (Decidable True)
  | .yield => inferInstanceAs (Decidable True)
  | .exit => inferInstanceAs (Decidable True)

/-- A barrier for threads 0 and 1; 0 runs. -/
def twoThreads : Barrier where
  status := fun t => if t = mainTid then .running else if t.val = 1 then .ready else .empty
  tid := mainTid
  pc := fun _ => .user
  flag := 0
  callingThread := none
  count := 2
  left := 2
  entered := fun _ => 0
  results := fun _ => []

theorem twoThreads_initial : twoThreads.Initial {0, 1} := by
  refine ⟨rfl, le_rfl, rfl, rfl, rfl, fun _ => rfl, fun _ => rfl, fun _ => rfl, rfl, fun t ht => ?_⟩
  have hne : t ≠ mainTid := ht
  simp only [twoThreads, if_neg hne]
  split <;> simp

theorem barrier_run_of_inputs (G : Barrier → BarrierInput → Prop) [∀ s, DecidablePred (G s)]
    (is : List BarrierInput) (p : Barrier → Bool)
    (h : ((exec Barrier.step (fun s i => decide (G s i)) twoThreads is).map fun q => p q.2) = some true) :
    ∃ es s, Run (Guarded Barrier.step G) twoThreads es s ∧ p s = true := by
  obtain ⟨⟨es, s⟩, he, hp⟩ := Option.map_eq_some_iff.mp h
  exact ⟨[] ++ es, s, exec_run (fun s i _ h => of_decide_eq_true h) .start he, hp⟩

/-- Two rounds, in which thread 0 blocks first. -/
theorem barrier_rounds_two : ∃ es s,
    Run (Guarded Barrier.step fun s i => ByParticipants {0, 1} s i ∧ AfterRelease s i) twoThreads es s ∧
      RoundsOk {0, 1} s ∧ s.results 0 = [serialThread, serialThread] ∧ s.results 1 = [0, 0] := by
  obtain ⟨es, s, hrun, hp⟩ := barrier_run_of_inputs
    (fun s i => ByParticipants {0, 1} s i ∧ AfterRelease s i)
    [.wait, .wait, .resume, .resume, .yield, .resume, .wait, .wait, .resume, .resume, .yield, .resume]
    (fun s => decide (s.results 0 = [serialThread, serialThread] ∧ s.results 1 = [0, 0])) (by decide +kernel)
  exact ⟨es, s, hrun, barrier_rounds twoThreads_initial hrun, of_decide_eq_true hp⟩

/-- Thread 1 is the last to arrive, returns first and calls pthread_barrier_wait again at once:
    `left` wraps, and thread 0, which is no longer the calling thread, returns 0 as well. -/
theorem reentry_breaks_rounds :
    ¬ ∀ (P : Finset Tid) (s₀ s : Barrier) (es : List (BarrierInput × Unit)), s₀.Initial P →
      Run (Guarded Barrier.step (ByParticipants P)) s₀ es s → RoundsOk P s := by
  intro hall
  obtain ⟨es, s, hrun, hp⟩ := barrier_run_of_inputs (ByParticipants {0, 1})
    [.wait, .wait, .resume, .resume, .wait, .resume]
    (fun s => decide (s.count = 2 ∧ s.left = 4294967295)) (by decide +kernel)
  obtain ⟨hcount, hleft⟩ := of_decide_eq_true hp
  have hle := (hall {0, 1} _ s es twoThreads_initial hrun).left
  rw [hcount, hleft] at hle
  exact absurd hle (by decide)

end EC440.Threads
