/-
  Whole runs of programs with mutexes. pthread_mutex_init begins a line of threads and
  pthread_mutex_destroy ends one; in between the statements of pthread_mutex_lock and
  pthread_mutex_unlock move it. So every run is a run of lines (`mutexes_are_lines`): first come,
  first served, one thread inside, and memory that belongs to the mutexes and to nothing else.
-/
import EC440.Threads.MutexCalls

namespace EC440.Threads

open EC440.Lib

namespace Mutexes

variable {μ : Type*} [DecidableEq μ] {s s' : Mutexes μ} {m n : μ} {t u : Tid} {f : Frame μ} {nodes : μ → List Nat}
  {v : μ → Mutex Tid} {o : Out μ}

/-! ## pthread_mutex_init and pthread_mutex_destroy -/

/-- What a new mutex shows. -/
def newMutex (s : Mutexes μ) (m : μ) : Mutex Tid where
  status := s.statusAt []
  tid := s.tid
  pc := s.pcAt m
  state := .unlocked
  waitList := []
  handed := none

theorem init_initialised_of_ne {address : Nat} (h : n ≠ m) : (s.init m address).initialised n = s.initialised n :=
  Function.update_of_ne h _ _

theorem init_align {address : Nat} : (s.init m address).align m = address := Function.update_self _ _ _

theorem init_align_of_ne {address : Nat} (h : n ≠ m) : (s.init m address).align n = s.align n :=
  Function.update_of_ne h _ _

theorem init_split {address : Nat} (h : (s.init m address).initialised n = true) :
    n = m ∨ (n ≠ m ∧ s.initialised n = true) := by
  by_cases hn : n = m
  · exact .inl hn
  · exact .inr ⟨hn, by rw [← init_initialised_of_ne hn]; exact h⟩

/-- A mutex that is initialised stays so, and is not the new one. -/
theorem initialised_init (hm : s.initialised m = false) (hn : s.initialised n = true) (address : Nat) :
    n ≠ m ∧ (s.init m address).initialised n = true := by
  have hne : n ≠ m := by
    rintro rfl
    rw [hm] at hn
    cases hn
  exact ⟨hne, (init_initialised_of_ne hne).trans hn⟩

/-- The block of an initialised mutex is not the new one. -/
theorem Sound.align_ne (h : Sound s nodes v) {address : Nat} (hfresh : s.Fresh address) (hn : s.initialised n = true) :
    s.align n ≠ address := by
  intro he
  obtain ⟨block, hb, -⟩ := (h.shows n hn).block
  rw [he, hfresh.1] at hb
  cases hb

theorem Sound.newMutex_good (h : Sound s nodes v) (hf : s.frame s.tid = none) (hm : s.initialised m = false) :
    (s.newMutex m).Good := by
  have hrunning : s.status s.tid = .running := h.running fun f hf' => by
    rw [hf] at hf'
    cases hf'
  exact .fresh (h.idle m hm).2 rfl rfl rfl ((statusAt_of_ne (t := s.tid) (by rw [hrunning]; simp)).trans hrunning)

theorem Sound.newMutex_lined (h : Sound s nodes v) (hm : s.initialised m = false) :
    (s.newMutex m).Lined ⟨none, [], false⟩ := by
  refine Mutex.lined_free (fun t ho => ?_)
  rcases ho with ho | ho
  · rcases (h.idle m hm).2 t with hp | hp
    all_goals
      have hpc : (s.newMutex m).pc t = _ := hp
      rw [hpc] at ho
      exact ho
  · cases ho

theorem Sound.init_shows (h : Sound s nodes v) {address : Nat} (hm : s.initialised m = false) (hfresh : s.Fresh address)
    (hn : (s.init m address).initialised n = true) :
    Shows (s.init m address) n (Function.update nodes m [] n) (Function.update v m (s.newMutex m) n) := by
  rcases init_split hn with rfl | ⟨hnm, hn⟩
  · rw [Function.update_self, Function.update_self]
    refine ⟨rfl, rfl, rfl, (h.idle n hm).1.symm, ⟨.unlocked, none, none⟩, ?_, rfl, seg_nil.mpr rfl, List.nodup_nil, rfl, rfl⟩
    rw [init_align]
    exact Function.update_self _ _ _
  · rw [Function.update_of_ne hnm, Function.update_of_ne hnm]
    refine (h.shows n hn).keep rfl rfl rfl ?_ (fun _ _ => rfl) rfl
    rw [init_align_of_ne hnm]
    exact Function.update_of_ne (h.align_ne hfresh hn) _ _

/-- No two mutexes have one block. -/
theorem Sound.init_align_inj (h : Sound s nodes v) {address : Nat} (hfresh : s.Fresh address) {k : μ}
    (hn : (s.init m address).initialised n = true) (hk : (s.init m address).initialised k = true)
    (he : (s.init m address).align n = (s.init m address).align k) : n = k := by
  rcases init_split hn with hnm | ⟨hnm, hn⟩
  · rcases init_split hk with hkm | ⟨hkm, hk⟩
    · rw [hnm, hkm]
    · rw [hnm, init_align, init_align_of_ne hkm] at he
      exact absurd he.symm (h.align_ne hfresh hk)
  · rw [init_align_of_ne hnm] at he
    rcases init_split hk with hkm | ⟨hkm, hk⟩
    · rw [hkm, init_align] at he
      exact absurd he (h.align_ne hfresh hn)
    · rw [init_align_of_ne hkm] at he
      exact h.align n k hn hk he

theorem Sound.init (h : Sound s nodes v) {address : Nat} (hi : Allowed s (.init m address)) :
    Sound (s.init m address) (Function.update nodes m []) (Function.update v m (s.newMutex m)) := by
  obtain ⟨hf, hm, hfresh⟩ := hi
  refine ⟨fun n hn => h.init_shows hm hfresh hn, fun n hn => ?_, fun n hn => ?_, h.run, h.calls, fun t f hf' hr => ?_,
    fun n k hn hk he => h.init_align_inj hfresh hn hk he, fun a ha => ?_, fun a ha => ?_, fun n k a hn hk ha hak => ?_,
    fun t ht => ?_⟩
  · rcases init_split hn with rfl | ⟨hnm, hn⟩
    · rw [Function.update_self]
      exact h.newMutex_good hf hm
    · rw [Function.update_of_ne hnm]
      exact h.good n hn
  · have hnm : n ≠ m := by
      rintro rfl
      rw [show (s.init n address).initialised n = true from Function.update_self _ _ _] at hn
      cases hn
    rw [init_initialised_of_ne hnm] at hn
    exact h.idle n hn
  · have hin := h.frame_initialised hf' (fun he => by rw [he] at hr; exact hr)
    rw [init_align_of_ne (initialised_init hm hin address).1]
    exact h.mcb t f hf' hr
  · by_cases haa : a = address
    · exact ⟨m, Function.update_self _ _ _, by rw [init_align, haa]⟩
    · obtain ⟨n, hn, he⟩ := h.blocks a fun hn => ha ((Function.update_of_ne haa _ _).trans hn)
      obtain ⟨hnm, hn⟩ := initialised_init hm hn address
      exact ⟨n, hn, by rw [init_align_of_ne hnm]; exact he⟩
  · obtain ⟨n, hn, hin⟩ := h.heap a ha
    obtain ⟨hnm, hn⟩ := initialised_init hm hn address
    exact ⟨n, hn, by rw [Function.update_of_ne hnm]; exact hin⟩
  · refine disjoint_update (P := fun n => (s.init m address).initialised n = true) (fun n k a hnm hkm hn hk => ?_)
      (fun _ _ _ _ ha => by cases ha) n k a hn hk ha hak
    rw [init_initialised_of_ne hnm] at hn
    rw [init_initialised_of_ne hkm] at hk
    exact h.disjoint n k a hn hk
  · obtain ⟨n, hn, hin⟩ := h.blocked t ht
    obtain ⟨hnm, hn⟩ := initialised_init hm hn address
    exact ⟨n, hn, by rw [Function.update_of_ne hnm]; exact hin⟩

/-- A free mutex that was not handed on: nobody stands in its line, and its wait list has no nodes. -/
theorem Sound.free (h : Sound s nodes v) (hf : s.frame s.tid = none) (hm : s.initialised m = true)
    (hhanded : s.handed m = none) (hst : (v m).state = .unlocked) :
    (∀ t, ¬ (v m).Owner t) ∧ (v m).waitList = [] ∧ nodes m = [] := by
  have hv := h.shows m hm
  have huser := h.user hm fun f hf' => by
    rw [hf] at hf'
    cases hf'
  obtain ⟨hno, hnil⟩ := (h.good m hm).empty hst (by rw [hv.handed, hhanded])
    (fun he => by rw [he] at huser; rcases huser with hp | hp <;> cases hp)
    (fun he => by rw [he] at huser; rcases huser with hp | hp <;> cases hp)
  obtain ⟨block, -, -, hholds⟩ := hv.block
  have hids := hholds.ids
  rw [hnil] at hids
  exact ⟨hno, hnil, List.map_eq_nil_iff.mp hids⟩

/-- The threads that are still in a call on a free mutex are on their way out of pthread_mutex_unlock. -/
theorem Sound.leaving (h : Sound s nodes v) (hf : s.frame s.tid = none) (hm : s.initialised m = true)
    (hno : ∀ t, ¬ (v m).Owner t) (hnil : (v m).waitList = []) (t : Tid) :
    s.pcAt m t = .user ∨ s.pcAt m t = .unlockReturn := by
  have hv := h.shows m hm
  have huser := h.user hm fun f hf' => by
    rw [hf] at hf'
    cases hf'
  have htrans : ¬ ((v m).pc t).Transient := by
    intro ht
    rw [(h.good m hm).inv.transient t ht] at ht
    rcases huser with hp | hp
    all_goals
      rw [hp] at ht
      exact ht
  have hholds : ¬ ((v m).pc t).Holds := fun ht => hno t (.inl ht)
  have hreturn : (v m).pc t ≠ .lockReturn := by
    intro ht
    rcases (h.good m hm).inv.waiting t ht with hin | hh
    · rw [hnil] at hin
      cases hin
    · exact hno t (.inr hh)
  rw [← hv.pc]
  cases hp : (v m).pc t with
  | user => exact .inl rfl
  | unlockReturn => exact .inr rfl
  | lockReturn => exact absurd hp hreturn
  | critical =>
    rw [hp] at hholds
    exact absurd trivial hholds
  | _ =>
    rw [hp] at htrans
    exact absurd trivial htrans

theorem Sound.destroy (h : Sound s nodes v) (hf : s.frame s.tid = none) (hm : s.initialised m = true)
    (hhanded : s.handed m = none) (hno : ∀ t, ¬ (v m).Owner t) (hnil : (v m).waitList = []) (hnodes : nodes m = []) :
    Sound { s with
      blocks := Function.update s.blocks (s.align m) none
      initialised := Function.update s.initialised m false } nodes v := by
  have hsplit : ∀ n, Function.update s.initialised m false n = true → n ≠ m ∧ s.initialised n = true := by
    intro n hn
    have hnm : n ≠ m := by
      rintro rfl
      rw [Function.update_self] at hn
      cases hn
    rw [Function.update_of_ne hnm] at hn
    exact ⟨hnm, hn⟩
  have hback : ∀ n, n ≠ m → s.initialised n = true → Function.update s.initialised m false n = true :=
    fun n hnm hn => (Function.update_of_ne hnm _ _).trans hn
  refine ⟨fun n hn => ?_, fun n hn => h.good n (hsplit n hn).2, fun n hn => ?_, h.run, h.calls, h.mcb,
    fun n k hn hk => h.align n k (hsplit n hn).2 (hsplit k hk).2, fun a ha => ?_, fun a ha => ?_,
    fun n k a hn hk => h.disjoint n k a (hsplit n hn).2 (hsplit k hk).2, fun t ht => ?_⟩
  · obtain ⟨hnm, hn⟩ := hsplit n hn
    refine (h.shows n hn).keep rfl rfl rfl ?_ (fun _ _ => rfl) rfl
    exact Function.update_of_ne (fun he => hnm (h.align n m hn hm he)) _ _
  · by_cases hnm : n = m
    · rw [hnm]
      exact ⟨hhanded, h.leaving hf hm hno hnil⟩
    · exact h.idle n ((Function.update_of_ne hnm _ _).symm.trans hn)
  · have hne : a ≠ s.align m := by
      rintro rfl
      exact ha (Function.update_self _ _ _)
    obtain ⟨n, hn, he⟩ := h.blocks a fun hn => ha ((Function.update_of_ne hne _ _).trans hn)
    exact ⟨n, hback n (fun hnm => hne (he ▸ hnm ▸ rfl)) hn, he⟩
  · obtain ⟨n, hn, hin⟩ := h.heap a ha
    refine ⟨n, hback n (fun hnm => ?_) hn, hin⟩
    rw [hnm, hnodes] at hin
    cases hin
  · obtain ⟨n, hn, hin⟩ := h.blocked t ht
    refine ⟨n, hback n (fun hnm => ?_) hn, hin⟩
    rw [hnm, hnil] at hin
    cases hin

/-! ## Runs -/

/-- Each mutex shows a line. -/
def Lined (s : Mutexes μ) (v : μ → Mutex Tid) (a : μ → Option (Line Tid)) : Prop :=
  ∀ m, (s.initialised m = true → ∃ l, a m = some l ∧ (v m).Lined l) ∧ (s.initialised m = false → a m = none)

/-- Steps of the mutexes are steps of their lines. -/
theorem Moved.lined {a : μ → Option (Line Tid)} (h : Sound s nodes v) (hmoved : Moved s v o s') (ha : Lined s v a) :
    ∃ nodes' v' a', Sound s' nodes' v' ∧ Lines.Step a o a' ∧ Lined s' v' a' := by
  obtain ⟨hlabel, hinit, nodes', v', hsound, hmoves⟩ := hmoved
  have hfollow : ∀ n, s.initialised n = true → ∃ l l', a n = some l ∧ l.Follows (outAt o n) l' ∧ (v' n).Lined l' := by
    intro n hn
    obtain ⟨l, hl, hlined⟩ := (ha n).1 hn
    obtain ⟨l', hf, hlined'⟩ := (hmoves n hn).lined (h.good n hn) hlined
    exact ⟨l, l', hl, hf, hlined'⟩
  cases o with
  | none =>
    refine ⟨nodes', v', a, hsound, .quiet, fun n => ⟨fun hn => ?_, fun hn => (ha n).2 (by rwa [hinit] at hn)⟩⟩
    rw [hinit] at hn
    obtain ⟨l, l', hl, hf, hlined⟩ := hfollow n hn
    have hsame : l' = l := hf
    exact ⟨l, hl, hsame ▸ hlined⟩
  | some p =>
    obtain ⟨m, act⟩ := p
    have hm := hlabel m act rfl
    obtain ⟨l, l', hl, hf, hlined⟩ := hfollow m hm
    have hout : outAt (some (m, act)) m = some act := outAt_self (e := some act)
    rw [hout] at hf
    have hstep : Line.Step (a m) act (some l') := by
      rw [hl]
      exact hf
    refine ⟨nodes', v', Function.update a m (some l'), hsound, .act hstep, fun n => ⟨fun hn => ?_, fun hn => ?_⟩⟩
    · rw [hinit] at hn
      by_cases hnm : n = m
      · rw [hnm, Function.update_self]
        exact ⟨l', rfl, hlined⟩
      · rw [Function.update_of_ne hnm]
        obtain ⟨k, k', hk, hfk, hlk⟩ := hfollow n hn
        have hquiet : outAt (some (m, act)) n = none := outAt_of_ne (e := some act) hnm
        rw [hquiet] at hfk
        have hsame : k' = k := hfk
        exact ⟨k, hk, hsame ▸ hlk⟩
    · rw [hinit] at hn
      have hnm : n ≠ m := by
        rintro rfl
        rw [hm] at hn
        cases hn
      rw [Function.update_of_ne hnm]
      exact (ha n).2 hn

/-- The next statement of a call is defined. -/
theorem Sound.statement (h : Sound s nodes v) {address : Nat} (hi : Allowed s (.statement address)) :
    ∃ o s', s.statement address = some (o, s') ∧ Moved s v o s' := by
  obtain ⟨⟨f, hf, hsch⟩, hfresh⟩ := hi
  cases hpc : f.pc with
  | user => exact absurd hpc (h.calls _ f hf).1.1
  | critical => exact absurd hpc (h.calls _ f hf).1.2
  | lockSchedule =>
    rw [hpc] at hsch
    exact absurd trivial hsch
  | unlockSchedule =>
    rw [hpc] at hsch
    exact absurd trivial hsch
  | lockTest => exact h.lockTest hf hpc address
  | lockGrab => exact h.lockGrab hf hpc address
  | lockWait => exact h.lockWait hf hpc hfresh
  | lockReturn => exact h.lockReturn hf hpc address
  | unlockTest => exact h.unlockTest hf hpc address
  | unlockFree => exact h.unlockFree hf hpc address
  | unlockHand => exact h.unlockHand hf hpc address
  | unlockReturn => exact h.unlockReturn hf hpc address

/-- The memory and the threads of `s` are as the lines `a` say. -/
def Related (s : Mutexes μ) (a : μ → Option (Line Tid)) : Prop := ∃ nodes v, Sound s nodes v ∧ Lined s v a

theorem Related.init {a : μ → Option (Line Tid)} {address : Nat} (h : Related s a)
    (hi : Allowed s (.init m address)) :
    ∃ a', Lines.Step a (some (m, .init)) a' ∧ Related (s.init m address) a' := by
  obtain ⟨nodes, v, hsound, ha⟩ := h
  have hsound' := hsound.init hi
  have hnew := hsound.newMutex_lined hi.2.1
  have hnone := (ha m).2 hi.2.1
  refine ⟨Function.update a m (some ⟨none, [], false⟩), .act (by rw [hnone]; exact .init), _, _, hsound', fun n => ?_⟩
  by_cases hnm : n = m
  · rw [hnm, Function.update_self, Function.update_self]
    refine ⟨fun _ => ⟨_, rfl, hnew⟩, fun hn => ?_⟩
    rw [show (s.init m address).initialised m = true from Function.update_self _ _ _] at hn
    cases hn
  · rw [Function.update_of_ne hnm, Function.update_of_ne hnm,
      show (s.init m address).initialised n = s.initialised n from Function.update_of_ne hnm _ _]
    exact ha n

theorem Related.destroy {a : μ → Option (Line Tid)} (h : Related s a) (hi : Allowed s (.destroy m)) :
    ∃ r s', s.destroy m = some (r, s') ∧ ∃ a', Lines.Step a (some (m, .destroy r)) a' ∧ Related s' a' := by
  obtain ⟨nodes, v, hsound, ha⟩ := h
  obtain ⟨hf, hm, hhanded⟩ := hi
  obtain ⟨block, hb, hst, -⟩ := (hsound.shows m hm).block
  obtain ⟨l, hl, hlined⟩ := (ha m).1 hm
  unfold Mutexes.destroy
  rw [hb, Option.map_some]
  by_cases hlocked : block.state = .locked
  · rw [if_neg (fun hn => hn hlocked)]
    refine ⟨-1, s, rfl, a, ?_, nodes, v, hsound, ha⟩
    obtain ⟨u, hu⟩ := (hsound.good m hm).queued.locked (hst.trans hlocked)
    have hsome : l.inside ≠ none ∨ l.waiting ≠ [] := by
      by_cases hin : ((v m).pc u).Inside
      · left
        rw [(hlined.inside u).mpr hin]
        simp
      · right
        rw [hlined.outside (hsound.good m hm).inv (.inl hu) hin]
        simp
    have hstep : Line.Step (a m) (.destroy (-1)) (a m) := by
      rw [hl]
      exact .busy hsome
    have hact := Lines.Step.act hstep
    rwa [Function.update_eq_self] at hact
  · rw [if_pos hlocked]
    have hfree : (v m).state = .unlocked := by
      rw [hst]
      cases hc : block.state with
      | locked => exact absurd hc hlocked
      | unlocked => rfl
    obtain ⟨hno, hnil, hnodes⟩ := hsound.free hf hm hhanded hfree
    have hline : l = ⟨none, [], false⟩ := by
      rw [hlined.free hno, hnil, (hsound.shows m hm).handed, hhanded]
      rfl
    refine ⟨0, _, rfl, Function.update a m none, .act (by rw [hl, hline]; exact .destroy), nodes, v,
      hsound.destroy hf hm hhanded hno hnil hnodes, fun n => ?_⟩
    by_cases hnm : n = m
    · rw [hnm, Function.update_self]
      refine ⟨fun hn => ?_, fun _ => rfl⟩
      have hself : Function.update s.initialised m false m = true := hn
      rw [Function.update_self] at hself
      cases hself
    · rw [Function.update_of_ne hnm]
      dsimp only
      rw [Function.update_of_ne hnm]
      exact ha n

/-- Every allowed input is answered, and is a step of the lines. -/
theorem Related.step {a : μ → Option (Line Tid)} (h : Related s a) {i : Input μ} (hi : Allowed s i) :
    ∃ o s', s.step i = some (o, s') ∧ ∃ a', Lines.Step a o a' ∧ Related s' a' := by
  have hmoved : ∀ nodes v, Sound s nodes v → Lined s v a → (∃ o s', s.step i = some (o, s') ∧ Moved s v o s') →
      ∃ o s', s.step i = some (o, s') ∧ ∃ a', Lines.Step a o a' ∧ Related s' a' := by
    rintro nodes v hsound ha ⟨o, s', hs, hm⟩
    obtain ⟨nodes', v', a', hsound', hstep, ha'⟩ := hm.lined hsound ha
    exact ⟨o, s', hs, a', hstep, nodes', v', hsound', ha'⟩
  have h' := h
  obtain ⟨nodes, v, hsound, ha⟩ := h
  cases i with
  | init m address =>
    obtain ⟨a', hstep, hrel⟩ := h'.init hi
    exact ⟨_, _, rfl, a', hstep, hrel⟩
  | destroy m =>
    obtain ⟨r, s', hs, a', hstep, hrel⟩ := h'.destroy hi
    exact ⟨some (m, .destroy r), s', by rw [Mutexes.step, hs]; rfl, a', hstep, hrel⟩
  | lock m => exact hmoved nodes v hsound ha ⟨_, _, rfl, hsound.lock hi⟩
  | unlock m => exact hmoved nodes v hsound ha ⟨_, _, rfl, hsound.unlock hi⟩
  | statement address => exact hmoved nodes v hsound ha (hsound.statement hi)
  | schedule u => exact hmoved nodes v hsound ha (hsound.schedule hi)
  | alarm u => exact hmoved nodes v hsound ha (hsound.alarm hi)

theorem Initial.related (h : Initial s) : Related s fun _ => none := by
  refine ⟨fun _ => [], fun m => s.newMutex m, ⟨fun m hm => ?_, fun m hm => ?_, fun m _ => ⟨h.handed m, fun t => ?_⟩,
    .inl h.running, fun t f hf => ?_, fun t f hf => ?_, fun m n hm => ?_, fun a ha => absurd (h.blocks a) ha,
    fun a ha => absurd (h.heap a) ha, fun m n a hm => ?_, fun t ht => absurd ht (h.others t)⟩, fun m => ⟨fun hm => ?_,
    fun _ => rfl⟩⟩
  case refine_3 =>
    rw [pcAt_none (h.frame t), h.critical t m]
    exact .inl rfl
  case refine_4 =>
    rw [h.frame t] at hf
    cases hf
  case refine_5 =>
    rw [h.frame t] at hf
    cases hf
  all_goals
    rw [h.initialised m] at hm
    cases hm

/-- What is allocated is the block of one initialised mutex, or a node of one wait list. -/
def Owned (s : Mutexes μ) : Prop :=
  ∃ nodes : μ → List Nat,
    (∀ m, s.initialised m = true → ∃ block, s.blocks (s.align m) = some block ∧
      Linked (WaitQueue.next s.heap) block.waitList (nodes m) ∧ block.waitListTail = (nodes m).getLast?) ∧
    (∀ a, s.blocks a ≠ none ↔ ∃ m, s.initialised m = true ∧ s.align m = a) ∧
    (∀ a, s.heap a ≠ none ↔ ∃ m, s.initialised m = true ∧ a ∈ nodes m) ∧
    ∀ m n, s.initialised m = true → s.initialised n = true → m ≠ n →
      s.align m ≠ s.align n ∧ ∀ a ∈ nodes m, a ∉ nodes n

theorem Sound.owned (h : Sound s nodes v) : Owned s := by
  refine ⟨nodes, fun m hm => ?_, fun a => ⟨h.blocks a, ?_⟩, fun a => ⟨h.heap a, ?_⟩, fun m n hm hn hne => ?_⟩
  · obtain ⟨block, hb, -, hholds⟩ := (h.shows m hm).block
    exact ⟨block, hb, hholds.linked, hholds.tail⟩
  · rintro ⟨m, hm, rfl⟩
    obtain ⟨block, hb, -⟩ := (h.shows m hm).block
    rw [hb]
    simp
  · rintro ⟨m, hm, hin⟩
    obtain ⟨block, -, -, hholds⟩ := (h.shows m hm).block
    obtain ⟨node, hnode⟩ := hholds.allocated hin
    have hsome : s.heap a = some node := hnode
    rw [hsome]
    simp
  · exact ⟨fun he => hne (h.align m n hm hn he), fun a ha ha' => hne (h.disjoint m n a hm hn ha ha')⟩

/-- Between the return of its pthread_mutex_lock and its call of pthread_mutex_unlock a thread is inside. -/
theorem Related.inside {a : μ → Option (Line Tid)} (h : Related s a) (hc : s.critical t m = true) :
    ∃ l, a m = some l ∧ l.inside = some t := by
  obtain ⟨nodes, v, hsound, ha⟩ := h
  have helse : ∀ f, s.frame t = some f → f.mutex ≠ m := by
    rintro f hf rfl
    rw [(hsound.calls t f hf).2] at hc
    cases hc
  have hpc : s.pcAt m t = .critical := by
    rw [pcAt_elsewhere helse, hc]
    rfl
  have hm : s.initialised m = true := by
    by_contra hno
    rcases (hsound.idle m (by simpa using hno)).2 t with hp | hp
    all_goals
      rw [hpc] at hp
      cases hp
  obtain ⟨l, hl, hlined⟩ := (ha m).1 hm
  refine ⟨l, hl, (hlined.inside t).mpr ?_⟩
  rw [(hsound.shows m hm).pc, hpc]
  trivial

/-- A blocked thread stands in a line. -/
theorem Related.blocked {a : μ → Option (Line Tid)} (h : Related s a) (ht : s.status t = .blocked) :
    ∃ m, t ∈ waitingAt a m := by
  obtain ⟨nodes, v, hsound, ha⟩ := h
  obtain ⟨m, hm, hin⟩ := hsound.blocked t ht
  obtain ⟨l, hl, hlined⟩ := (ha m).1 hm
  obtain ⟨next, -, hwaiting⟩ := hlined.waiting
  refine ⟨m, ?_⟩
  unfold waitingAt
  rw [hl, Option.map_some, Option.getD_some, hwaiting]
  exact List.mem_append_right _ hin

/-- Any number of mutexes, initialised and destroyed, locked and unlocked by any threads under every
    order of switches, with alarms in user code and no mutex locked or destroyed while it is handed
    on. Each mutex is a line, in which the threads enter in the order in which they joined; the
    thread between lock and unlock is the one inside, and a blocked thread waits in a line. No
    statement meets a block or node that is not allocated, and nothing is allocated that no mutex owns. -/
theorem mutexes_are_lines {s₀ s : Mutexes μ} {es : List (Input μ × Out μ)} (h₀ : Initial s₀)
    (hrun : Run (Guarded step Allowed) s₀ es s) :
    ∃ a, Run Lines.Step (fun _ => none) (es.map Prod.snd) a ∧
      (∀ m, joined m (es.map Prod.snd) = entered m (es.map Prod.snd) ++ waitingAt a m) ∧
      (∀ t m, s.critical t m = true → ∃ l, a m = some l ∧ l.inside = some t) ∧
      (∀ t, s.status t = .blocked → ∃ m, t ∈ waitingAt a m) ∧ Owned s ∧
      ∀ i, Allowed s i → ∃ o s', s.step i = some (o, s') := by
  obtain ⟨a, hlines, hrel⟩ := hrun.simulates (Q := fun a e a' => Lines.Step a e.2 a') (T := Related) h₀.related
    fun s e s' a hrel hstep => by
      obtain ⟨o, s₁, hs, a', hlines, hrel'⟩ := hrel.step hstep.1
      rw [hstep.2, Option.some.injEq, Prod.mk.injEq] at hs
      obtain ⟨ho, rfl⟩ := hs
      exact ⟨a', by rw [ho]; exact hlines, hrel'⟩
  have hrun' : Run Lines.Step (fun _ : μ => none) (es.map Prod.snd) a := Run.map hlines
  refine ⟨a, hrun', Lines.in_order hrun', fun t m hc => hrel.inside hc, fun t ht => hrel.blocked ht, ?_, fun i hi => ?_⟩
  · obtain ⟨nodes, v, hsound, -⟩ := hrel
    exact hsound.owned
  · obtain ⟨o, s', hs, -⟩ := hrel.step hi
    exact ⟨o, s', hs⟩

instance {o : Option (Frame μ)} {P : Frame μ → Prop} [DecidablePred P] : Decidable (∃ f, o = some f ∧ P f) :=
  match o with
  | none => isFalse fun h => by
      obtain ⟨f, hf, -⟩ := h
      cases hf
  | some f => decidable_of_iff (P f) ⟨fun h => ⟨f, rfl, h⟩, fun h => by
      obtain ⟨g, hg, h⟩ := h
      cases hg
      exact h⟩

instance : DecidablePred Pc.Schedules := fun p => by
  unfold Pc.Schedules
  split <;> infer_instance

instance (s : Mutexes μ) : DecidablePred (Allowed s)
  | .init _ _ => inferInstanceAs (Decidable (_ ∧ _ ∧ _ ∧ _))
  | .destroy _ => inferInstanceAs (Decidable (_ ∧ _ ∧ _))
  | .lock _ => inferInstanceAs (Decidable (_ ∧ _ ∧ _ ∧ _))
  | .unlock _ => inferInstanceAs (Decidable (_ ∧ _))
  | .statement _ => inferInstanceAs (Decidable ((∃ _, _ ∧ ¬ _) ∧ _ ∧ _))
  | .schedule _ => inferInstanceAs (Decidable ((∃ _, _ ∧ _) ∧ _))
  | .alarm _ => inferInstanceAs (Decidable (_ ∧ _))

/-- Thread 0 runs and thread 1 is ready. -/
def twoThreads : Mutexes Bool where
  status := fun t => if t = mainTid then .running else if t.val < 2 then .ready else .empty
  tid := mainTid
  blocks := fun _ => none
  heap := fun _ => none
  align := fun _ => 0
  frame := fun _ => none
  initialised := fun _ => false
  critical := fun _ _ => false
  handed := fun _ => none

theorem twoThreads_initial : Initial twoThreads := by
  refine ⟨fun _ => rfl, fun _ => rfl, fun _ => rfl, fun _ => rfl, fun _ _ => rfl, fun _ => rfl, rfl, fun t => ?_⟩
  unfold twoThreads
  dsimp only
  split
  · simp
  · split <;> simp

/-- Thread 1 waits for the first mutex while thread 0 fails to destroy it and locks the second, and
    then has the first handed to it. -/
theorem mutexes_are_lines_handed : ∃ es s, Run (Guarded step Allowed) twoThreads es s ∧
    s.critical 1 false = true ∧ s.critical mainTid true = true ∧
    ∃ a, Run Lines.Step (fun _ => none) (es.map Prod.snd) a ∧
      (∀ m, joined m (es.map Prod.snd) = entered m (es.map Prod.snd) ++ waitingAt a m) ∧
      (∀ t m, s.critical t m = true → ∃ l, a m = some l ∧ l.inside = some t) ∧
      (∀ t, s.status t = .blocked → ∃ m, t ∈ waitingAt a m) ∧ Owned s ∧
      ∀ i, Allowed s i → ∃ o s', s.step i = some (o, s') := by
  have hexec : ((exec step (fun s i => decide (Allowed s i)) twoThreads
      [.init false 0, .init true 1, .lock false, .statement 5, .statement 5, .alarm 1, .lock false, .statement 5,
        .statement 5, .schedule 0, .destroy false, .lock true, .statement 6, .statement 6, .unlock false, .statement 6,
        .statement 6, .schedule 1, .statement 6]).map fun q =>
        decide (q.2.critical 1 false = true ∧ q.2.critical mainTid true = true)) = some true := by
    decide +kernel
  obtain ⟨⟨es, s⟩, he, hp⟩ := Option.map_eq_some_iff.mp hexec
  obtain ⟨h1, h0⟩ := of_decide_eq_true hp
  have hrun : Run (Guarded step Allowed) twoThreads ([] ++ es) s :=
    exec_run (fun s i _ h => of_decide_eq_true h) .start he
  exact ⟨_, s, hrun, h1, h0, mutexes_are_lines twoThreads_initial hrun⟩

end Mutexes

end EC440.Threads
