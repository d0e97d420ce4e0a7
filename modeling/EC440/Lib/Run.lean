/-
  Labelled runs of a transition relation, and the two rules every proof about whole runs
  goes through: an invariant that holds at the start and is kept by one step holds in every
  state reached (`Run.invariant`), and a step-by-step simulation lifts to runs
  (`Run.simulation`).

  A program is given as a machine `m : σ → ι → Option (ρ × σ)`: in a state, an input is
  answered by a result and a next state, or by nothing (`none`: the behaviour is undefined
  or the call does not return). `Guarded m G` is its transition relation when the callers
  keep to the condition `G` on the state and the input.
-/
import Mathlib.Data.List.Basic

namespace EC440.Lib

variable {σ τ ε ι ρ : Type*}

/-- Runs of `R` from `s₀`: the events in the order they happen, and the state reached. -/
inductive Run (R : σ → ε → σ → Prop) (s₀ : σ) : List ε → σ → Prop
  | start : Run R s₀ [] s₀
  | step {es : List ε} {s s' : σ} {e : ε} :
      Run R s₀ es s → R s e s' → Run R s₀ (es ++ [e]) s'

/-- The transitions of the machine `m` made by inputs that meet the guard `G`. -/
def Guarded (m : σ → ι → Option (ρ × σ)) (G : σ → ι → Prop) (s : σ) (e : ι × ρ) (s' : σ) : Prop :=
  G s e.1 ∧ m s e.1 = some (e.2, s')

theorem Run.invariant {R : σ → ε → σ → Prop} {s₀ : σ} {I : σ → Prop} (h₀ : I s₀)
    (hstep : ∀ s e s', I s → R s e s' → I s') {es : List ε} {s : σ} (h : Run R s₀ es s) : I s := by
  induction h with
  | start => exact h₀
  | step _ hR ih => exact hstep _ _ _ ih hR

/-- Invariants that speak of the events so far. -/
theorem Run.invariant_trace {R : σ → ε → σ → Prop} {s₀ : σ} {I : List ε → σ → Prop} (h₀ : I [] s₀)
    (hstep : ∀ es s e s', I es s → R s e s' → I (es ++ [e]) s') {es : List ε} {s : σ}
    (h : Run R s₀ es s) : I es s := by
  induction h with
  | start => exact h₀
  | step _ hR ih => exact hstep _ _ _ _ ih hR

theorem Run.mono {R Q : σ → ε → σ → Prop} {s₀ : σ} (hRQ : ∀ s e s', R s e s' → Q s e s')
    {es : List ε} {s : σ} (h : Run R s₀ es s) : Run Q s₀ es s := by
  induction h with
  | start => exact .start
  | step _ hR ih => exact .step ih (hRQ _ _ _ hR)

/-- A run under other labels. -/
theorem Run.map {δ : Type*} {Q : σ → δ → σ → Prop} {f : ε → δ} {s₀ : σ} {es : List ε} {s : σ}
    (h : Run (fun s e s' => Q s (f e) s') s₀ es s) : Run Q s₀ (es.map f) s := by
  induction h with
  | start => exact .start
  | step _ hQ ih =>
    rw [List.map_append]
    exact .step ih hQ

/-- The steps of a run are made in states that meet its invariants. -/
theorem Run.within {R : σ → ε → σ → Prop} {s₀ : σ} {I : σ → Prop} (h₀ : I s₀)
    (hstep : ∀ s e s', I s → R s e s' → I s') {es : List ε} {s : σ} (h : Run R s₀ es s) :
    Run (fun s e s' => I s ∧ R s e s') s₀ es s := by
  induction h with
  | start => exact .start
  | step hrun hR ih => exact .step ih ⟨hrun.invariant h₀ hstep, hR⟩

/-- A measure that every step makes smaller bounds the length of the runs. -/
theorem Run.length_le {R : σ → ε → σ → Prop} {s₀ : σ} {w : σ → Nat} (hstep : ∀ s e s', R s e s' → w s' < w s)
    {es : List ε} {s : σ} (h : Run R s₀ es s) : es.length + w s ≤ w s₀ := by
  induction h with
  | start => exact Nat.le_of_eq (Nat.zero_add _)
  | step _ hR ih =>
    have hlt := hstep _ _ _ hR
    rw [List.length_append, List.length_singleton]
    omega

/-- The machine run on a list of inputs; `none` where an input does not pass the test `ok` or is
    not answered. -/
def exec (m : σ → ι → Option (ρ × σ)) (ok : σ → ι → Bool) : σ → List ι → Option (List (ι × ρ) × σ)
  | s, [] => some ([], s)
  | s, i :: is =>
      if ok s i then
        (m s i).bind fun p => (exec m ok p.2 is).map fun q => ((i, p.1) :: q.1, q.2)
      else none

/-- What `exec` computes is a run. -/
theorem exec_run {m : σ → ι → Option (ρ × σ)} {ok : σ → ι → Bool} {G : σ → ι → Prop}
    {s₀ : σ} : ∀ {is : List ι} {s s' : σ} {es₀ es : List (ι × ρ)},
    (∀ s, ∀ i ∈ is, ok s i = true → G s i) →
    Run (Guarded m G) s₀ es₀ s → exec m ok s is = some (es, s') → Run (Guarded m G) s₀ (es₀ ++ es) s'
  | [], s, s', es₀, es, _, hrun, h => by
      simp only [exec, Option.some.injEq, Prod.mk.injEq] at h
      obtain ⟨rfl, rfl⟩ := h
      rw [List.append_nil]
      exact hrun
  | i :: is, s, s', es₀, es, hok, hrun, h => by
      simp only [exec] at h
      split at h
      · next hi =>
          obtain ⟨⟨r, t⟩, hm, h⟩ := Option.bind_eq_some_iff.mp h
          obtain ⟨⟨es', t'⟩, hex, he⟩ := Option.map_eq_some_iff.mp h
          simp only [Prod.mk.injEq] at he
          obtain ⟨rfl, rfl⟩ := he
          have hrun' := exec_run (fun t j hj => hok t j (List.mem_cons_of_mem i hj))
            (hrun.step (e := (i, r)) ⟨hok s i List.mem_cons_self hi, hm⟩) hex
          rwa [List.append_assoc] at hrun'
      · cases h

/-- Forward simulation along an abstraction function, under an invariant of the concrete
    relation: every concrete run is an abstract run with the same events. -/
theorem Run.simulation {R : σ → ε → σ → Prop} {Q : τ → ε → τ → Prop} {s₀ : σ} (abs : σ → τ)
    {I : σ → Prop} (h₀ : I s₀) (hstep : ∀ s e s', I s → R s e s' → I s')
    (hsim : ∀ s e s', I s → R s e s' → Q (abs s) e (abs s')) {es : List ε} {s : σ}
    (h : Run R s₀ es s) : Run Q (abs s₀) es (abs s) := by
  induction h with
  | start => exact .start
  | step hrun hR ih => exact .step ih (hsim _ _ _ (hrun.invariant h₀ hstep) hR)

/-- Forward simulation along a relation: every concrete run has an abstract run with the same
    events. -/
theorem Run.simulates {R : σ → ε → σ → Prop} {Q : τ → ε → τ → Prop} {s₀ : σ} {a₀ : τ} {T : σ → τ → Prop}
    (h₀ : T s₀ a₀) (hsim : ∀ s e s' a, T s a → R s e s' → ∃ a', Q a e a' ∧ T s' a') {es : List ε} {s : σ}
    (h : Run R s₀ es s) : ∃ a, Run Q a₀ es a ∧ T s a := by
  induction h with
  | start => exact ⟨a₀, .start, h₀⟩
  | step _ hR ih =>
      obtain ⟨a, hrun, hrel⟩ := ih
      obtain ⟨a', hQ, hrel'⟩ := hsim _ _ _ _ hrel hR
      exact ⟨a', .step hrun hQ, hrel'⟩

end EC440.Lib
