/-
  The descriptors over a whole session. A child starts with what the shell has open when it forks:
  the two ends of its own pipe and, behind the first command, the read end of the pipe before.
  Once the call of execCommand has ended, no process but a command's own has the write end of its
  pipe, so the next command reads to the end of the file when that process has ended. The shell
  itself keeps the read end for the next command's call.
-/
import EC440.Shell.Processes

namespace EC440.Shell

open EC440.Lib

variable {α : Type} {d d' base : Descriptors (File α)} {x : File α} {command : Command}
  {k fd fd1 input first last pipes : Nat} {background : Bool}

/-! ## The child -/

/-- `x` is a file of the table, or one that the child opens for a redirect. -/
def Reaches (d : Descriptors (File α)) (x : File α) : Prop :=
  (∃ fd, d.file fd = some x) ∨ ∃ path, x = .created path ∨ x = .opened path

/-- The files of a table that was made from another one. -/
def Derived (d d' : Descriptors (File α)) : Prop := ∀ fd x, d'.file fd = some x → Reaches d x

theorem Derived.close (h : Derived d d') (fd : Nat) : Derived d (d'.close fd) :=
  fun _ _ hx => h _ _ (Descriptors.of_file_close hx)

theorem Derived.dup2 (h : Derived d d') (oldfd newfd : Nat) : Derived d (d'.dup2 oldfd newfd) := by
  intro fd x hx
  obtain ⟨fd', hx⟩ := Descriptors.of_file_dup2 hx
  exact h fd' x hx

theorem Derived.openRedirect (h : Derived d d') (path : Option Str) (fd1 : Nat) {mode : Str → File α}
    (hmode : ∀ path, Reaches d (mode path)) : Derived d (openRedirect path mode (fd1, d')).2 := by
  cases path with
  | none => exact h
  | some path =>
    intro fd x hx
    rcases Descriptors.of_file_allocate hx with rfl | hx
    · exact hmode path
    · exact h fd x hx

theorem execChild_derived (command : Command) (input first last : Nat) (background : Bool) (fd1 : Nat)
    (d : Descriptors (File α)) : Derived d (execChild command input first last background fd1 d) := by
  have h₀ : Derived d d := fun fd x hx => .inl ⟨fd, hx⟩
  have h₁ := h₀.openRedirect command.redirectOutPath fd1 fun path => .inr ⟨path, .inl rfl⟩
  have h₂ := h₁.openRedirect command.redirectInPath (openRedirect command.redirectOutPath .created (fd1, d)).1
    fun path => .inr ⟨path, .inr rfl⟩
  unfold execChild
  dsimp only
  have h₃ : Derived d (if background then (openRedirect command.redirectInPath File.opened
      (openRedirect command.redirectOutPath File.created (fd1, d))).2.close
        (openRedirect command.redirectInPath File.opened (openRedirect command.redirectOutPath File.created (fd1, d))).1
      else (openRedirect command.redirectInPath File.opened
        (openRedirect command.redirectOutPath File.created (fd1, d))).2) := by
    split
    · exact h₂.close _
    · exact h₂
  split
  · exact h₃.dup2 _ _
  · split
    · exact (h₃.dup2 _ _).dup2 _ _
    · refine Derived.dup2 ?_ _ _
      split
      · refine Derived.dup2 ?_ _ _
        split
        · exact h₃.dup2 _ _
        · exact h₃
      · split
        · exact h₃.dup2 _ _
        · exact h₃

/-! ## The shell -/

/-- The descriptors of the shell before a call of execCommand: those it was started with, and the read
    end of the last pipe in a free place when there is a command before. -/
structure Tidy (base d : Descriptors (File α)) (input pipes : Nat) : Prop where
  made : input ≠ 0 → 0 < pipes
  free : input ≠ 0 → base.file input = none
  file : ∀ fd, d.file fd = if input ≠ 0 ∧ fd = input then some (.readEnd (pipes - 1)) else base.file fd

theorem Tidy.base_of_none (h : Tidy base d input pipes) (hd : d.file fd = none) : base.file fd = none := by
  rw [h.file] at hd
  split at hd
  · cases hd
  · exact hd

/-- The two places that a pipe takes. -/
theorem Tidy.places (h : Tidy base d input pipes) (h0 : base.file 0 ≠ none) :
    let fd0 := (d.allocate (.readEnd k)).1
    let fd1 := ((d.allocate (.readEnd k)).2.allocate (.writeEnd k)).1
    base.file fd0 = none ∧ base.file fd1 = none ∧ fd0 ≠ 0 ∧ fd1 ≠ fd0 ∧ (input ≠ 0 → fd0 ≠ input ∧ fd1 ≠ input) := by
  have hfd0 : d.file d.lowest = none := Descriptors.file_lowest d
  have hfd1 := Descriptors.file_lowest (d.allocate (.readEnd k)).2
  have hne : (d.allocate (.readEnd k)).2.lowest ≠ d.lowest :=
    Ne.symm (Descriptors.lowest_ne (Descriptors.file_allocate d (.readEnd k)))
  have hold : d.file (d.allocate (.readEnd k)).2.lowest = none := by
    rw [← hfd1]
    exact (Descriptors.file_put_ne d _ hne).symm
  have hinput : ∀ {fd : Nat}, d.file fd = none → input ≠ 0 → fd ≠ input := by
    intro fd hd hi he
    rw [h.file, if_pos ⟨hi, he⟩] at hd
    cases hd
  refine ⟨h.base_of_none hfd0, h.base_of_none hold, fun he => ?_, hne, fun hi => ⟨hinput hfd0 hi, hinput hold hi⟩⟩
  exact h0 (by rw [← he]; exact h.base_of_none hfd0)

theorem file_close_if (d : Descriptors (File α)) (p : Prop) [Decidable p] (fd fd' : Nat) :
    (if p then d.close fd' else d).file fd = if p ∧ fd = fd' then none else d.file fd := by
  by_cases hp : p
  · by_cases hfd : fd = fd'
    · rw [if_pos hp, if_pos ⟨hp, hfd⟩, hfd, Descriptors.file_close_self]
    · rw [if_pos hp, if_neg fun h => hfd h.2, Descriptors.file_close_ne d hfd]
  · rw [if_neg hp, if_neg fun h => hp h.1]

/-- With both ends of the pipe. -/
theorem file_piped (d : Descriptors (File α)) (k fd : Nat) :
    (Myshell.piped k d).file fd =
      if fd = ((d.allocate (.readEnd k)).2.allocate (.writeEnd k)).1 then some (.writeEnd k)
      else if fd = (d.allocate (.readEnd k)).1 then some (.readEnd k) else d.file fd := by
  unfold Myshell.piped
  split
  · next he => rw [he, Descriptors.file_allocate]
  · next he =>
    rw [show ((d.allocate (.readEnd k)).2.allocate (.writeEnd k)).2.file fd = (d.allocate (.readEnd k)).2.file fd from
      Descriptors.file_put_ne _ _ he]
    split
    · next he => rw [he, Descriptors.file_allocate]
    · next he => exact Descriptors.file_put_ne _ _ he

/-- What execCommand leaves of the shell's descriptors. -/
theorem file_shell (d : Descriptors (File α)) (k : Nat) (command : Command) (input first last : Nat) (background : Bool)
    (fd : Nat) :
    (execCommand k command input first last background d).shell.file fd =
      if last = 1 ∧ fd = (d.allocate (.readEnd k)).1 then none
      else if input ≠ 0 ∧ fd = input then none
      else if fd = ((d.allocate (.readEnd k)).2.allocate (.writeEnd k)).1 then none
      else if fd = (d.allocate (.readEnd k)).1 then some (.readEnd k) else d.file fd := by
  have hclose := file_close_if (Myshell.piped k d) True fd ((d.allocate (.readEnd k)).2.allocate (.writeEnd k)).1
  rw [if_pos trivial, file_piped] at hclose
  unfold execCommand
  dsimp only
  rw [file_close_if, file_close_if]
  change (if _ then _ else if _ then _ else ((Myshell.piped k d).close _).file fd) = _
  rw [hclose]
  simp only [true_and]
  split
  · rfl
  · split
    · rfl
    · split <;> rfl

theorem Tidy.execCommand (h : Tidy base d input pipes) (h0 : base.file 0 ≠ none) (command : Command) (first last : Nat)
    (background : Bool) :
    (execCommand pipes command input first last background d).returned ≠ 0 ∧
      Tidy base (execCommand pipes command input first last background d).shell
        (if last = 1 then 0 else (execCommand pipes command input first last background d).returned) (pipes + 1) := by
  obtain ⟨hfree0, hfree1, hne0, hne, hinput⟩ := h.places (k := pipes) h0
  have hreturned : (Shell.execCommand pipes command input first last background d).returned =
      (d.allocate (.readEnd pipes)).1 := rfl
  rw [hreturned]
  refine ⟨hne0, fun _ => Nat.succ_pos pipes, ?_, fun fd => ?_⟩
  · intro hlast
    by_cases hl : last = 1
    · exact absurd (if_pos hl) hlast
    · rw [if_neg hl]
      exact hfree0
  · rw [file_shell, h.file, Nat.add_sub_cancel]
    by_cases he0 : fd = (d.allocate (.readEnd pipes)).1
    · rw [← he0] at hne hne0 hfree0 ⊢
      have hi : ¬ (input ≠ 0 ∧ fd = input) := fun hi => (hinput hi.1).1 (he0.symm.trans hi.2)
      rw [if_neg hi, if_neg (Ne.symm hne), if_pos rfl]
      by_cases hl : last = 1
      · rw [if_pos ⟨hl, rfl⟩, if_pos hl, if_neg fun h => h.1 rfl, hfree0]
      · rw [if_neg fun h => hl h.1, if_neg hl, if_pos ⟨hne0, rfl⟩]
    · have hnext : ¬ ((if last = 1 then 0 else (d.allocate (.readEnd pipes)).1) ≠ 0 ∧
          fd = if last = 1 then 0 else (d.allocate (.readEnd pipes)).1) := by
        intro hn
        split at hn
        · exact hn.1 rfl
        · exact he0 hn.2
      rw [if_neg fun h => he0 h.2, if_neg hnext]
      split
      · next hi => rw [hi.2, h.free hi.1]
      · split
        · next he1 => rw [he1, hfree1]
        · rfl

theorem Tidy.of_file (h : Tidy base d input pipes) (hx : d.file fd = some x) :
    (∃ k, k + 1 = pipes ∧ x = .readEnd k) ∨ base.file fd = some x := by
  rw [h.file] at hx
  split at hx
  · next hi => exact .inl ⟨pipes - 1, Nat.sub_add_cancel (h.made hi.1), (Option.some.inj hx).symm⟩
  · exact .inr hx

/-- What the shell has open between pipe and the end of a call of execCommand. -/
theorem Tidy.of_file_piped (h : Tidy base d input pipes) (hx : (Myshell.piped pipes d).file fd = some x) :
    x = .writeEnd pipes ∨ x = .readEnd pipes ∨ (∃ k, k + 1 = pipes ∧ x = .readEnd k) ∨ base.file fd = some x := by
  rw [file_piped] at hx
  split at hx
  · exact .inl (Option.some.inj hx).symm
  · split at hx
    · exact .inr (.inl (Option.some.inj hx).symm)
    · exact .inr (.inr (h.of_file hx))

variable {shell : Descriptors α}

theorem of_inherited (hx : (shell.map .inherited).file fd = some x) : ∃ y, x = .inherited y := by
  rw [Descriptors.file_map] at hx
  obtain ⟨y, -, rfl⟩ := Option.map_eq_some_iff.mp hx
  exact ⟨y, rfl⟩

theorem Tidy.writeEnd (h : Tidy (shell.map .inherited) d input pipes) : d.file fd ≠ some (.writeEnd k) := by
  intro hx
  rcases h.of_file hx with ⟨k', -, he⟩ | he
  · cases he
  · obtain ⟨y, he⟩ := of_inherited he
    cases he

theorem Tidy.readEnd (h : Tidy (shell.map .inherited) d input pipes) (hx : d.file fd = some (.readEnd k)) :
    k + 1 = pipes := by
  rcases h.of_file hx with ⟨k', hk', he⟩ | he
  · rwa [File.readEnd.inj he]
  · obtain ⟨y, he⟩ := of_inherited he
    cases he

/-! ## The session -/

namespace Myshell

variable {s s' : Myshell α} {es : List Event} {e : Event}

/-- The shell's descriptors in the steps of a call. -/
def Kept (base : Descriptors (File α)) (s : Myshell α) : Prop :=
  match s.pc with
  | .prompt | .ended => Tidy base s.descriptors 0 s.pipes
  | .execute _ _ input _ => Tidy base s.descriptors input s.pipes
  | .parent call commands _ =>
      Tidy base call.shell (if commands = [] then 0 else call.returned) s.pipes ∧
        ∃ k d input, s.pipes = k + 1 ∧ Tidy base d input k ∧ s.descriptors = piped k d

theorem Kept.next {call : Executed α} {commands : List Command} {background : Bool} (h : Kept base s)
    (hpc : s.pc = .parent call commands background) : Kept base (s.next call commands background) := by
  unfold Kept at h
  rw [hpc] at h
  obtain ⟨hshell, -⟩ := h
  unfold Kept Myshell.next
  cases commands with
  | nil => exact hshell
  | cons command commands => exact hshell

theorem Kept.step (h : Kept base s) (h0 : base.file 0 ≠ none) (hs : Step s e s') : Kept base s' := by
  have same : ∀ {s' : Myshell α}, s'.pc = s.pc → s'.descriptors = s.descriptors → s'.pipes = s.pipes → Kept base s' := by
    intro s' hpc hd hpipes
    unfold Kept
    rw [hpc, hd, hpipes]
    exact h
  cases hs with
  | line hpc hi hne =>
    unfold Kept at h
    rw [hpc] at h
    exact h
  | eof hpc hi =>
    unfold Kept at h
    rw [hpc] at h
    exact h
  | @fork command commands background input first pid hpc hi hfree =>
    unfold Kept at h
    rw [hpc] at h
    have hcall := (Tidy.execCommand h h0 command first (if commands = [] then 1 else 0) background).2
    have hlast : (if (if commands = [] then 1 else 0) = 1 then 0 else (s.descriptors.allocate (.readEnd s.pipes : File α)).1) =
        if commands = [] then 0 else (s.descriptors.allocate (.readEnd s.pipes : File α)).1 := by
      by_cases hnil : commands = []
      · rw [if_pos hnil, if_pos rfl, if_pos hnil]
      · rw [if_neg hnil, if_neg (by decide), if_neg hnil]
    exact ⟨hlast ▸ hcall, s.pipes, s.descriptors, input, rfl, h, rfl⟩
  | wait hpc hi hsplit hz => exact Kept.next (same rfl rfl rfl) hpc
  | noChild hpc hi hnone => exact h.next hpc
  | noWait hpc hi => exact h.next hpc
  | exit hsplit hz => exact same rfl rfl rfl
  | signal hpc hp hi => exact same rfl rfl rfl
  | waitpid hi hsplit hz => exact same rfl rfl rfl
  | handled hi hall => exact same rfl rfl rfl

theorem Kept.start (shell : Descriptors α) : Kept (shell.map .inherited) (start shell) :=
  ⟨fun h => absurd rfl h, fun h => absurd rfl h, fun fd => by rw [if_neg fun h => h.1 rfl]; rfl⟩

/-- The shell was started with a standard input. -/
theorem file_zero (h0 : shell.file 0 ≠ none) : (shell.map (.inherited : α → File α)).file 0 ≠ none := by
  rw [Descriptors.file_map]
  intro hnone
  exact h0 (Option.map_eq_none_iff.mp hnone)

theorem kept_start (h0 : shell.file 0 ≠ none) (hrun : Run Step (start shell) es s) :
    Kept (shell.map .inherited) s := by
  exact hrun.invariant (Kept.start shell) fun _ _ _ h hs => h.step (file_zero h0) hs

theorem Kept.prompt (h : Kept base s) (hpc : s.pc = .prompt) : s.descriptors.file = base.file := by
  unfold Kept at h
  rw [hpc] at h
  funext fd
  rw [h.file, if_neg fun h => h.1 rfl]

/-- The shell has a write end only in a call of execCommand. -/
theorem Kept.writeEnd (h : Kept (shell.map .inherited) s) (hx : s.descriptors.file fd = some (.writeEnd k)) :
    k + 1 = s.pipes ∧ ∃ call commands background, s.pc = .parent call commands background := by
  unfold Kept at h
  split at h
  · exact absurd hx h.writeEnd
  · exact absurd hx h.writeEnd
  · exact absurd hx h.writeEnd
  · next call commands background hpc =>
    obtain ⟨-, k', d, input, hpipes, ht, hd⟩ := h
    rw [hd] at hx
    rcases ht.of_file_piped hx with he | he | ⟨k'', -, he⟩ | he
    · rw [File.writeEnd.inj he, hpipes]
      exact ⟨rfl, call, commands, background, hpc⟩
    · cases he
    · cases he
    · obtain ⟨y, he⟩ := of_inherited he
      cases he

/-- The shell has the read end of a pipe until the call for the next command ends. -/
theorem Kept.readEnd (h : Kept (shell.map .inherited) s) (hx : s.descriptors.file fd = some (.readEnd k)) :
    (k + 1 = s.pipes ∧ s.pc ≠ .prompt ∧ s.pc ≠ .ended) ∨
      (k + 2 = s.pipes ∧ ∃ call commands background, s.pc = .parent call commands background) := by
  have hnone : Tidy (shell.map .inherited) s.descriptors 0 s.pipes → False := by
    intro ht
    rw [ht.file, if_neg fun h => h.1 rfl] at hx
    obtain ⟨y, he⟩ := of_inherited hx
    cases he
  unfold Kept at h
  split at h
  · exact (hnone h).elim
  · exact (hnone h).elim
  · next commands background input first hpc =>
    rw [hpc]
    exact .inl ⟨h.readEnd hx, nofun, nofun⟩
  · next call commands background hpc =>
    obtain ⟨-, k', d, input, hpipes, ht, hd⟩ := h
    rw [hd] at hx
    rw [hpipes, hpc]
    rcases ht.of_file_piped hx with he | he | ⟨k'', hk'', he⟩ | he
    · cases he
    · rw [File.readEnd.inj he]
      exact .inl ⟨rfl, nofun, nofun⟩
    · rw [File.readEnd.inj he]
      exact .inr ⟨by omega, call, commands, background, rfl⟩
    · obtain ⟨y, he⟩ := of_inherited he
      cases he

/-- The child of a command has no end of a pipe but those of its own and the read end of the one before. -/
def Own (c : Child α) : Prop :=
  ∀ fd k, (c.descriptors.file fd = some (.writeEnd k) → k = c.pipe) ∧
    (c.descriptors.file fd = some (.readEnd k) → k = c.pipe ∨ k + 1 = c.pipe)

theorem Own.fork {pid : Nat} (h : Tidy (shell.map .inherited) d input pipes) (command : Command) (first last : Nat)
    (background : Bool) :
    Own ⟨pid, pipes, (execCommand pipes command input first last background d).child, false⟩ := by
  have hfile : ∀ {fd : Nat} {x : File α},
      (execCommand pipes command input first last background d).child.file fd = some x →
      (∃ path, x = .created path ∨ x = .opened path) ∨ x = .writeEnd pipes ∨ x = .readEnd pipes ∨
        (∃ k, k + 1 = pipes ∧ x = .readEnd k) ∨ ∃ y, x = .inherited y := by
    intro fd x hx
    rcases execChild_derived _ _ _ _ _ _ _ fd x hx with hopen | hpath
    · obtain ⟨fd', hopen⟩ := hopen
      rcases h.of_file_piped hopen with hx | hx | hx | hx
      · exact .inr (.inl hx)
      · exact .inr (.inr (.inl hx))
      · exact .inr (.inr (.inr (.inl hx)))
      · exact .inr (.inr (.inr (.inr (of_inherited hx))))
    · exact .inl hpath
  intro fd k
  constructor
  · intro hx
    rcases hfile hx with ⟨path, he | he⟩ | he | he | ⟨k', -, he⟩ | ⟨y, he⟩
    all_goals first | exact File.writeEnd.inj he | cases he
  · intro hx
    rcases hfile hx with ⟨path, he | he⟩ | he | he | ⟨k', hk', he⟩ | ⟨y, he⟩
    all_goals first | exact .inl (File.readEnd.inj he) | cases he
    exact .inr hk'

/-- Every child has its own pipe. -/
structure Separate (s : Myshell α) : Prop where
  own : ∀ c ∈ s.children, Own c
  lt : ∀ c ∈ s.children, c.pipe < s.pipes
  nodup : (s.children.map Child.pipe).Nodup

theorem Separate.collect {l₁ l₂ : List (Child α)} {c : Child α} (h : Separate s)
    (hsplit : s.children = l₁ ++ c :: l₂) (hchildren : s'.children = l₁ ++ l₂) (hpipes : s'.pipes = s.pipes) :
    Separate s' := by
  have hmem : ∀ c ∈ s'.children, c ∈ s.children := by
    intro c hc
    rw [hchildren] at hc
    rw [hsplit]
    exact mem_without hc
  refine ⟨fun c hc => h.own c (hmem c hc), fun c hc => by rw [hpipes]; exact h.lt c (hmem c hc), ?_⟩
  have hnodup := h.nodup
  rw [hsplit, List.map_append, List.map_cons] at hnodup
  rw [hchildren, List.map_append]
  exact hnodup.sublist ((List.sublist_cons_self _ _).append_left _)

theorem Separate.same (h : Separate s) (hchildren : s'.children = s.children) (hpipes : s'.pipes = s.pipes) :
    Separate s' := by
  refine ⟨?_, ?_, ?_⟩
  · rw [hchildren]
    exact h.own
  · rw [hchildren, hpipes]
    exact h.lt
  · rw [hchildren]
    exact h.nodup

theorem Separate.step (h : Separate s) (hk : Kept (shell.map .inherited) s) (hs : Step s e s') : Separate s' := by
  cases hs with
  | line hpc hi hne => exact h.same rfl rfl
  | eof hpc hi => exact h.same rfl rfl
  | @fork command commands background input first pid hpc hi hfree =>
    unfold Kept at hk
    rw [hpc] at hk
    refine ⟨fun c hc => ?_, fun c hc => ?_, ?_⟩
    · rcases List.mem_append.mp hc with hc | hc
      · exact h.own c hc
      · rw [List.mem_singleton.mp hc]
        exact Own.fork hk command first _ background
    · rcases List.mem_append.mp hc with hc | hc
      · exact Nat.lt_succ_of_lt (h.lt c hc)
      · rw [List.mem_singleton.mp hc]
        exact Nat.lt_succ_self s.pipes
    · rw [fork, List.map_append]
      refine List.nodup_append.mpr ⟨h.nodup, List.pairwise_singleton _ _, fun k hk k' hk' => ?_⟩
      obtain ⟨c, hc, rfl⟩ := List.mem_map.mp hk
      rw [List.mem_singleton.mp hk']
      exact Nat.ne_of_lt (h.lt c hc)
  | wait hpc hi hsplit hz => exact h.collect hsplit rfl rfl
  | noChild hpc hi hnone => exact h.same rfl rfl
  | noWait hpc hi => exact h.same rfl rfl
  | @exit c l₁ l₂ hsplit hz =>
    have hmem : ∀ x ∈ l₁ ++ { c with zombie := true } :: l₂, ∃ y ∈ s.children, y.pipe = x.pipe ∧
        y.descriptors = x.descriptors := by
      intro x hx
      rw [hsplit]
      rcases List.mem_append.mp hx with hx | hx
      · exact ⟨x, List.mem_append_left _ hx, rfl, rfl⟩
      · rcases List.mem_cons.mp hx with rfl | hx
        · exact ⟨c, List.mem_append_right _ List.mem_cons_self, rfl, rfl⟩
        · exact ⟨x, List.mem_append_right _ (List.mem_cons_of_mem c hx), rfl, rfl⟩
    refine ⟨fun x hx => ?_, fun x hx => ?_, ?_⟩
    · obtain ⟨y, hy, hpipe, hd⟩ := hmem x hx
      unfold Own
      rw [← hpipe, ← hd]
      exact h.own y hy
    · obtain ⟨y, hy, hpipe, -⟩ := hmem x hx
      rw [← hpipe]
      exact h.lt y hy
    · have hnodup := h.nodup
      rw [hsplit, List.map_append, List.map_cons] at hnodup
      rw [List.map_append, List.map_cons]
      exact hnodup
  | signal hpc hp hi => exact h.same rfl rfl
  | waitpid hi hsplit hz => exact h.collect hsplit rfl rfl
  | handled hi hall => exact h.same rfl rfl

/-- In every session the shell is back at the prompt with the descriptors it was started with. -/
theorem prompt_descriptors (h0 : shell.file 0 ≠ none) (hrun : Run Step (start shell) es s) (hpc : s.pc = .prompt) :
    ∀ fd, s.descriptors.file fd = (shell.file fd).map .inherited := by
  intro fd
  rw [(kept_start h0 hrun).prompt hpc, Descriptors.file_map]

/-- "wc" -/
def wc : Command := ⟨[[119, 99]], none, none⟩

/-- The shell of the line "ls | wc &" behind the call for ls, in the call for wc, and at the prompt. -/
def behindLs : Myshell Nat :=
  ({ start terminal with pc := .execute [ls, wc] true 0 1 }.fork 7 ls [wc] true 0 1).next
    (execCommand 0 ls 0 1 0 true (start terminal).descriptors) [wc] true

def callOfWc : Executed Nat := execCommand 1 wc 3 0 1 true behindLs.descriptors

def inWc : Myshell Nat := behindLs.fork 8 wc [] true 3 0

theorem run_wc : Run Step (start terminal) [.line ⟨[ls, wc], true⟩, .fork ls 7, .noWait, .fork wc 8] inWc := by
  have hline : Step (start terminal) (.line ⟨[ls, wc], true⟩)
      { start terminal with pc := .execute [ls, wc] true 0 1 } := .line rfl rfl (List.cons_ne_nil _ _)
  have hls := Step.fork (s := { start terminal with pc := .execute [ls, wc] true 0 1 }) rfl rfl
    (show ∀ c : Child Nat, c ∈ [] → c.pid ≠ 7 from nofun)
  have hnext : Step _ .noWait behindLs := Step.noWait rfl rfl
  have hwc : Step behindLs (.fork wc 8) inWc := Step.fork rfl rfl fun c hc => by
    rw [List.mem_singleton.mp hc]
    decide
  exact (((Run.start.step hline).step hls).step hnext).step hwc

/-- Both commands of "ls | wc &" were forked and still run. -/
theorem prompt_descriptors_wc : ∃ es s, Run Step (start terminal) es s ∧ s.pipes = 2 ∧ s.pids = [7, 8] ∧
    ∀ fd, s.descriptors.file fd = (terminal.file fd).map .inherited := by
  have hnext : Step inWc .noWait (inWc.next callOfWc [] true) := Step.noWait rfl rfl
  exact ⟨_, _, run_wc.step hnext, rfl, rfl, prompt_descriptors (by decide) (run_wc.step hnext) rfl⟩

end Myshell

end EC440.Shell
