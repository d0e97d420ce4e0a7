/-
  pipeline_build as a function of texts: the line is cut at its pipes, and each piece goes
  through `link`. The structs form a list along their next pointers, which grows at its end; the
  struct that pipeline_alloc has made is left out as soon as there is a command.

  This is for lines on which every piece has a command name and room for its arguments. A
  command without a name would be replaced by the next one.
-/
import Mathlib.Data.List.Perm.Subperm
import EC440.Lib.Chain
import EC440.Shell.Link

namespace EC440.Shell

open EC440.Lib

variable {h h' : Heap} {m : Mem} {p cline : Ptr} {text w : Str} {n b o i j k fuel : Nat}
  {structs : List PipelineCommand} {ids : List Nat} {ls : List Parsed}

def nextOf (structs : List PipelineCommand) (i : Nat) : Option Nat := (structs[i]?).bind (·.next)

/-- The structs at `ids`, from `i` on along their next pointers, lead to the commands `ls`. -/
structure Listed (h : Heap) (n b o : Nat) (structs : List PipelineCommand) (i : Nat) (ids : List Nat)
    (ls : List Parsed) : Prop where
  linked : Lib.Linked (nextOf structs) (some i) ids
  nodup : ids.Nodup
  commands : List.Forall₂ (fun i l => ∃ c, structs[i]? = some c ∧ Represents h n b o c l) ids ls

theorem Listed.within (hl : Listed h n b o structs i ids ls) (hw : Within h h' ⟨b, o⟩ k) :
    Listed h' n b o structs i ids ls := by
  refine ⟨hl.linked, hl.nodup, hl.commands.imp fun j l hj => ?_⟩
  obtain ⟨c, hc, hr⟩ := hj
  exact ⟨c, hc, hr.within hw⟩

theorem Listed.mono (hl : Listed h n b o structs i ids ls) {o' : Nat} (ho : o ≤ o') :
    Listed h n b o' structs i ids ls := by
  refine ⟨hl.linked, hl.nodup, hl.commands.imp fun j l hj => ?_⟩
  obtain ⟨c, hc, hr⟩ := hj
  exact ⟨c, hc, hr.mono le_rfl ho⟩

theorem Listed.lt (hl : Listed h n b o structs i ids ls) (hj : j ∈ ids) : j < structs.length := by
  have hcommands := hl.commands
  clear hl
  induction hcommands with
  | nil => cases hj
  | cons hc _ ih =>
    rcases List.mem_cons.mp hj with rfl | hj
    · obtain ⟨c, hc, -⟩ := hc
      exact (List.getElem?_eq_some_iff.mp hc).1
    · exact ih hj

theorem Listed.length_le (hl : Listed h n b o structs i ids ls) : ids.length ≤ structs.length := by
  have hsub : ids ⊆ List.range structs.length := fun j hj => List.mem_range.mpr (hl.lt hj)
  have hle := (hl.nodup.subperm hsub).length_le
  rwa [List.length_range] at hle

/-- The walk to the last struct. -/
theorem lastCommand_eq (hvalid : ∀ j ∈ ids, j < structs.length) :
    ∀ {i : Nat}, Lib.Linked (nextOf structs) (some i) ids → ids.length ≤ fuel →
      lastCommand structs fuel i = ids.getLast? := by
  induction ids generalizing fuel with
  | nil =>
    intro i hl _
    cases hl
  | cons j ids ih =>
    intro i hl hfuel
    obtain ⟨fuel, rfl⟩ : ∃ f, fuel = f + 1 := ⟨fuel - 1, by simp at hfuel; omega⟩
    rw [Lib.Linked, seg_cons, Option.some.injEq] at hl
    obtain ⟨rfl, hnext⟩ := hl
    have hlt := hvalid i List.mem_cons_self
    rw [lastCommand, List.getElem?_eq_getElem hlt, Option.bind_eq_bind, Option.bind_some]
    rw [nextOf, List.getElem?_eq_getElem hlt, Option.bind_some] at hnext
    cases hc : structs[i].next with
    | none =>
      rw [hc] at hnext
      cases ids with
      | nil => rfl
      | cons j ids => cases hnext
    | some next =>
      rw [hc] at hnext
      have hne := Lib.Linked.ne_nil hnext
      dsimp only
      rw [ih (fun j hj => hvalid j (List.mem_cons_of_mem i hj)) hnext (by simpa using hfuel)]
      rw [List.getLast?_cons_of_ne_nil hne]

theorem readCommands_eq (hc : List.Forall₂ (fun i l => ∃ c, structs[i]? = some c ∧ Represents h n b o c l) ids ls)
    (hfit : ∀ l ∈ ls, l.Fits) :
    ∀ {i fuel : Nat}, Lib.Linked (nextOf structs) (some i) ids → ids.length ≤ fuel →
      readCommands h structs fuel i = some (ls.map Parsed.command) := by
  induction hc with
  | nil =>
    intro i fuel hl _
    cases hl
  | @cons j l ids ls hj hrest ih =>
    intro i fuel hl hfuel
    obtain ⟨fuel, rfl⟩ : ∃ f, fuel = f + 1 := ⟨fuel - 1, by simp at hfuel; omega⟩
    rw [Lib.Linked, seg_cons, Option.some.injEq] at hl
    obtain ⟨rfl, hnext⟩ := hl
    obtain ⟨c, hc, hr⟩ := hj
    rw [nextOf, hc, Option.bind_some] at hnext
    rw [readCommands, hc, Option.bind_eq_bind, Option.bind_some, hr.read (hfit l List.mem_cons_self),
      Option.bind_eq_bind, Option.bind_some]
    cases hcn : c.next with
    | none =>
      rw [hcn] at hnext
      cases hrest with
      | nil => rfl
      | cons _ _ => cases hnext
    | some next =>
      rw [hcn] at hnext
      dsimp only
      rw [ih (fun l hl => hfit l (List.mem_cons_of_mem _ hl)) hnext (by simpa using hfuel)]
      rfl

theorem Listed.read (hl : Listed h n b o structs i ids ls) (hfit : ∀ l ∈ ls, l.Fits) :
    readCommands h structs structs.length i = some (ls.map Parsed.command) :=
  readCommands_eq hl.commands hfit hl.linked hl.length_le

/-! ## One command more -/

/-- The command has a name. -/
def Parsed.Named (l : Parsed) : Prop := ∃ v, l.args[0]? = some (some v)

/-- The structs are in place, whatever is allocated behind them. -/
theorem Listed.append (hl : Listed h n b o structs i ids ls) (more : List PipelineCommand) :
    Listed h n b o (structs ++ more) i ids ls := by
  refine ⟨hl.linked.congr fun j hj => ?_, hl.nodup, hl.commands.imp fun j l hj => ?_⟩
  · rw [nextOf, List.getElem?_append_left (hl.lt hj), nextOf]
  · obtain ⟨c, hc, hr⟩ := hj
    exact ⟨c, by rw [List.getElem?_append_left (List.getElem?_eq_some_iff.mp hc).1]; exact hc, hr⟩

/-- The struct `j` is linked behind the last one, `temp`. -/
theorem Listed.snoc {temp : Nat} {c c' : PipelineCommand} {l : Parsed}
    (hl : Listed h n b o structs i (ids ++ [temp]) ls) (hj : structs[j]? = some c) (hnext : c.next = none)
    (hr : Represents h n b o c l) (hnew : j ∉ ids ++ [temp]) (ht : structs[temp]? = some c') :
    Listed h n b o (structs.set temp { c' with next := some j }) i (ids ++ [temp] ++ [j]) (ls ++ [l]) := by
  have htj : temp ≠ j := by
    intro heq
    exact hnew (by simp [heq])
  obtain ⟨htlt, -⟩ := List.getElem?_eq_some_iff.mp ht
  have hset : ∀ k, k ≠ temp → (structs.set temp { c' with next := some j })[k]? = structs[k]? :=
    fun k hk => List.getElem?_set_ne (Ne.symm hk)
  refine ⟨(hl.linked.snoc hl.nodup hnew).congr fun k hk => ?_, ?_, List.rel_append (hl.commands.imp ?_) (.cons ?_ .nil)⟩
  · by_cases hkj : k = j
    · rw [hkj, Function.update_self, nextOf, hset j (Ne.symm htj), hj, Option.bind_some, hnext]
    · rw [Function.update_of_ne hkj]
      by_cases hkt : k = temp
      · rw [hkt, Function.update_self, nextOf, List.getElem?_set_self htlt]
        rfl
      · rw [Function.update_of_ne hkt, nextOf, hset k hkt, nextOf]
  · rw [List.nodup_append]
    refine ⟨hl.nodup, by simp, fun a ha b' hb' => ?_⟩
    rw [List.mem_singleton] at hb'
    intro heq
    exact hnew (by rw [← hb', ← heq]; exact ha)
  · intro k l hk
    obtain ⟨c₁, hc₁, hr₁⟩ := hk
    by_cases hkt : k = temp
    · rw [hkt, ht, Option.some.injEq] at hc₁
      rw [← hc₁] at hr₁
      refine ⟨{ c' with next := some j }, ?_, hr₁.length, hr₁.args, hr₁.inPath, hr₁.outPath⟩
      rw [hkt]
      exact List.getElem?_set_self htlt
    · exact ⟨c₁, by rw [hset k hkt]; exact hc₁, hr₁⟩
  · exact ⟨c, by rw [hset j (Ne.symm htj)]; exact hj, hr⟩

/-- What pipeline_alloc makes. -/
def Parsed.blank : Parsed := { inPath := none, outPath := none, args := [] }

instance (l : Parsed) : Decidable l.Named :=
  decidable_of_iff ((l.args[0]?).join.isSome = true) (by
    rw [Option.isSome_iff_exists, Parsed.Named]
    exact exists_congr fun v => Option.join_eq_some_iff)

/-- One command more: a list whose first command has no name is dropped. -/
def joined (ls : List Parsed) (l : Parsed) : List Parsed :=
  if ∃ first ∈ ls.head?, first.Named then ls ++ [l] else [l]

/-- The commands of a pipeline, by what has been parsed. -/
def chain (ls : List Parsed) : List Parsed := ls.foldl joined [Parsed.blank]

theorem Represents.alloc (h : Heap) (n b o : Nat) : Represents h n b o pipelineCommandAlloc Parsed.blank := by
  refine ⟨List.length_replicate, fun k => ?_, trivial, trivial⟩
  rw [pipelineCommandAlloc, replicate_join]
  exact points_none.mpr rfl

theorem Listed.ne_nil (hl : Listed h n b o structs i ids ls) : ls ≠ [] := by
  intro hnil
  have hids := hl.commands.length_eq
  rw [hnil, List.length_nil, List.length_eq_zero_iff] at hids
  exact Lib.Linked.ne_nil hl.linked hids

/-- A list of one struct. -/
theorem Listed.single {c : PipelineCommand} {l : Parsed} (hi : structs[i]? = some c) (hnext : c.next = none)
    (hr : Represents h n b o c l) : Listed h n b o structs i [i] [l] := by
  refine ⟨?_, List.nodup_singleton i, .cons ⟨c, hi, hr⟩ .nil⟩
  rw [Lib.Linked, seg_cons, seg_nil, nextOf, hi]
  exact ⟨rfl, hnext⟩

/-- The test that pipelines makes on the first struct. -/
theorem Listed.first (hl : Listed h n b o structs i ids ls) : ∃ first e, structs[i]? = some first ∧
    first.commandArgs[0]? = some e ∧ (e = none ↔ ¬ ∃ first ∈ ls.head?, first.Named) := by
  have hlinked := hl.linked
  cases hl.commands with
  | nil => cases hlinked
  | @cons j l ids ls hc _ =>
    rw [Lib.Linked, seg_cons, Option.some.injEq] at hlinked
    obtain ⟨first, hfirst, hrep⟩ := hc
    have hlt : 0 < first.commandArgs.length := by
      rw [hrep.length]
      decide
    refine ⟨first, first.commandArgs[0], hlinked.1 ▸ hfirst, List.getElem?_eq_getElem hlt, ?_⟩
    have h0 := hrep.args 0
    rw [List.getElem?_eq_getElem hlt, Option.join_some] at h0
    have hnamed : (∃ first ∈ (l :: ls).head?, first.Named) ↔ (l.args[0]?).join ≠ none := by
      simp only [List.head?_cons, Option.mem_def, Option.some.injEq, exists_eq_left', Option.ne_none_iff_exists',
        Option.join_eq_some_iff, Parsed.Named]
    rw [hnamed, not_not]
    rcases h0.cases with ⟨h1, h2⟩ | ⟨q, v, h1, h2, -⟩
    · rw [h1, h2]
      exact ⟨fun _ => rfl, fun _ => rfl⟩
    · rw [h1, h2]
      exact ⟨fun h => (by cases h), fun h => (by cases h)⟩

/-- One round of the loop. -/
theorem pipelines_join {pipe : Build} {l : Parsed} (hlist : Listed h 0 b o pipe.structs pipe.commands ids ls)
    (hb : p.block = b) (ho : o ≤ p.off) (hs : h.str p = some w)
    (hlen : redIn <:+: w ∨ redOut <:+: w → w.length < 2 ^ 31) (hl : link w = some l) :
    (pipelines p (h, pipe) = none ∧ Exceeds maxArgvLength l.args) ∨
      ∃ h' pipe' ids', pipelines p (h, pipe) = some (h', pipe') ∧ Within h h' p w.length ∧
        Listed h' 0 b (p.off + w.length + 1) pipe'.structs pipe'.commands ids' (joined ls l) ∧
        ∀ c ∈ pipe'.structs, (∃ c' ∈ pipe.structs, ∃ next, c = { c' with next := next }) ∨
          ∃ l' ∈ [Parsed.blank, l], Represents h' 0 b (p.off + w.length + 1) c l' := by
  rcases pCommandLink_cases (m := { heap := h, saved := pipe.saved }) hs hlen hl with
    ⟨hnone, hover⟩ | ⟨-, c, m', hlink, hnext, hw, hr⟩
  · refine .inl ⟨?_, hover⟩
    rw [pipelines, hnone]
    rfl
  have hr' : Represents m'.heap 0 b (p.off + w.length + 1) c l := hb ▸ hr.mono (Nat.zero_le _) le_rfl
  have hw' : Within h m'.heap ⟨b, o⟩ (p.off + w.length - o) := hw.mono hb ho (by dsimp only; omega)
  have hstructs : (pipe.structs ++ [c])[pipe.structs.length]? = some c := by simp
  have hlist' : Listed m'.heap 0 b (p.off + w.length + 1) pipe.structs pipe.commands ids ls :=
    (hlist.within hw').mono (by omega)
  have hmore := (hlist'.append [c]).append [pipelineCommandAlloc]
  have hold : ∀ c₁ ∈ pipe.structs ++ [c] ++ [pipelineCommandAlloc],
      (∃ c' ∈ pipe.structs, ∃ next, c₁ = { c' with next := next }) ∨
        ∃ l' ∈ [Parsed.blank, l], Represents m'.heap 0 b (p.off + w.length + 1) c₁ l' := by
    intro c₁ hc₁
    rw [List.mem_append, List.mem_append, List.mem_singleton, List.mem_singleton] at hc₁
    rcases hc₁ with (hc₁ | rfl) | rfl
    · exact .inl ⟨c₁, hc₁, c₁.next, rfl⟩
    · exact .inr ⟨l, by simp, hr'⟩
    · exact .inr ⟨Parsed.blank, by simp, .alloc _ _ _ _⟩
  obtain ⟨first, e, hfirst, he, hnamed⟩ := (hlist'.append [c]).first
  rw [joined]
  split
  · next hname =>
    obtain ⟨ids₀, temp, rfl⟩ : ∃ ids₀ temp, ids = ids₀ ++ [temp] :=
      ⟨_, _, (List.dropLast_append_getLast (Lib.Linked.ne_nil hlist.linked)).symm⟩
    have hlast := lastCommand_eq (fun j hj => hmore.lt hj) hmore.linked hmore.length_le
    rw [List.getLast?_append, List.getLast?_singleton, Option.some_or] at hlast
    have htemp := hmore.lt (List.mem_append_right ids₀ (List.mem_singleton_self temp))
    obtain ⟨c', ht⟩ : ∃ c', (pipe.structs ++ [c] ++ [pipelineCommandAlloc])[temp]? = some c' :=
      ⟨_, List.getElem?_eq_getElem htemp⟩
    refine .inr ⟨m'.heap, { pipe with saved := m'.saved, structs :=
      (pipe.structs ++ [c] ++ [pipelineCommandAlloc]).set temp { c' with next := some pipe.structs.length } },
      ids₀ ++ [temp] ++ [pipe.structs.length], ?_, hw, ?_, fun c₁ hc₁ => ?_⟩
    · have hne : e ≠ none := fun h => hnamed.mp h hname
      simp only [pipelines, hlink, hfirst, he, hlast, ht, hne, Option.bind_eq_bind, Option.bind_some, if_false]
      rfl
    · refine hmore.snoc ?_ hnext hr' (fun hj => ?_) ht
      · rw [List.getElem?_append_left (by simp), hstructs]
      · exact absurd (hlist.lt hj) (lt_irrefl _)
    · rcases List.mem_or_eq_of_mem_set hc₁ with hc₁ | rfl
      · exact hold c₁ hc₁
      · rcases hold c' (List.mem_of_getElem? ht) with ⟨c₀, hc₀, next, rfl⟩ | ⟨l', hl', hr₀⟩
        · exact .inl ⟨c₀, hc₀, _, rfl⟩
        · exact .inr ⟨l', hl', hr₀.length, hr₀.args, hr₀.inPath, hr₀.outPath⟩
  · next hname =>
    refine .inr ⟨m'.heap, { saved := m'.saved, structs := pipe.structs ++ [c], commands := pipe.structs.length },
      [pipe.structs.length], ?_, hw, .single hstructs hnext hr', fun c₁ hc₁ => hold c₁ (List.mem_append_left _ hc₁)⟩
    simp only [pipelines, hlink, hfirst, he, hnamed.mpr hname, Option.bind_eq_bind, Option.bind_some, if_true]
    rfl

/-- Between two rounds of the loop of pipeline_build. -/
def Building (b o : Nat) (done : List Str) (h : Heap) (pipe : Build) : Prop :=
  (done = [] ∧ pipe.structs = [pipelineCommandAlloc] ∧ pipe.commands = 0) ∨
    ∃ ids ls, done.map link = ls.map some ∧ (∀ l ∈ ls, l.Named) ∧
      Listed h 0 b o pipe.structs pipe.commands ids ls

theorem Building.within {done : List Str} {pipe : Build} (hb : Building b o done h pipe)
    (hw : Within h h' ⟨b, o⟩ k) : Building b o done h' pipe := by
  rcases hb with hb | ⟨ids, ls, hls, hname, hl⟩
  · exact .inl hb
  · exact .inr ⟨ids, ls, hls, hname, hl.within hw⟩

theorem pipelines_spec {done : List Str} {pipe : Build} {l : Parsed} (hd : Building b o done h pipe)
    (hb : p.block = b) (ho : o ≤ p.off) (hs : h.str p = some w) (hlen : w.length < 2 ^ 31)
    (hl : link w = some l) (hfit : l.Fits) (hname : l.Named) :
    ∃ h' pipe', pipelines p (h, pipe) = some (h', pipe') ∧ Within h h' p w.length ∧
      Building b (p.off + w.length + 1) (done ++ [w]) h' pipe' := by
  have hover := hfit.not_exceeds (lt_of_le_of_lt (link_length hl) hlen)
  -- the struct of pipeline_alloc has no name, every other has one
  obtain ⟨ids, ls, ls₀, hls, hnames, hlist, hjoin⟩ : ∃ ids ls ls₀, done.map link = ls.map some ∧ (∀ l ∈ ls, l.Named) ∧
      Listed h 0 b o pipe.structs pipe.commands ids ls₀ ∧ joined ls₀ l = ls ++ [l] := by
    rcases hd with ⟨rfl, hstr, hcom⟩ | ⟨ids, ls, hls, hnames, hlist⟩
    · refine ⟨[0], [], [Parsed.blank], rfl, fun l hl => (by cases hl), ?_, rfl⟩
      rw [hstr, hcom]
      exact .single rfl rfl (.alloc h 0 b o)
    · refine ⟨ids, ls, ls, hls, hnames, hlist, if_pos ?_⟩
      obtain ⟨first, rest, hcons⟩ := List.exists_cons_of_ne_nil hlist.ne_nil
      exact ⟨first, by rw [hcons]; rfl, hnames first (by rw [hcons]; exact List.mem_cons_self)⟩
  rcases pipelines_join hlist hb ho hs (fun _ => hlen) hl with ⟨-, hno⟩ | ⟨h', pipe', ids', hp, hw, hlist', -⟩
  · exact absurd hno hover
  refine ⟨h', pipe', hp, hw, .inr ⟨ids', ls ++ [l], ?_, ?_, hjoin ▸ hlist'⟩⟩
  · rw [List.map_append, List.map_append, hls, List.map_singleton, hl, List.map_singleton]
  · intro l' hl'
    rcases List.mem_append.mp hl' with hl' | hl'
    · exact hnames l' hl'
    · rw [List.mem_singleton.mp hl']
      exact hname

/-- The loop of pipeline_build. -/
theorem pipelines_loop (pipe : Build) (hs : h.str cline = some text) (hlen : text.length < 2 ^ 31)
    (hls : (toks pipeChar text).map link = ls.map some) (hfit : ∀ l ∈ ls, l.Fits) (hname : ∀ l ∈ ls, l.Named)
    (hinit : pipe.structs = [pipelineCommandAlloc] ∧ pipe.commands = 0) (hne : ls ≠ []) :
    ∃ h' pipe', tokens pipeChar pipelines cline (h, pipe) = some (h', pipe') ∧
      readCommands h' pipe'.structs pipe'.structs.length pipe'.commands = some (ls.map Parsed.command) := by
  have hbody : ∀ o done v rest p h x, toks pipeChar text = done ++ v :: rest →
      Building cline.block o done h x → p.block = cline.block → o ≤ p.off → h.str p = some v →
      (pipelines p (h, x) = none ∧ False) ∨ ∃ h' x', pipelines p (h, x) = some (h', x') ∧ Within h h' p v.length ∧
        Building cline.block (p.off + v.length + 1) (done ++ [v]) h' x' := by
    intro o done v rest p h x hall hx hb ho hv
    obtain ⟨l, hl, hlv⟩ : ∃ l ∈ ls, link v = some l := by
      have hmem : link v ∈ ls.map some := by
        rw [← hls, hall]
        simp
      obtain ⟨l, hl, hlv⟩ := List.mem_map.mp hmem
      exact ⟨l, hl, hlv.symm⟩
    have hvlen : v.length ≤ text.length := by
      have hmem : v ∈ toks pipeChar text := by
        rw [hall]
        simp
      exact (mem_toks hmem).2.1.length_le
    exact .inr (pipelines_spec hx hb ho hv (lt_of_le_of_lt hvlen hlen) hlv (hfit l hl) (hname l hl))
  obtain ⟨-, hno⟩ | ⟨h', pipe', o, hloop, hd, -, -⟩ := tokens_cases (fun _ _ _ _ _ _ hx hw => hx.within hw) hbody
    rfl rfl hs (.inl ⟨rfl, hinit⟩)
  · cases hno
  refine ⟨h', pipe', hloop, ?_⟩
  rcases hd with ⟨hnil, -⟩ | ⟨ids, ls', hls', -, hl⟩
  · rw [hnil] at hls
    exact absurd (List.map_eq_nil_iff.mp hls.symm) hne
  · have heq : ls' = ls := by
      rw [hls] at hls'
      exact (List.map_injective_iff.mpr (fun _ _ => Option.some.inj) hls').symm
    rw [heq] at hl
    exact hl.read hfit

/-- pipeline_build as its loop: the copy that is cut at the ampersand is in a block of its own. -/
theorem pipelineBuild_run {commandLine : Ptr} (hs : m.heap.str commandLine = some text) :
    ∃ m₁ : Mem, m₁.heap.str m.heap.top = some text ∧ pipelineBuild commandLine m =
      (tokens pipeChar pipelines m.heap.top
        (m₁.heap, { saved := m₁.saved, structs := [pipelineCommandAlloc], commands := 0 })).map fun r =>
        { structs := r.2.structs, commands := r.2.commands, isBackground := decide (ampersand <:+: text), heap := r.1 } := by
  have hdup : m.heap.strdup commandLine = some (m.heap.push (text.map some ++ [some 0])) := by
    rw [Heap.strdup, hs, Option.map_some]
  have hcline := push_str m.heap (str_not_zero hs) []
  have hfind := findChars_eq hcline ampersand
  generalize hh₁ : (m.heap.push (text.map some ++ [some 0])).2 = h₁ at hcline hfind
  obtain ⟨m₁, hm₁, hs₁⟩ : ∃ m₁ : Mem, (if decide (ampersand <:+: text) = true then
      cutBackground m.heap.top { m with heap := h₁ } else some { m with heap := h₁ }) = some m₁ ∧
      m₁.heap.str m.heap.top = some text := by
    split
    · obtain ⟨t, m₁, ht, hc⟩ := strtok_cursor (m := { m with heap := (h₁.push (text.map some ++ [some 0])).2 })
        (t := some h₁.top) (push_within _ _ _ _) rfl le_rfl (push_str h₁ (str_not_zero hs) []) ampersand
      refine ⟨m₁, ?_, hc.within.keep hcline⟩
      have hdup₁ : h₁.strdup m.heap.top = some (h₁.push (text.map some ++ [some 0])) := by
        rw [Heap.strdup, hcline, Option.map_some]
      have hline : (h₁.push (text.map some ++ [some 0])).1 = h₁.top := rfl
      simp only [cutBackground, hdup₁, hline, ht, Option.bind_eq_bind, Option.bind_some]
      rfl
    · exact ⟨_, rfl, hcline⟩
  have hpush : m.heap.push (text.map some ++ [some 0]) = (m.heap.top, h₁) := by
    rw [← hh₁]
    rfl
  have hend : ∀ r : Option (Heap × Build), (r.bind fun r => some (⟨r.2.structs, r.2.commands,
      decide (ampersand <:+: text), r.1⟩ : Built)) = r.map fun r => ⟨r.2.structs, r.2.commands,
      decide (ampersand <:+: text), r.1⟩ := fun r => (Option.map_eq_bind).symm
  refine ⟨m₁, hs₁, ?_⟩
  rw [pipelineBuild, hdup, hpush, ← hend]
  simp only [Option.bind_eq_bind, Option.bind_some, hfind]
  split at hm₁
  · next hb =>
    rw [if_pos hb, hm₁]
    rfl
  · next hb =>
    rw [if_neg hb, ← Option.some.inj hm₁]
    rfl

/-- What pipeline_build makes of a line. -/
theorem pipelineBuild_eq {commandLine : Ptr} (hs : m.heap.str commandLine = some text) (hlen : text.length < 2 ^ 31)
    (hls : (toks pipeChar text).map link = ls.map some) (hfit : ∀ l ∈ ls, l.Fits) (hname : ∀ l ∈ ls, l.Named)
    (hne : ls ≠ []) :
    ∃ r, pipelineBuild commandLine m = some r ∧ r.read =
      some { commands := ls.map Parsed.command, isBackground := decide (ampersand <:+: text) } := by
  obtain ⟨m₁, hs₁, hrun⟩ := pipelineBuild_run hs
  obtain ⟨h', pipe', hloop, hread⟩ := pipelines_loop
    { saved := m₁.saved, structs := [pipelineCommandAlloc], commands := 0 } hs₁ hlen hls hfit hname ⟨rfl, rfl⟩ hne
  refine ⟨⟨pipe'.structs, pipe'.commands, decide (ampersand <:+: text), h'⟩, ?_, ?_⟩
  · rw [hrun, hloop, Option.map_some]
  · rw [Built.read, hread, Option.map_some]

end EC440.Shell
