/-
  p_command_link as a function of texts. `link` is what it makes of a line: the two paths, with
  what the erasures leave of the line between and after them, and one entry of command_args for
  each piece between blanks. An entry is the last part of its piece between special characters,
  or stays NULL when there is none.

  `pCommandLink_cases` connects the two levels. The pointers of the command lead to these texts,
  and of the memory only the line itself has changed.
-/
import EC440.Shell.Erase

namespace EC440.Shell

open EC440.Lib

variable {h h' : Heap} {m : Mem} {p q cline : Ptr} {text w red : Str} {b o pos n k : Nat} {args : List (Option Ptr)}

/-! ## Pointers and what they lead to -/

/-- `p` is NULL, or leads to the text `w`: before the offset `o` of block `b`, or in another block
    that is not older than `n`. -/
def Points (h : Heap) (n b o : Nat) : Option Ptr → Option Str → Prop
  | none, none => True
  | some p, some w => h.str p = some w ∧ ((p.block = b ∧ p.off + w.length < o) ∨ (n ≤ p.block ∧ p.block ≠ b))
  | _, _ => False

theorem points_none {w : Option Str} : Points h n b o none w ↔ w = none := by
  cases w <;> simp [Points]

theorem Points.cases {p : Option Ptr} {w : Option Str} (hp : Points h n b o p w) :
    (p = none ∧ w = none) ∨ ∃ q v, p = some q ∧ w = some v ∧ h.str q = some v ∧
      ((q.block = b ∧ q.off + v.length < o) ∨ (n ≤ q.block ∧ q.block ≠ b)) := by
  cases p with
  | none => exact .inl ⟨rfl, points_none.mp hp⟩
  | some q =>
    cases w with
    | none => exact absurd hp id
    | some v => exact .inr ⟨q, v, rfl, rfl, hp.1, hp.2⟩

theorem Points.within {p : Option Ptr} {w : Option Str} (hp : Points h n b o p w) (hw : Within h h' ⟨b, o⟩ k) :
    Points h' n b o p w := by
  rcases hp.cases with ⟨rfl, rfl⟩ | ⟨q, v, rfl, rfl, hs, hq⟩
  · exact hp
  · refine ⟨hw.str hs ?_, hq⟩
    rcases hq with ⟨-, hlt⟩ | ⟨-, hne⟩
    · exact .inr (.inl hlt)
    · exact .inl hne

theorem Points.mono {p : Option Ptr} {w : Option Str} {n' o' : Nat} (hp : Points h n b o p w) (hn : n' ≤ n)
    (ho : o ≤ o') : Points h n' b o' p w := by
  rcases hp.cases with ⟨rfl, rfl⟩ | ⟨q, v, rfl, rfl, hs, hq⟩
  · exact hp
  · exact ⟨hs, hq.imp (fun h => ⟨h.1, lt_of_lt_of_le h.2 ho⟩) fun h => ⟨hn.trans h.1, h.2⟩⟩

/-- Seen from an older block. -/
theorem Points.older {p : Option Ptr} {w : Option Str} {b' o' : Nat} (hp : Points h n b o p w) (hb : n ≤ b)
    (hb' : b' < n) : Points h n b' o' p w := by
  rcases hp.cases with ⟨rfl, rfl⟩ | ⟨q, v, rfl, rfl, hs, hq⟩
  · exact hp
  · exact ⟨hs, .inr (by omega)⟩

/-- Seen from a newer block; `b` itself is not pointed to. -/
theorem Points.newer {p : Option Ptr} {w : Option Str} {b' : Nat} (hp : Points h n b 0 p w)
    (hw : Within h h' q 0) (hb' : h.blocks.length ≤ b') : Points h' n b' 0 p w := by
  rcases hp.cases with ⟨rfl, rfl⟩ | ⟨q', v, rfl, rfl, hs, hq⟩
  · exact hp
  · have hlt := str_lt hs
    exact ⟨hw.keep hs, .inr (by omega)⟩

theorem Points.readPath {p : Option Ptr} {w : Option Str} (hp : Points h n b o p w) : readPath h p = some w := by
  rcases hp.cases with ⟨rfl, rfl⟩ | ⟨q, v, rfl, rfl, hs, -⟩
  · rfl
  · rw [Shell.readPath, hs, Option.map_some]

/-- The words before the first entry that is missing. -/
def leading (entries : List (Option Str)) : List Str := (entries.takeWhile Option.isSome).reduceOption

/-- An array that leads to these entries, with a place left for a NULL. -/
theorem readArgs_eq {entries : List (Option Str)} (hpos : 0 < args.length)
    (hp : ∀ k : Nat, Points h n b o (args[k]?).join (entries[k]?).join)
    (hfit : ∀ (k : Nat) (v : Str), entries[k]? = some (some v) → k + 1 < args.length) :
    readArgs h args = some (leading entries) := by
  induction entries generalizing args with
  | nil =>
    obtain ⟨a, args, rfl⟩ := List.exists_cons_of_ne_nil (List.length_pos_iff.mp hpos)
    have h0 := hp 0
    cases a with
    | none => rfl
    | some p => exact absurd h0 id
  | cons e entries ih =>
    obtain ⟨a, args, rfl⟩ := List.exists_cons_of_ne_nil (List.length_pos_iff.mp hpos)
    have h0 := hp 0
    simp only [List.getElem?_cons_zero, Option.join_some] at h0
    rcases h0.cases with ⟨rfl, rfl⟩ | ⟨q, v, rfl, rfl, hs, -⟩
    · rfl
    · have hlen := hfit 0 v rfl
      rw [List.length_cons] at hlen
      have hrest := ih (by omega) (fun k => hp (k + 1)) fun k u hk => by
        have := hfit (k + 1) u hk
        rw [List.length_cons] at this
        omega
      simp only [readArgs, hs, hrest, Option.bind_eq_bind, Option.bind_some]
      rfl

/-- What is read from such an array, when there is a NULL in it. -/
theorem readArgs_leading {entries : List (Option Str)} {ws : List Str}
    (hp : ∀ k : Nat, Points h n b o (args[k]?).join (entries[k]?).join) (hr : readArgs h args = some ws) :
    ws = leading entries ∧ ws.length < args.length := by
  induction args generalizing entries ws with
  | nil => cases hr
  | cons a args ih =>
    have h0 := hp 0
    rw [List.getElem?_cons_zero, Option.join_some] at h0
    rcases h0.cases with ⟨rfl, hnone⟩ | ⟨q, v, rfl, hv, hs, -⟩
    · cases hr
      refine ⟨?_, Nat.succ_pos _⟩
      cases entries with
      | nil => rfl
      | cons e entries =>
        rw [List.getElem?_cons_zero, Option.join_some] at hnone
        rw [hnone]
        rfl
    · obtain ⟨w, hw, hr⟩ := Option.bind_eq_some_iff.mp hr
      obtain ⟨ws', hws', hr⟩ := Option.bind_eq_some_iff.mp hr
      cases hr
      rw [hs, Option.some.injEq] at hw
      obtain ⟨entries, rfl⟩ : ∃ entries', entries = some v :: entries' := by
        cases entries with
        | nil => cases hv
        | cons e entries =>
          rw [List.getElem?_cons_zero, Option.join_some] at hv
          exact ⟨entries, by rw [hv]⟩
      obtain ⟨hlead, hlen⟩ := ih (fun k => hp (k + 1)) hws'
      refine ⟨?_, Nat.succ_lt_succ hlen⟩
      rw [hlead, ← hw]
      rfl

/-! ## The loops over the arguments -/

/-- What command_args gets from a piece between blanks. -/
def lastTok (w : Str) : Option Str := (toks specialChars w).getLast?

def argsOf (text : Str) : List (Option Str) := (toks whitespaceChars text).map lastTok

/-- Between two rounds of the inner loop: each token of the piece takes the entry. -/
def Entered (args : List (Option Ptr)) (pos n b o : Nat) (done : List Str) (h : Heap) (args' : List (Option Ptr)) :
    Prop :=
  (done.getLast? = none ∧ args' = args) ∨ ∃ p v, done.getLast? = some v ∧ pos < args.length ∧
    args' = args.set pos (some p) ∧ Points h n b o (some p) (some v)

theorem Entered.within {done : List Str} {args' : List (Option Ptr)} (he : Entered args pos n b o done h args')
    (hw : Within h h' ⟨b, o⟩ k) : Entered args pos n b o done h' args' := by
  rcases he with he | ⟨p, v, hv, hpos, hx, hp⟩
  · exact .inl he
  · exact .inr ⟨p, v, hv, hpos, hx, hp.within hw⟩

theorem setArg_spec {done : List Str} {args' : List (Option Ptr)}
    (he : Entered args pos n b o done h args') (hb : p.block = b) (hs : h.str p = some w) :
    (setArg pos p (h, args') = none ∧ args.length ≤ pos) ∨
      setArg pos p (h, args') = some (h, args.set pos (some p)) ∧
        Entered args pos n b (p.off + w.length + 1) (done ++ [w]) h (args.set pos (some p)) := by
  have hset : args'.length = args.length ∧ args'.set pos (some p) = args.set pos (some p) := by
    rcases he with ⟨-, rfl⟩ | ⟨p', v', -, -, rfl, -⟩
    · exact ⟨rfl, rfl⟩
    · simp
  rw [setArg, hset.1, hset.2]
  rcases Nat.lt_or_ge pos args.length with hpos | hpos
  · exact .inr ⟨if_pos hpos, .inr ⟨p, w, by simp, hpos, rfl, hs, .inl ⟨hb, Nat.lt_succ_self _⟩⟩⟩
  · exact .inl ⟨if_neg (Nat.not_lt.mpr hpos), hpos⟩

/-- The inner loop. -/
theorem setArg_loop (args : List (Option Ptr)) (pos : Nat) (hs : h.str q = some w) :
    (tokens specialChars (setArg pos) q (h, args) = none ∧ lastTok w ≠ none ∧ args.length ≤ pos) ∨
      ∃ h' args', tokens specialChars (setArg pos) q (h, args) = some (h', args') ∧ Within h h' q w.length ∧
        Entered args pos n q.block (q.off + w.length + 1) (toks specialChars w) h' args' := by
  have hbody : ∀ o done v rest p h x, toks specialChars w = done ++ v :: rest →
      Entered args pos n q.block o done h x → p.block = q.block → o ≤ p.off → h.str p = some v →
      (setArg pos p (h, x) = none ∧ lastTok w ≠ none ∧ args.length ≤ pos) ∨
        ∃ h' x', setArg pos p (h, x) = some (h', x') ∧ Within h h' p v.length ∧
          Entered args pos n q.block (p.off + v.length + 1) (done ++ [v]) h' x' := by
    intro o done v rest p h x hall he hb _ hv
    rcases setArg_spec he hb hv with ⟨hnone, hge⟩ | ⟨hset, he'⟩
    · refine .inl ⟨hnone, ?_, hge⟩
      rw [lastTok, hall]
      simp
    · exact .inr ⟨h, _, hset, .refl h p _, he'⟩
  rcases tokens_cases (fun _ _ _ _ _ _ he hw => he.within hw) hbody rfl rfl hs (.inl ⟨rfl, rfl⟩) with
    hnone | ⟨h', args', o, hloop, he, ho, hw⟩
  · exact .inl hnone
  · refine .inr ⟨h', args', hloop, hw, ?_⟩
    rcases he with he | ⟨p, v, hv, hpos, hx, hp⟩
    · exact .inl he
    · exact .inr ⟨p, v, hv, hpos, hx, hp.mono le_rfl ho⟩

/-- Between two rounds of the outer loop. -/
structure Filled (args : List (Option Ptr)) (n b o : Nat) (done : List Str) (h : Heap)
    (x : List (Option Ptr) × Nat) : Prop where
  pos : x.2 = done.length
  length : x.1.length = args.length
  entry : ∀ k : Nat, Points h n b o (x.1[k]?).join ((done.map lastTok)[k]?).join

theorem linkArg_spec {done : List Str} {x : List (Option Ptr) × Nat} (hx : Filled args n b o done h x)
    (hb : p.block = b) (ho : o ≤ p.off) (hs : h.str p = some w) :
    (linkArg p (h, x) = none ∧ ((lastTok w ≠ none ∧ args.length ≤ done.length) ∨ 2 ^ 31 ≤ done.length + 1)) ∨
      done.length + 1 < 2 ^ 31 ∧ ∃ h' x', linkArg p (h, x) = some (h', x') ∧ Within h h' p w.length ∧
        Filled args n b (p.off + w.length + 1) (done ++ [w]) h' x' := by
  obtain ⟨args₀, pos⟩ := x
  have hpos' : pos = done.length := hx.pos
  have hlen : args₀.length = args.length := hx.length
  rcases setArg_loop args₀ pos hs with ⟨hnone, hne, hge⟩ | ⟨h', args', hloop, hw, he⟩
  · refine .inl ⟨?_, .inl ⟨hne, by omega⟩⟩
    rw [linkArg, hnone]
    rfl
  rcases Nat.lt_or_ge (done.length + 1) (2 ^ 31) with hint | hint
  swap
  · refine .inl ⟨?_, .inr hint⟩
    rw [linkArg, hloop, int_none (n := done.length + 1) (by rw [hpos']; rfl) hint]
    rfl
  have hint' : int ((pos : Int) + 1) = some ((done.length + 1 : Nat) : Int) :=
    int_eq (by rw [hpos']; rfl) hint
  have hold : ∀ k : Nat, Points h' n b (p.off + w.length + 1) (args₀[k]?).join ((done.map lastTok)[k]?).join := by
    intro k
    have hwithin : Within h h' ⟨b, o⟩ (p.off + w.length - o) := hw.mono hb ho (by dsimp only; omega)
    exact ((hx.entry k).within hwithin).mono le_rfl (by omega)
  have hmap : ∀ k : Nat, k ≠ done.length →
      ((done ++ [w]).map lastTok)[k]? = (done.map lastTok)[k]? := by
    intro k hk
    rw [List.map_append]
    rcases Nat.lt_or_ge k done.length with hlt | hge
    · rw [List.getElem?_append_left (by simpa using hlt)]
    · rw [List.getElem?_eq_none (by simp; omega), List.getElem?_eq_none (by simpa using hge)]
  refine .inr ⟨hint, h', (args', done.length + 1), ?_, hw, by simp, ?_, fun k => ?_⟩
  · exact Option.bind_eq_some_iff.mpr ⟨(h', args'), hloop, Option.bind_eq_some_iff.mpr ⟨_, hint', rfl⟩⟩
  · rcases he with ⟨-, rfl⟩ | ⟨p', v, -, -, rfl, -⟩
    · exact hlen
    · rw [List.length_set]
      exact hlen
  · have hnew : ((done ++ [w]).map lastTok)[done.length]? = some (lastTok w) := by simp
    rcases he with ⟨hnone, rfl⟩ | ⟨p', v, hv, hlt, rfl, hp'⟩
    · by_cases hk : k = done.length
      · have hend : (done.map lastTok)[done.length]? = none := by simp
        have h0 := hold k
        rw [hk, hend] at h0
        rw [hk, hnew, show lastTok w = none from hnone]
        exact h0
      · rw [hmap k hk]
        exact hold k
    · by_cases hk : k = done.length
      · rw [hk, hnew, show lastTok w = some v from hv, ← hpos', List.getElem?_set_self hlt]
        rw [hb] at hp'
        exact hp'
      · rw [hmap k hk, List.getElem?_set_ne (by rw [hpos']; exact Ne.symm hk)]
        exact hold k

/-- There is an entry behind the end of the array, or an int is too small for their number. -/
def Exceeds (size : Nat) (entries : List (Option Str)) : Prop :=
  (∃ (k : Nat) (v : Str), entries[k]? = some (some v) ∧ size ≤ k) ∨ 2 ^ 31 ≤ entries.length

theorem Filled.not_exceeds {x : List (Option Ptr) × Nat} (hx : Filled args n b o (toks whitespaceChars text) h x)
    (hlt : (toks whitespaceChars text).length < 2 ^ 31) : ¬ Exceeds args.length (argsOf text) := by
  intro hover
  rcases hover with ⟨k, v, hk, hge⟩ | hge
  · have hp := hx.entry k
    rw [show (toks whitespaceChars text).map lastTok = argsOf text from rfl, hk, Option.join_some,
      List.getElem?_eq_none (by rw [hx.length]; exact hge)] at hp
    exact hp
  · rw [argsOf, List.length_map] at hge
    omega

/-- The two loops over a line. -/
theorem linkArg_loop (hs : h.str cline = some text) (hargs : ∀ k : Nat, (args[k]?).join = none) :
    (tokens whitespaceChars linkArg cline (h, args, 0) = none ∧ Exceeds args.length (argsOf text)) ∨
      ¬ Exceeds args.length (argsOf text) ∧
        ∃ h' x, tokens whitespaceChars linkArg cline (h, args, 0) = some (h', x) ∧ Within h h' cline text.length ∧
          Filled args n cline.block (cline.off + text.length + 1) (toks whitespaceChars text) h' x := by
  have hbody : ∀ o done v rest p h x, toks whitespaceChars text = done ++ v :: rest →
      Filled args n cline.block o done h x ∧ done.length < 2 ^ 31 → p.block = cline.block → o ≤ p.off →
      h.str p = some v →
      (linkArg p (h, x) = none ∧ Exceeds args.length (argsOf text)) ∨
        ∃ h' x', linkArg p (h, x) = some (h', x') ∧ Within h h' p v.length ∧
          Filled args n cline.block (p.off + v.length + 1) (done ++ [v]) h' x' ∧ (done ++ [v]).length < 2 ^ 31 := by
    intro o done v rest p h x hall hx hb ho hv
    rcases linkArg_spec hx.1 hb ho hv with ⟨hnone, ⟨hne, hge⟩ | hge⟩ | ⟨hlt, h', x', hlink, hw, hx'⟩
    · obtain ⟨u, hu⟩ := Option.ne_none_iff_exists'.mp hne
      refine .inl ⟨hnone, .inl ⟨done.length, u, ?_, hge⟩⟩
      rw [argsOf, hall, List.map_append, List.getElem?_append_right (by simp)]
      simp [hu]
    · refine .inl ⟨hnone, .inr ?_⟩
      rw [argsOf, hall, List.length_map, List.length_append, List.length_cons]
      omega
    · exact .inr ⟨h', x', hlink, hw, hx', by rwa [List.length_append, List.length_singleton]⟩
  have hinit : Filled args n cline.block cline.off [] h (args, 0) := by
    refine ⟨rfl, rfl, fun k => ?_⟩
    dsimp only
    rw [hargs k]
    exact points_none.mpr rfl
  rcases tokens_cases (fun _ _ _ _ _ _ hx hw => ⟨⟨hx.1.pos, hx.1.length, fun k => (hx.1.entry k).within hw⟩, hx.2⟩)
    hbody rfl rfl hs ⟨hinit, by decide⟩ with hnone | ⟨h', x, o, hloop, ⟨hx, hlt⟩, ho, hw⟩
  · exact .inl hnone
  · exact .inr ⟨hx.not_exceeds hlt, h', x, hloop, hw, hx.pos, hx.length, fun k => (hx.entry k).mono le_rfl ho⟩

/-! ## p_command_link -/

/-- A redirect, and the line that is left. -/
def eraseRedirect (red text : Str) : Option (Option Str × Str) :=
  if red <:+: text then (pathOf red text).map fun path => (some path, replaceAll path [] text)
  else some (none, text)

structure Parsed where
  inPath : Option Str
  outPath : Option Str
  args : List (Option Str)
  deriving DecidableEq, Repr

def link (text : Str) : Option Parsed := do
  let (inPath, text) ← eraseRedirect redIn text
  let (outPath, text) ← eraseRedirect redOut text
  return { inPath := inPath, outPath := outPath, args := argsOf text }

theorem link_some {l : Parsed} (hl : link text = some l) : ∃ text₁ text₂, eraseRedirect redIn text = some (l.inPath, text₁) ∧
    eraseRedirect redOut text₁ = some (l.outPath, text₂) ∧ l.args = argsOf text₂ := by
  obtain ⟨⟨inPath, text₁⟩, h₁, hl⟩ := Option.bind_eq_some_iff.mp hl
  obtain ⟨⟨outPath, text₂⟩, h₂, hl⟩ := Option.bind_eq_some_iff.mp hl
  rw [Option.pure_def, Option.some.injEq] at hl
  rw [← hl]
  exact ⟨text₁, text₂, h₁, h₂, rfl⟩

theorem eraseRedirect_of_absent (hin : ¬ red <:+: text) : eraseRedirect red text = some (none, text) := by
  rw [eraseRedirect, if_neg hin]

theorem eraseRedirect_length {path : Option Str} {text' : Str} (he : eraseRedirect red text = some (path, text')) :
    text'.length ≤ text.length := by
  rw [eraseRedirect] at he
  split at he
  · obtain ⟨v, hv, he⟩ := Option.map_eq_some_iff.mp he
    rw [Prod.mk.injEq] at he
    rw [← he.2]
    exact replaceAll_length_le (pathOf_part hv).1 text
  · rw [Option.some.injEq, Prod.mk.injEq] at he
    rw [he.2]

/-- The erasures only shorten the line, and there is a blank between two pieces of it. -/
theorem link_two_length {l : Parsed} (hl : link text = some l) : 2 * l.args.length ≤ text.length + 1 := by
  obtain ⟨text₁, text₂, h₁, h₂, hargs⟩ := link_some hl
  have hlen := toks_two_length_le whitespaceChars text₂
  have hlen₁ := eraseRedirect_length h₁
  have hlen₂ := eraseRedirect_length h₂
  rw [hargs, argsOf, List.length_map]
  omega

theorem link_length {l : Parsed} (hl : link text = some l) : l.args.length ≤ text.length := by
  have hlen := link_two_length hl
  omega

theorem findChars_eq (hs : h.str cline = some text) (red : Str) : findChars h cline red = some (decide (red <:+: text)) := by
  rw [findChars, hs, Option.map_some, Option.some.injEq, Bool.eq_iff_iff, strstr_isSome, decide_eq_true_iff]

section
variable {field : Option Ptr → PipelineCommand → PipelineCommand} {c : PipelineCommand}

theorem linkRedirect_none (hs : m.heap.str cline = some text) (he : eraseRedirect red text = none) :
    linkRedirect red field cline c m = none := by
  rw [eraseRedirect] at he
  split at he
  · next hin =>
    rw [Option.map_eq_none_iff] at he
    rw [linkRedirect, findChars_eq hs, Option.bind_some, if_pos (decide_eq_true hin), redirect_none hs he]
    rfl
  · cases he

theorem linkRedirect_absent (hs : m.heap.str cline = some text) (hin : ¬ red <:+: text) :
    linkRedirect red field cline c m = some (cline, c, m) := by
  rw [linkRedirect, findChars_eq hs, Option.bind_some, if_neg (by simpa using hin)]

theorem linkRedirect_lt {r : Ptr × PipelineCommand × Mem} (hs : m.heap.str cline = some text) (hin : red <:+: text)
    (hr : linkRedirect red field cline c m = some r) : text.length < 2 ^ 31 := by
  rw [linkRedirect, findChars_eq hs, Option.bind_some, if_pos (decide_eq_true hin)] at hr
  obtain ⟨r', hr', -⟩ := Option.map_eq_some_iff.mp hr
  exact redirect_lt hs hr'

/-- The line goes on in place, or in a new block; so is the path. -/
theorem linkRedirect_some {path : Option Str} {text' : Str} (hfield : field none c = c)
    (hs : m.heap.str cline = some text) (hlen : red <:+: text → text.length < 2 ^ 31)
    (he : eraseRedirect red text = some (path, text')) :
    ∃ p cline' m', linkRedirect red field cline c m = some (cline', field p c, m') ∧
      m'.heap.str cline' = some text' ∧ Within m.heap m'.heap cline 0 ∧
      Points m'.heap m.heap.blocks.length cline'.block 0 p path ∧
      ((cline' = cline ∧ m' = m ∧ text' = text) ∨ m.heap.blocks.length ≤ cline'.block) := by
  rw [eraseRedirect] at he
  split at he
  · next hin =>
    obtain ⟨v, hv, he⟩ := Option.map_eq_some_iff.mp he
    rw [Prod.mk.injEq] at he
    obtain ⟨rfl, rfl⟩ := he
    obtain ⟨q, cline', m', hr, hq, hline, hqb, hcb, hne, hw⟩ := redirect_some hs hv (hlen hin)
    refine ⟨some q, cline', m', ?_, hline, ?_, ⟨hq, .inr ⟨hqb, hne⟩⟩, .inr hcb⟩
    · rw [linkRedirect, findChars_eq hs, Option.bind_some, if_pos (decide_eq_true hin), hr]
      rfl
    · exact ⟨hw.length, fun r hr _ => hw.load r hr (by omega)⟩
  · next hin =>
    rw [Option.some.injEq, Prod.mk.injEq] at he
    obtain ⟨rfl, rfl⟩ := he
    refine ⟨none, cline, m, ?_, hs, .refl _ _ _, points_none.mpr rfl, .inl ⟨rfl, rfl, rfl⟩⟩
    rw [linkRedirect_absent hs hin, hfield]

end

/-- The command leads to these texts. -/
structure Represents (h : Heap) (n b o : Nat) (c : PipelineCommand) (l : Parsed) : Prop where
  length : c.commandArgs.length = maxArgvLength
  args : ∀ k : Nat, Points h n b o (c.commandArgs[k]?).join (l.args[k]?).join
  inPath : Points h n b o c.redirectInPath l.inPath
  outPath : Points h n b o c.redirectOutPath l.outPath

theorem Represents.within {c : PipelineCommand} {l : Parsed} (hr : Represents h n b o c l)
    (hw : Within h h' ⟨b, o⟩ k) : Represents h' n b o c l :=
  ⟨hr.length, fun i => (hr.args i).within hw, hr.inPath.within hw, hr.outPath.within hw⟩

theorem Represents.mono {c : PipelineCommand} {l : Parsed} {n' o' : Nat} (hr : Represents h n b o c l)
    (hn : n' ≤ n) (ho : o ≤ o') : Represents h n' b o' c l :=
  ⟨hr.length, fun i => (hr.args i).mono hn ho, hr.inPath.mono hn ho, hr.outPath.mono hn ho⟩

/-- There is room for a NULL behind the arguments. -/
def Parsed.Fits (l : Parsed) : Prop :=
  ∀ (k : Nat) (v : Str), l.args[k]? = some (some v) → k + 1 < maxArgvLength

def Parsed.command (l : Parsed) : Command :=
  { args := leading l.args, redirectInPath := l.inPath, redirectOutPath := l.outPath }

theorem Represents.read {c : PipelineCommand} {l : Parsed} (hr : Represents h n b o c l) (hfit : l.Fits) :
    c.read h = some l.command := by
  have hargs := readArgs_eq (by rw [hr.length]; decide) hr.args fun k v hk => by
    rw [hr.length]
    exact hfit k v hk
  simp only [PipelineCommand.read, hargs, hr.inPath.readPath, hr.outPath.readPath, Option.bind_eq_bind,
    Option.bind_some]
  rfl

theorem Represents.read_eq {c : PipelineCommand} {l : Parsed} {command : Command} (hr : Represents h n b o c l)
    (hread : c.read h = some command) : command = l.command ∧ command.args.length < maxArgvLength := by
  obtain ⟨ws, hws, hread⟩ := Option.bind_eq_some_iff.mp hread
  rw [hr.inPath.readPath, hr.outPath.readPath, Option.bind_eq_bind, Option.bind_some, Option.bind_some,
    Option.pure_def, Option.some.injEq] at hread
  obtain ⟨hlead, hlen⟩ := readArgs_leading hr.args hws
  rw [hr.length] at hlen
  rw [← hread, Parsed.command, hlead]
  exact ⟨rfl, hlead ▸ hlen⟩

theorem pCommandLink_none (hs : m.heap.str cline = some text) (hlen : redIn <:+: text → text.length < 2 ^ 31)
    (hl : link text = none) :
    pCommandLink cline pipelineCommandAlloc m = none := by
  rw [link] at hl
  rw [pCommandLink]
  cases h₁ : eraseRedirect redIn text with
  | none =>
    rw [linkRedirect_none hs h₁]
    rfl
  | some r₁ =>
    obtain ⟨inPath, text₁⟩ := r₁
    obtain ⟨p₁, cline₁, m₁, hr₁, hs₁, -⟩ := linkRedirect_some (show setIn none pipelineCommandAlloc = _ from rfl) hs hlen h₁
    rw [hr₁, Option.bind_eq_bind, Option.bind_some]
    dsimp only
    cases h₂ : eraseRedirect redOut text₁ with
    | none =>
      rw [linkRedirect_none hs₁ h₂]
      rfl
    | some r₂ =>
      rw [h₁, Option.bind_eq_bind, Option.bind_some] at hl
      dsimp only at hl
      rw [h₂] at hl
      cases hl

/-- The length of the line has to be an int, when there is a redirect. -/
theorem pCommandLink_lt {r : PipelineCommand × Mem} (hs : m.heap.str cline = some text)
    (hr : pCommandLink cline pipelineCommandAlloc m = some r) (hred : redIn <:+: text ∨ redOut <:+: text) :
    text.length < 2 ^ 31 := by
  obtain ⟨⟨cline₁, c₁, m₁⟩, h₁, hr⟩ := Option.bind_eq_some_iff.mp hr
  by_cases hin : redIn <:+: text
  · exact linkRedirect_lt hs hin h₁
  · rw [linkRedirect_absent hs hin] at h₁
    cases h₁
    obtain ⟨r₂, h₂, -⟩ := Option.bind_eq_some_iff.mp hr
    exact linkRedirect_lt hs (hred.resolve_left hin) h₂

theorem replicate_join (k n : Nat) : ((List.replicate n (none : Option Ptr))[k]?).join = none := by
  rw [List.getElem?_replicate]
  split <;> rfl

theorem pCommandLink_cases {l : Parsed} (hs : m.heap.str cline = some text)
    (hlen : redIn <:+: text ∨ redOut <:+: text → text.length < 2 ^ 31) (hl : link text = some l) :
    (pCommandLink cline pipelineCommandAlloc m = none ∧ Exceeds maxArgvLength l.args) ∨
      ¬ Exceeds maxArgvLength l.args ∧ ∃ c m', pCommandLink cline pipelineCommandAlloc m = some (c, m') ∧
        c.next = none ∧ Within m.heap m'.heap cline text.length ∧
        Represents m'.heap m.heap.blocks.length cline.block (cline.off + text.length + 1) c l := by
  obtain ⟨text₁, text₂, h₁, h₂, hargs⟩ := link_some hl
  have hlen₁ := eraseRedirect_length h₁
  have hlen₂ := eraseRedirect_length h₂
  have hlt := str_lt hs
  have hlen₂' : redOut <:+: text₁ → text₁.length < 2 ^ 31 := by
    intro hout
    by_cases hin : redIn <:+: text
    · exact lt_of_le_of_lt hlen₁ (hlen (.inl hin))
    · rw [eraseRedirect_of_absent hin, Option.some.injEq, Prod.mk.injEq] at h₁
      rw [← h₁.2] at hout ⊢
      exact hlen (.inr hout)
  obtain ⟨p₁, cline₁, m₁, hr₁, hs₁, hw₁, hp₁, hc₁⟩ :=
    linkRedirect_some (show setIn none pipelineCommandAlloc = _ from rfl) hs (fun hin => hlen (.inl hin)) h₁
  obtain ⟨p₂, cline₂, m₂, hr₂, hs₂, hw₂, hp₂, hc₂⟩ :=
    linkRedirect_some (show setOut none (setIn p₁ pipelineCommandAlloc) = _ from rfl) hs₁ hlen₂' h₂
  -- the line that is split is the one that was given, or in a new block
  have hline : (cline₂ = cline ∧ m₂ = m ∧ text₂ = text) ∨ m.heap.blocks.length ≤ cline₂.block := by
    rcases hc₂ with ⟨hc₂, hm₂, ht₂⟩ | hnew
    · rw [hc₂, hm₂, ht₂]
      exact hc₁
    · exact .inr (hw₁.length.trans hnew)
  have hpath₁ : Points m₂.heap m.heap.blocks.length cline₂.block 0 p₁ l.inPath := by
    rcases hc₂ with ⟨hc₂, hm₂, -⟩ | hnew
    · rw [hc₂, hm₂]
      exact hp₁
    · exact hp₁.newer hw₂ hnew
  have hpath₂ := hp₂.mono (hw₁.length) le_rfl
  rcases linkArg_loop (n := m.heap.blocks.length) hs₂ (replicate_join · maxArgvLength) with
    ⟨hnone, hover⟩ | ⟨hroom, h₃, ⟨args₃, pos₃⟩, hloop, hw₃, hfill⟩
  · refine .inl ⟨?_, by rw [hargs]; rwa [List.length_replicate] at hover⟩
    rw [pCommandLink, hr₁, Option.bind_eq_bind, Option.bind_some]
    dsimp only
    rw [hr₂, Option.bind_some]
    exact Option.bind_eq_none_iff.mpr fun r hr => absurd (hnone.symm.trans hr) (by simp)
  have hw₀ : Within m₂.heap h₃ ⟨cline₂.block, 0⟩ (cline₂.off + text₂.length) :=
    hw₃.mono rfl (Nat.zero_le _) (by dsimp only; omega)
  -- seen from the block of the line that was given
  have hview : ∀ {p : Option Ptr} {w : Option Str} {o : Nat}, o ≤ cline₂.off + text₂.length + 1 →
      Points h₃ m.heap.blocks.length cline₂.block o p w →
      Points h₃ m.heap.blocks.length cline.block (cline.off + text.length + 1) p w := by
    intro p w o ho hp
    rcases hline with ⟨hc, -, ht⟩ | hnew
    · rw [hc, ht] at ho
      rw [hc] at hp
      exact hp.mono le_rfl ho
    · exact hp.older hnew hlt
  refine .inr ⟨by rw [hargs]; rwa [List.length_replicate] at hroom,
    { setOut p₂ (setIn p₁ pipelineCommandAlloc) with commandArgs := args₃ }, { m₂ with heap := h₃ }, ?_, rfl, ?_, ?_⟩
  · rw [pCommandLink, hr₁, Option.bind_eq_bind, Option.bind_some]
    dsimp only
    rw [hr₂, Option.bind_some]
    exact Option.bind_eq_some_iff.mpr ⟨(h₃, args₃, pos₃), hloop, rfl⟩
  · rcases hline with ⟨hc, hm, ht⟩ | hnew
    · rw [hc, hm, ht] at hw₃
      exact hw₃
    · have hw : Within m.heap m₂.heap cline text.length :=
        (hw₁.mono rfl le_rfl (by omega)).trans ⟨hw₂.length, fun r hr _ => hw₂.load r hr (by omega)⟩
          (.inr ⟨rfl, le_rfl, le_rfl⟩)
      exact hw.trans hw₃ (.inl hnew)
  · refine ⟨?_, fun k => hview le_rfl (by rw [hargs]; exact hfill.entry k), hview (Nat.zero_le _) (hpath₁.within hw₀),
      hview (Nat.zero_le _) (hpath₂.within hw₀)⟩
    rw [show args₃.length = _ from hfill.length, List.length_replicate]

theorem Parsed.Fits.not_exceeds {l : Parsed} (hfit : l.Fits) (hlen : l.args.length < 2 ^ 31) :
    ¬ Exceeds maxArgvLength l.args := by
  intro hover
  rcases hover with ⟨k, v, hk, hge⟩ | hge
  · have hlt := hfit k v hk
    omega
  · omega

end EC440.Shell
