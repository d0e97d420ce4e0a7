/-
  The wait queue of a mutex in ec440threads.h: a linked list with a pointer to its last node. Nodes
  are allocated by insert_tail and freed by get_head; `none` is an access to a node that is not
  allocated. The addresses that malloc returns are inputs, so that freed ones may come back.

  On nodes that are linked from `list` to `tail`, insert_tail adds to the end of the list of ids and
  get_head takes from its front (`Holds`). The list is what the model of the mutex works on.
-/
import EC440.Lib.Run
import EC440.Lib.Chain
import EC440.Threads.Scheduler

namespace EC440.Threads

open EC440.Lib

/-- `linked_list` -/
structure Node where
  tid : Tid
  next : Option Nat
  deriving DecidableEq, Repr

/-- The heap, and the fields `wait_list` and `wait_list_tail` of the mutex. -/
structure WaitQueue where
  heap : Nat → Option Node
  list : Option Nat
  tail : Option Nat

namespace WaitQueue

/-- insert_tail; `toIns` is the address malloc returns. -/
def insertTail (toIns : Nat) (tid : Tid) (s : WaitQueue) : Option WaitQueue :=
  let heap := Function.update s.heap toIns (some ⟨tid, none⟩)
  match s.list with
  | none => some { heap := heap, list := some toIns, tail := some toIns }
  | some _ =>
      -- `list` is set to point to the next field of the last node, and written through
      s.tail.bind fun last => (heap last).map fun node =>
        { s with heap := Function.update heap last (some { node with next := some toIns }), tail := some toIns }

/-- get_head; the id taken, and what is left. -/
def getHead (s : WaitQueue) : Option (Tid × WaitQueue) :=
  s.list.bind fun toDel => (s.heap toDel).map fun node =>
    (node.tid,
      { heap := Function.update s.heap toDel none
        list := node.next
        tail := if node.next = none then none else s.tail })

/-- is_empty -/
def isEmpty (s : WaitQueue) : Bool := s.list.isNone

inductive Input
  | insertTail (toIns : Nat) (tid : Tid)
  | getHead
  deriving DecidableEq, Repr

/-- The id that get_head stores. -/
inductive Ret
  | inserted
  | taken (tid : Tid)
  deriving DecidableEq, Repr

def step (s : WaitQueue) : Input → Option (Ret × WaitQueue)
  | .insertTail toIns tid => (s.insertTail toIns tid).map fun s => (.inserted, s)
  | .getHead => s.getHead.map fun p => (.taken p.1, p.2)

/-- malloc returns an address that is not in use; get_head is called on a list that is not empty. -/
def Callers (s : WaitQueue) : Input → Prop
  | .insertTail toIns _ => s.heap toIns = none
  | .getHead => s.isEmpty = false

/-- The ids inserted so far. -/
def inserted (es : List (Input × Ret)) : List Tid :=
  es.filterMap fun e => match e.1 with
    | .insertTail _ tid => some tid
    | .getHead => none

/-- The ids taken so far. -/
def taken (es : List (Input × Ret)) : List Tid :=
  es.filterMap fun e => match e.2 with
    | .inserted => none
    | .taken tid => some tid

/-! ## The list of ids -/

/-- The next field of an allocated node. -/
def next (heap : Nat → Option Node) (a : Nat) : Option Nat := (heap a).bind Node.next

/-- `nodes` are the nodes from `list` on, `ids` their ids, and `tail` is the last of them. -/
structure Holds (s : WaitQueue) (nodes : List Nat) (ids : List Tid) : Prop where
  linked : Linked (next s.heap) s.list nodes
  nodup : nodes.Nodup
  ids : nodes.map (fun a => (s.heap a).map Node.tid) = ids.map some
  tail : s.tail = nodes.getLast?

variable {s s' : WaitQueue} {nodes : List Nat} {ids : List Tid} {a : Nat} {t : Tid}

theorem Holds.allocated (h : Holds s nodes ids) (ha : a ∈ nodes) : ∃ node, s.heap a = some node := by
  have hmem : (s.heap a).map Node.tid ∈ ids.map some := by
    rw [← h.ids]
    exact List.mem_map_of_mem ha
  obtain ⟨t, -, ht⟩ := List.mem_map.mp hmem
  obtain ⟨node, hnode, -⟩ := Option.map_eq_some_iff.mp ht.symm
  exact ⟨node, hnode⟩

theorem Holds.list_none (h : Holds s nodes ids) : s.list = none ↔ nodes = [] := by
  have hlinked := h.linked
  cases hn : nodes with
  | nil =>
    rw [hn] at hlinked
    exact iff_of_true (seg_nil.mp hlinked) rfl
  | cons b l =>
    rw [hn] at hlinked
    rw [(seg_cons.mp hlinked).1]
    simp

theorem Holds.isEmpty (h : Holds s nodes ids) : s.isEmpty = true ↔ ids = [] := by
  have hlen : nodes.length = ids.length := by
    have hmap := congrArg List.length h.ids
    rwa [List.length_map, List.length_map] at hmap
  unfold WaitQueue.isEmpty
  rw [Option.isNone_iff_eq_none, h.list_none, ← List.length_eq_zero_iff, ← List.length_eq_zero_iff, hlen]

/-! ## insert_tail -/

theorem Holds.not_mem (h : Holds s nodes ids) (ha : s.heap a = none) : a ∉ nodes := by
  intro hmem
  obtain ⟨node, hnode⟩ := h.allocated hmem
  rw [ha] at hnode
  cases hnode

theorem Holds.insertTail_empty (h : Holds s [] ids) (a : Nat) (t : Tid) :
    ∃ s', s.insertTail a t = some s' ∧ Holds s' [a] (ids ++ [t]) := by
  have hlist : s.list = none := seg_nil.mp h.linked
  have hids : ids = [] := List.map_eq_nil_iff.mp h.ids.symm
  refine ⟨⟨Function.update s.heap a (some ⟨t, none⟩), some a, some a⟩, ?_, ?_⟩
  · unfold WaitQueue.insertTail
    rw [hlist]
  · rw [hids]
    refine ⟨seg_cons.mpr ⟨rfl, ?_⟩, List.nodup_singleton a, ?_, rfl⟩
    · unfold next
      dsimp only
      rw [seg_nil, Function.update_self]
      rfl
    · simp [Function.update_self]

/-- The heap after the new node `a` is linked behind the node at `last`. -/
def appended (heap : Nat → Option Node) (last : Nat) (node : Node) (a : Nat) (t : Tid) : Nat → Option Node :=
  Function.update (Function.update heap a (some ⟨t, none⟩)) last (some { node with next := some a })

theorem next_appended {heap : Nat → Option Node} {last : Nat} {node : Node} (hne : last ≠ a) :
    next (appended heap last node a t) = Function.update (Function.update (next heap) last (some a)) a none := by
  funext x
  unfold next appended
  by_cases hx : x = a
  · rw [hx, Function.update_of_ne (Ne.symm hne), Function.update_self, Function.update_self]
    rfl
  · rw [Function.update_of_ne hx]
    by_cases hl : x = last
    · rw [hl, Function.update_self, Function.update_self]
      rfl
    · rw [Function.update_of_ne hl, Function.update_of_ne hl, Function.update_of_ne hx]

/-- The ids of the nodes before it are as they were. -/
theorem appended_tid {heap : Nat → Option Node} {last x : Nat} {node : Node} (hlast : heap last = some node)
    (hx : x ≠ a) : (appended heap last node a t x).map Node.tid = (heap x).map Node.tid := by
  unfold appended
  by_cases hl : x = last
  · rw [hl, Function.update_self, hlast]
    rfl
  · rw [Function.update_of_ne hl, Function.update_of_ne hx]

theorem Holds.insertTail_snoc {l : List Nat} {last : Nat} (h : Holds s (l ++ [last]) ids) (ha : s.heap a = none)
    (t : Tid) : ∃ s', s.insertTail a t = some s' ∧ Holds s' (l ++ [last] ++ [a]) (ids ++ [t]) := by
  have hnot := h.not_mem ha
  have hmem : last ∈ l ++ [last] := List.mem_append_right l (List.mem_singleton_self last)
  have hne : last ≠ a := fun he => hnot (he ▸ hmem)
  obtain ⟨node, hnode⟩ := h.allocated hmem
  have htail : s.tail = some last := by
    rw [h.tail, List.getLast?_append]
    rfl
  have hnil : s.list ≠ none := fun hn => absurd (h.list_none.mp hn) (by simp)
  obtain ⟨b, hlist⟩ := Option.ne_none_iff_exists'.mp hnil
  refine ⟨{ s with heap := appended s.heap last node a t, tail := some a }, ?_, ?_⟩
  · unfold WaitQueue.insertTail
    rw [hlist, htail]
    dsimp only
    rw [Option.bind_some, Function.update_of_ne hne, hnode]
    rfl
  · refine ⟨?_, ?_, ?_, ?_⟩
    · dsimp only
      rw [next_appended hne]
      exact Linked.snoc h.linked h.nodup hnot
    · exact List.nodup_append.mpr ⟨h.nodup, List.nodup_singleton a, fun x hx y hy hxy => by
        rw [List.mem_singleton.mp hy] at hxy
        exact hnot (hxy ▸ hx)⟩
    · rw [List.map_append, @List.map_append _ _ some ids, ← h.ids]
      refine congrArg₂ _ (List.map_congr_left fun x hx => ?_) ?_
      · exact appended_tid hnode fun hxa => hnot (hxa ▸ hx)
      · unfold appended
        dsimp only
        rw [List.map_singleton, Function.update_of_ne (Ne.symm hne), Function.update_self]
        rfl
    · rw [List.getLast?_append]
      rfl

/-- insert_tail adds to the end. -/
theorem Holds.insertTail (h : Holds s nodes ids) (ha : s.heap a = none) (t : Tid) :
    ∃ s', s.insertTail a t = some s' ∧ Holds s' (nodes ++ [a]) (ids ++ [t]) := by
  rcases List.eq_nil_or_concat nodes with hnil | ⟨l, last, hsnoc⟩
  · rw [hnil] at h ⊢
    exact h.insertTail_empty a t
  · rw [List.concat_eq_append] at hsnoc
    rw [hsnoc] at h ⊢
    exact h.insertTail_snoc ha t

/-! ## get_head -/

/-- get_head takes from the front. -/
theorem Holds.getHead {b : Nat} {l : List Nat} {rest : List Tid} (h : Holds s (b :: l) (t :: rest)) :
    ∃ s', s.getHead = some (t, s') ∧ Holds s' l rest := by
  obtain ⟨hlist, hlinked⟩ := seg_cons.mp h.linked
  obtain ⟨hnot, hnodup⟩ := List.nodup_cons.mp h.nodup
  obtain ⟨hhead, hids⟩ := List.cons.inj h.ids
  obtain ⟨node, hnode, htid⟩ := Option.map_eq_some_iff.mp hhead
  have hnext : next s.heap b = node.next := by
    unfold next
    rw [hnode]
    rfl
  rw [hnext] at hlinked
  have hkept : ∀ x ∈ l, Function.update s.heap b none x = s.heap x := by
    intro x hx
    apply Function.update_of_ne
    intro hxb
    exact hnot (hxb ▸ hx)
  refine ⟨⟨Function.update s.heap b none, node.next, if node.next = none then none else s.tail⟩, ?_, ?_⟩
  · unfold WaitQueue.getHead
    rw [hlist, Option.bind_some, hnode, Option.map_some, htid]
  · refine ⟨Linked.congr hlinked fun x hx => ?_, hnodup, ?_, ?_⟩
    · unfold next
      dsimp only
      rw [hkept x hx]
    · rw [← hids]
      exact List.map_congr_left fun x hx => congrArg _ (hkept x hx)
    · dsimp only
      cases l with
      | nil =>
        have hnone : node.next = none := seg_nil.mp hlinked
        rw [if_pos hnone]
        rfl
      | cons c l =>
        have hsome : node.next = some c := (seg_cons.mp hlinked).1
        rw [if_neg (by rw [hsome]; simp), h.tail, List.getLast?_cons_cons]

/-! ## Runs -/

/-- No list. -/
def empty (heap : Nat → Option Node) : WaitQueue := ⟨heap, none, none⟩

theorem inserted_snoc (es : List (Input × Ret)) (e : Input × Ret) :
    inserted (es ++ [e]) = inserted es ++ match e.1 with
      | .insertTail _ tid => [tid]
      | .getHead => [] := by
  unfold inserted
  rw [List.filterMap_append]
  obtain ⟨i, r⟩ := e
  cases i with
  | insertTail a tid => rfl
  | getHead => rfl

theorem taken_snoc (es : List (Input × Ret)) (e : Input × Ret) :
    taken (es ++ [e]) = taken es ++ match e.2 with
      | .inserted => []
      | .taken tid => [tid] := by
  unfold taken
  rw [List.filterMap_append]
  obtain ⟨i, r⟩ := e
  cases r with
  | inserted => rfl
  | taken tid => rfl

/-- The nodes hold the ids that have been inserted and not taken, in the order of insertion. -/
def Queued (es : List (Input × Ret)) (s : WaitQueue) : Prop :=
  ∃ nodes ids, Holds s nodes ids ∧ inserted es = taken es ++ ids

theorem Holds.nonempty (h : Holds s nodes ids) (hne : s.isEmpty = false) :
    ∃ b l t rest, nodes = b :: l ∧ ids = t :: rest := by
  have hids := h.ids
  cases nodes with
  | nil =>
    have hempty := h.isEmpty.mpr (List.map_eq_nil_iff.mp hids.symm)
    rw [hne] at hempty
    cases hempty
  | cons b l =>
    cases ids with
    | nil => cases hids
    | cons t rest => exact ⟨b, l, t, rest, rfl, rfl⟩

/-- Every call is defined, and keeps the order. -/
theorem Queued.step {es : List (Input × Ret)} {i : Input} (h : Queued es s) (hi : Callers s i) :
    ∃ r s', s.step i = some (r, s') ∧ Queued (es ++ [(i, r)]) s' := by
  obtain ⟨nodes, ids, hholds, horder⟩ := h
  cases i with
  | insertTail a t =>
    obtain ⟨s', hs', hholds'⟩ := hholds.insertTail hi t
    refine ⟨.inserted, s', ?_, nodes ++ [a], ids ++ [t], hholds', ?_⟩
    · rw [WaitQueue.step, hs']
      rfl
    · rw [inserted_snoc, taken_snoc, horder, List.append_nil, List.append_assoc]
  | getHead =>
    obtain ⟨b, l, t, rest, rfl, rfl⟩ := hholds.nonempty hi
    obtain ⟨s', hs', hholds'⟩ := hholds.getHead
    refine ⟨.taken t, s', ?_, l, rest, hholds', ?_⟩
    · rw [WaitQueue.step, hs']
      rfl
    · rw [inserted_snoc, taken_snoc, horder, List.append_nil, List.append_assoc]
      rfl

theorem run_queued {es : List (Input × Ret)} {heap : Nat → Option Node}
    (hrun : Run (Guarded step Callers) (empty heap) es s) : Queued es s := by
  refine hrun.invariant_trace (I := Queued) ⟨[], [], ⟨seg_nil.mpr rfl, List.nodup_nil, rfl, rfl⟩, rfl⟩ ?_
  intro es s e s' hs hstep
  obtain ⟨r, s'', hs'', hq⟩ := hs.step hstep.1
  have heq := hstep.2
  rw [hs'', Option.some.injEq, Prod.mk.injEq] at heq
  obtain ⟨hr, rfl⟩ := heq
  rw [hr] at hq
  exact hq

/-- The linked list is a first-in first-out queue in every run: the ids taken and those still in the
    nodes, put together, are the ids inserted; is_empty tells when all have been taken; `tail` is the
    last node, or NULL for an empty list; and no call touches a node that is not allocated. -/
theorem wait_queue {es : List (Input × Ret)} {heap : Nat → Option Node}
    (hrun : Run (Guarded step Callers) (empty heap) es s) :
    (∃ nodes ids, Linked (next s.heap) s.list nodes ∧ nodes.map (fun a => (s.heap a).map Node.tid) = ids.map some ∧
      inserted es = taken es ++ ids ∧ s.tail = nodes.getLast?) ∧
    (s.isEmpty = true ↔ taken es = inserted es) ∧ (s.tail = none ↔ s.list = none) ∧
      ∀ i, Callers s i → ∃ r s', s.step i = some (r, s') := by
  obtain ⟨nodes, ids, h, horder⟩ := run_queued hrun
  refine ⟨⟨nodes, ids, h.linked, h.ids, horder, h.tail⟩, ?_, ?_, fun i hi => ?_⟩
  · rw [h.isEmpty, horder, List.self_eq_append_right]
  · rw [h.tail, List.getLast?_eq_none_iff, h.list_none]
  · obtain ⟨r, s', hs', -⟩ := (run_queued hrun).step hi
    exact ⟨r, s', hs'⟩

instance (s : WaitQueue) : DecidablePred (Callers s)
  | .insertTail _ _ => inferInstanceAs (Decidable (_ = none))
  | .getHead => inferInstanceAs (Decidable (_ = false))

/-- Threads 3 and 5 wait, 3 is taken and its node is used again for 4. -/
theorem wait_queue_reused : ∃ es s, Run (Guarded step Callers) (empty fun _ => none) es s ∧
    inserted es = [3, 5, 4] ∧ taken es = [3, 5, 4] ∧ s.tail = none ∧ s.isEmpty = true := by
  have hexec : ((exec step (fun s i => decide (Callers s i)) (empty fun _ => none)
      [.insertTail 0 3, .insertTail 1 5, .getHead, .insertTail 0 4, .getHead, .getHead]).map fun q =>
        decide (inserted q.1 = [3, 5, 4] ∧ taken q.1 = [3, 5, 4] ∧ q.2.list = none)) = some true := by
    decide +kernel
  obtain ⟨⟨es, s⟩, he, hp⟩ := Option.map_eq_some_iff.mp hexec
  obtain ⟨hins, htaken, hlist⟩ := of_decide_eq_true hp
  have hrun : Run (Guarded step Callers) (empty fun _ => none) ([] ++ es) s :=
    exec_run (fun s i _ h => of_decide_eq_true h) .start he
  obtain ⟨-, hempty, htail, -⟩ := wait_queue hrun
  exact ⟨es, s, hrun, hins, htaken, htail.mpr hlist, hempty.mpr (htaken.trans hins.symm)⟩

end WaitQueue

end EC440.Threads
