import Mathlib
import TritonCpu.Worklist

/-!
# Sorting operations topologically

`multiRootTopologicalSort` starts a search at each operation of the set. The
search goes backwards to what an operation depends on, forwards to its users and
into its regions, and records the operations in the order in which they are seen.
-/

set_option autoImplicit false

namespace TritonCpu.TopologicalSort

open Worklist List

variable {Op : Type}

/-- The operations of a function with their operands, users and regions. -/
structure Graph (Op : Type) where
  /-- `getDefiningOp` of each operand. A block argument has none. -/
  operands : Op → List (Option Op)
  /-- `getParentOp` and its parents. -/
  parents : Op → List Op
  /-- The users of each result. -/
  users : Op → List Op
  /-- The operations in the regions, without those in nested regions. -/
  bodyOps : Op → List Op
  mem_users : ∀ op user, user ∈ users op ↔ some op ∈ operands user
  mem_bodyOps : ∀ op inner, inner ∈ bodyOps op ↔ (parents inner).head? = some op
  parents_tail : ∀ op parent rest, parents op = parent :: rest → parents parent = rest
  /-- No operation defines an operand of itself or encloses itself, through others. -/
  acyclic : ∀ op, ¬ Relation.TransGen
    (fun a b => some a ∈ operands b ∨ a ∈ parents b) op op

/-- `a` defines an operand of `b` or encloses it. -/
def Graph.Depends (g : Graph Op) (a b : Op) : Prop := some a ∈ g.operands b ∨ a ∈ g.parents b

variable [DecidableEq Op]

/-- A queue that has each operation once. -/
structure DFSSubgraphState (Op : Type) [DecidableEq Op] where
  set : Finset Op
  deque : List Op
  nodup : deque.Nodup
  mem_set : ∀ op, op ∈ set ↔ op ∈ deque

namespace DFSSubgraphState

def empty : DFSSubgraphState Op := ⟨∅, [], nodup_nil, by simp⟩

def push_back (s : DFSSubgraphState Op) (op : Op) : DFSSubgraphState Op :=
  if h : op ∈ s.set then s
  else
    ⟨insert op s.set, s.deque ++ [op],
      s.nodup.append (nodup_singleton op) (by simpa using mt (s.mem_set op).mpr h),
      by intro x; rw [Finset.mem_insert, mem_append, mem_singleton, s.mem_set, or_comm]⟩

def pop_front (s : DFSSubgraphState Op) : Option (Op × DFSSubgraphState Op) :=
  match hs : s.deque with
  | [] => none
  | op :: rest =>
    have hnodup : (op :: rest).Nodup := hs ▸ s.nodup
    some (op, ⟨s.set.erase op, rest, (nodup_cons.mp hnodup).2, by
      intro x
      rw [Finset.mem_erase, s.mem_set, hs, mem_cons]
      have hnot := (nodup_cons.mp hnodup).1
      constructor
      · rintro ⟨hne, hx⟩
        exact hx.resolve_left hne
      · intro hx
        exact ⟨fun heq => hnot (heq ▸ hx), Or.inr hx⟩⟩)

end DFSSubgraphState

section Code

variable (g : Graph Op)

/-- A loop of `addToReadyQueue`, over definitions or parents, with `ready`. -/
def pushUnseen (seen : Finset Op) : List Op → DFSSubgraphState Op × Bool →
    DFSSubgraphState Op × Bool
  | [], s => s
  | op :: ops, s =>
    if op ∈ seen then pushUnseen seen ops s else pushUnseen seen ops (s.1.push_back op, false)

/-- `addToReadyQueue`. The back of the ready queue is the head of the list. -/
def addToReadyQueue (seen : Finset Op) (op : Op) (s : DFSSubgraphState Op × List Op) :
    DFSSubgraphState Op × List Op :=
  let defs := pushUnseen seen ((g.operands op).filterMap id) (s.1, true)
  let (subGraph, ready) := pushUnseen seen (g.parents op) defs
  (subGraph, if ready then op :: s.2 else s.2)

def addAll (seen : Finset Op) : List Op → DFSSubgraphState Op × List Op →
    DFSSubgraphState Op × List Op
  | [], s => s
  | op :: ops, s => addAll seen ops (addToReadyQueue g seen op s)

/-- The variables of a search. -/
structure Search (Op : Type) [DecidableEq Op] where
  seen : Finset Op
  subGraph : DFSSubgraphState Op
  ops : List Op

/-- `while (!readyQueue.empty())`, for a number of turns. -/
def readyLoop : ℕ → Search Op → List Op → Option (Search Op)
  | _, s, [] => some s
  | 0, _, _ :: _ => none
  | fuel + 1, s, current :: readyQueue =>
    if current ∈ s.seen then readyLoop fuel s readyQueue
    else
      let seen := insert current s.seen
      let (subGraph, readyQueue) :=
        addAll g seen (g.users current ++ g.bodyOps current) (s.subGraph, readyQueue)
      readyLoop fuel ⟨seen, subGraph, s.ops ++ [current]⟩ readyQueue

/-- The body of the loop over `subGraph`, after `pop_front`. -/
def visit (fuel : ℕ) (s : Search Op) (current : Op) (subGraph : DFSSubgraphState Op) :
    Option (Search Op) :=
  let (subGraph, readyQueue) := addToReadyQueue g s.seen current (subGraph, [])
  readyLoop g fuel { s with subGraph := subGraph } readyQueue

/-- `while (!subGraph.empty())`, for a number of turns. -/
def subGraphLoop (fuel : ℕ) : ℕ → Search Op → Option (Search Op)
  | 0, s => if s.subGraph.deque = [] then some s else none
  | turns + 1, s =>
    match s.subGraph.pop_front with
    | none => some s
    | some (current, subGraph) => (visit g fuel s current subGraph).bind (subGraphLoop fuel turns)

/-- `DFSState`, without the set to sort. -/
structure DFSState (Op : Type) [DecidableEq Op] where
  topologicalCounts : List Op
  seen : Finset Op

variable (toSort : List Op)

def dfsPostorder (fuel : ℕ) (root : Op) (state : DFSState Op) : Option (DFSState Op) :=
  (subGraphLoop g fuel fuel ⟨state.seen, DFSSubgraphState.empty.push_back root, []⟩).map fun s =>
    ⟨state.topologicalCounts ++ s.ops.reverse.filter (· ∈ toSort), s.seen⟩

def dfsRoots (fuel : ℕ) : List Op → DFSState Op → Option (DFSState Op)
  | [], state => some state
  | root :: roots, state => (dfsPostorder g toSort fuel root state).bind (dfsRoots fuel roots)

/-- `SetVector::insert` -/
def insertOp (res : List Op) (op : Op) : List Op := if op ∈ res then res else res ++ [op]

def multiRootTopologicalSort (fuel : ℕ) : Option (List Op) :=
  if toSort = [] then some toSort
  else
    (dfsRoots g toSort fuel toSort ⟨[], ∅⟩).map fun state =>
      state.topologicalCounts.reverse.foldl insertOp []

end Code

section Queue

variable {s : DFSSubgraphState Op} {op : Op}

theorem deque_push_back :
    (s.push_back op).deque = if op ∈ s.deque then s.deque else s.deque ++ [op] := by
  rw [DFSSubgraphState.push_back]
  by_cases h : op ∈ s.set
  · rw [dif_pos h, if_pos ((s.mem_set op).mp h)]
  · rw [dif_neg h, if_neg (mt (s.mem_set op).mpr h)]

theorem pop_front_eq_none : s.pop_front = none ↔ s.deque = [] := by
  unfold DFSSubgraphState.pop_front
  split <;> simp_all

theorem pop_front_eq_some {rest : DFSSubgraphState Op} (h : s.pop_front = some (op, rest)) :
    s.deque = op :: rest.deque := by
  unfold DFSSubgraphState.pop_front at h
  split at h
  · cases h
  · next hs =>
    obtain ⟨rfl, rfl⟩ := Prod.mk.inj (Option.some.inj h)
    exact hs

end Queue

section Add

variable {g : Graph Op} {seen : Finset Op}

theorem pushUnseen_append (ops ops' : List Op) (s : DFSSubgraphState Op × Bool) :
    pushUnseen seen (ops ++ ops') s = pushUnseen seen ops' (pushUnseen seen ops s) := by
  induction ops generalizing s with
  | nil => rfl
  | cons op ops ih =>
    rw [cons_append, pushUnseen, pushUnseen]
    split_ifs
    · exact ih s
    · exact ih _

theorem pushUnseen_spec (ops : List Op) (s : DFSSubgraphState Op × Bool) :
    ∃ pushed, (pushUnseen seen ops s).1.deque = s.1.deque ++ pushed ∧
      (∀ op ∈ pushed, op ∈ ops ∧ op ∉ seen) ∧
      (∀ op ∈ ops, op ∉ seen → op ∈ s.1.deque ++ pushed) ∧
      ((pushUnseen seen ops s).2 = true ↔ s.2 = true ∧ ∀ op ∈ ops, op ∈ seen) := by
  induction ops generalizing s with
  | nil => exact ⟨[], by simp [pushUnseen]⟩
  | cons op ops ih =>
    rw [pushUnseen]
    split_ifs with hseen
    · obtain ⟨pushed, hdeque, hpushed, hall, hready⟩ := ih s
      refine ⟨pushed, hdeque, fun x hx => ?_, ?_, ?_⟩
      · exact ⟨mem_cons_of_mem _ (hpushed x hx).1, (hpushed x hx).2⟩
      · exact forall_mem_cons.mpr ⟨fun hnot => absurd hseen hnot, hall⟩
      · rw [hready, forall_mem_cons, and_iff_right hseen]
    · obtain ⟨pushed, hdeque, hpushed, hall, hready⟩ := ih (s.1.push_back op, false)
      have hback : (s.1.push_back op).deque = s.1.deque ++ if op ∈ s.1.deque then [] else [op] := by
        rw [deque_push_back]
        split_ifs <;> simp
      have hop : op ∈ (s.1.push_back op).deque := by
        rw [deque_push_back]
        split_ifs with hmem
        · exact hmem
        · simp
      simp only [hback, append_assoc] at hdeque hall hop
      refine ⟨_, hdeque, fun x hx => ?_, ?_, ?_⟩
      · rcases mem_append.mp hx with hx | hx
        · split_ifs at hx
          · cases hx
          · rw [mem_singleton.mp hx]
            exact ⟨mem_cons_self, hseen⟩
        · exact ⟨mem_cons_of_mem _ (hpushed x hx).1, (hpushed x hx).2⟩
      · refine forall_mem_cons.mpr ⟨fun _ => ?_, hall⟩
        rw [← append_assoc]
        exact mem_append_left _ hop
      · simp [hready, hseen]

/-- What an operation depends on, in the order of `addToReadyQueue`. -/
def deps (g : Graph Op) (op : Op) : List Op := (g.operands op).filterMap id ++ g.parents op

omit [DecidableEq Op] in
theorem mem_deps {d op : Op} : d ∈ deps g op ↔ g.Depends d op := by
  simp [deps, Graph.Depends]

/-- All that an operation depends on is seen, and it is ready, or it is not and
the queue has what is missing. -/
theorem addToReadyQueue_spec (seen : Finset Op) (op : Op) (s : DFSSubgraphState Op × List Op) :
    ∃ pushed, (addToReadyQueue g seen op s).1.deque = s.1.deque ++ pushed ∧
      (∀ d ∈ pushed, g.Depends d op ∧ d ∉ seen) ∧
      (∀ d, g.Depends d op → d ∉ seen → d ∈ s.1.deque ++ pushed) ∧
      ((∀ d, g.Depends d op → d ∈ seen) ∧ (addToReadyQueue g seen op s).2 = op :: s.2 ∨
        (∃ d, g.Depends d op ∧ d ∉ seen) ∧ (addToReadyQueue g seen op s).2 = s.2) := by
  obtain ⟨pushed, hdeque, hpushed, hall, hready⟩ := pushUnseen_spec (deps g op) (s.1, true)
  have hfirst : (addToReadyQueue g seen op s).1 = (pushUnseen seen (deps g op) (s.1, true)).1 := by
    rw [deps, pushUnseen_append]
    rfl
  have hsecond : (addToReadyQueue g seen op s).2 =
      if (pushUnseen seen (deps g op) (s.1, true)).2 then op :: s.2 else s.2 := by
    rw [deps, pushUnseen_append]
    rfl
  refine ⟨pushed, by rw [hfirst, hdeque], fun d hd => ?_, fun d hd => hall d (mem_deps.mpr hd), ?_⟩
  · exact ⟨mem_deps.mp (hpushed d hd).1, (hpushed d hd).2⟩
  · rw [hsecond]
    by_cases hseen : ∀ d ∈ deps g op, d ∈ seen
    · exact Or.inl ⟨fun d hd => hseen d (mem_deps.mpr hd), if_pos (hready.mpr ⟨rfl, hseen⟩)⟩
    · refine Or.inr ⟨?_, if_neg fun h => hseen (hready.mp h).2⟩
      push Not at hseen
      obtain ⟨d, hd, hnot⟩ := hseen
      exact ⟨d, mem_deps.mp hd, hnot⟩

end Add

section Closed

variable {g : Graph Op}

/-- `b` uses a result of `a` or is in one of its regions. -/
def Graph.Follows (g : Graph Op) (a b : Op) : Prop := b ∈ g.users a ++ g.bodyOps a

omit [DecidableEq Op] in
theorem follows_iff {a b : Op} :
    g.Follows a b ↔ some a ∈ g.operands b ∨ (g.parents b).head? = some a := by
  rw [Graph.Follows, mem_append, g.mem_users, g.mem_bodyOps]

omit [DecidableEq Op] in
theorem mem_parents {a b : Op} (h : a ∈ g.parents b) :
    (g.parents b).head? = some a ∨
      ∃ p, (g.parents b).head? = some p ∧ a ∈ g.parents p := by
  cases hp : g.parents b with
  | nil =>
    rw [hp] at h
    cases h
  | cons p rest =>
    rw [hp] at h
    rcases mem_cons.mp h with rfl | h
    · exact Or.inl rfl
    · rw [← g.parents_tail b p rest hp] at h
      exact Or.inr ⟨p, rfl, h⟩

omit [DecidableEq Op] in
theorem depends_closed {seen : Finset Op} (h : ∀ a ∈ seen, ∀ b, g.Follows a b → b ∈ seen)
    {a b : Op} (ha : a ∈ seen) (hdep : g.Depends a b) : b ∈ seen := by
  rcases hdep with hdef | hparent
  · exact h a ha b (follows_iff.mpr (Or.inl hdef))
  · -- down the chain of parents, from the one that is seen
    induction hn : (g.parents b).length generalizing b with
    | zero =>
      rw [length_eq_zero_iff.mp hn] at hparent
      cases hparent
    | succ n ih =>
      rcases mem_parents hparent with hhead | ⟨p, hhead, hp⟩
      · exact h a ha b (follows_iff.mpr (Or.inr hhead))
      · have hlength : (g.parents p).length = n := by
          obtain ⟨rest, hrest⟩ := List.head?_eq_some_iff.mp hhead
          rw [g.parents_tail b p rest hrest]
          rw [hrest] at hn
          exact Nat.succ_injective hn
        exact h p (ih hp hlength) b (follows_iff.mpr (Or.inr hhead))

omit [DecidableEq Op] in
theorem transGen_closed {r : Op → Op → Prop} {seen : Finset Op}
    (h : ∀ a ∈ seen, ∀ b, r a b → b ∈ seen) {a b : Op} (ha : a ∈ seen)
    (hpath : Relation.TransGen r a b) : b ∈ seen := by
  induction hpath with
  | single hstep => exact h a ha _ hstep
  | tail _ hstep ih => exact h _ ih _ hstep

end Closed

section Invariant

/-- What the search keeps. `touched` has the operations that were tried, and
`todo` those that are next. One that was tried and is not seen is ready or waits
for something, and all that it waits for is queued or was tried too. -/
structure Inv (g : Graph Op) (root : Op) (touched : Set Op) (todo : List Op) (seen : Finset Op)
    (deque ready : List Op) : Prop where
  root_found : root ∈ deque ∨ root ∈ touched ∨ root ∈ todo
  waits : ∀ x ∈ touched, x ∉ seen → x ∉ todo → x ∈ ready ∨ ∃ d, g.Depends d x ∧ d ∉ seen
  found : ∀ x ∈ touched, x ∉ seen → ∀ d, g.Depends d x → d ∉ seen →
    d ∈ deque ∨ d ∈ touched ∨ d ∈ todo
  ready_deps : ∀ x ∈ ready, ∀ d, g.Depends d x → d ∈ seen
  closed : ∀ x ∈ seen, ∀ d, g.Depends d x → d ∈ seen
  follows : ∀ x ∈ seen, ∀ y, g.Follows x y → y ∈ seen ∨ y ∈ touched ∨ y ∈ todo

variable {g : Graph Op} {root : Op} {touched : Set Op} {todo : List Op} {seen : Finset Op}
  {ready : List Op}

theorem Inv.add {op : Op} {s : DFSSubgraphState Op × List Op}
    (h : Inv g root touched (op :: todo) seen s.1.deque s.2) :
    Inv g root (insert op touched) todo seen (addToReadyQueue g seen op s).1.deque
      (addToReadyQueue g seen op s).2 := by
  obtain ⟨pushed, hdeque, -, hall, hready⟩ := addToReadyQueue_spec (g := g) seen op s
  have hmove : ∀ x, x ∈ s.1.deque ∨ x ∈ touched ∨ x ∈ op :: todo →
      x ∈ s.1.deque ++ pushed ∨ x ∈ insert op touched ∨ x ∈ todo := by
    rintro x (hx | hx | hx)
    · exact Or.inl (mem_append_left _ hx)
    · exact Or.inr (Or.inl (Set.mem_insert_of_mem _ hx))
    · rcases mem_cons.mp hx with rfl | hx
      · exact Or.inr (Or.inl (Set.mem_insert _ _))
      · exact Or.inr (Or.inr hx)
  have hkept : ∀ x ∈ s.2, x ∈ (addToReadyQueue g seen op s).2 := by
    rcases hready with ⟨-, heq⟩ | ⟨-, heq⟩
    · rw [heq]
      exact fun x hx => mem_cons_of_mem _ hx
    · rw [heq]
      exact fun x hx => hx
  rw [hdeque]
  refine ⟨hmove _ h.root_found, ?_, ?_, ?_, h.closed, ?_⟩
  · intro x hx hnot htodo
    by_cases hop : x = op
    · subst hop
      rcases hready with ⟨-, heq⟩ | ⟨hmissing, -⟩
      · rw [heq]
        exact Or.inl mem_cons_self
      · exact Or.inr hmissing
    · exact (h.waits x (hx.resolve_left hop) hnot (by simp [hop, htodo])).imp_left (hkept x)
  · intro x hx hnot d hd hmissing
    rcases hx with rfl | hx
    · exact Or.inl (hall d hd hmissing)
    · exact hmove d (h.found x hx hnot d hd hmissing)
  · rcases hready with ⟨hdeps, heq⟩ | ⟨-, heq⟩
    · rw [heq]
      exact forall_mem_cons.mpr ⟨hdeps, h.ready_deps⟩
    · rw [heq]
      exact h.ready_deps
  · intro x hx y hy
    rcases h.follows x hx y hy with hy | hy
    · exact Or.inl hy
    · exact (hmove y (Or.inr hy)).elim (fun hmem => by
        rcases hy with hy | hy
        · exact Or.inr (Or.inl (Set.mem_insert_of_mem _ hy))
        · rcases mem_cons.mp hy with rfl | hy
          · exact Or.inr (Or.inl (Set.mem_insert _ _))
          · exact Or.inr (Or.inr hy)) Or.inr

theorem Inv.addAll {s : DFSSubgraphState Op × List Op}
    (h : Inv g root touched todo seen s.1.deque s.2) :
    ∃ touched', Inv g root touched' [] seen (addAll g seen todo s).1.deque
      (addAll g seen todo s).2 := by
  induction todo generalizing touched s with
  | nil => exact ⟨touched, h⟩
  | cons op todo ih => exact ih h.add

omit [DecidableEq Op] in
theorem Inv.skip {current : Op} {deque : List Op}
    (h : Inv g root touched [] seen deque (current :: ready)) (hseen : current ∈ seen) :
    Inv g root touched [] seen deque ready where
  root_found := h.root_found
  waits x hx hnot htodo := by
    refine (h.waits x hx hnot htodo).imp_left fun hmem => ?_
    exact (mem_cons.mp hmem).resolve_left fun heq => hnot (heq ▸ hseen)
  found := h.found
  ready_deps x hx := h.ready_deps x (mem_cons_of_mem _ hx)
  closed := h.closed
  follows := h.follows

/-- What is seen is no longer waited for, and its users and the operations of its
regions are next. -/
theorem Inv.see {current : Op} {deque : List Op}
    (h : Inv g root touched [] seen deque (current :: ready)) (hseen : current ∉ seen) :
    Inv g root touched (g.users current ++ g.bodyOps current) (insert current seen) deque ready where
  root_found := h.root_found.imp_right fun hroot => Or.inl (hroot.resolve_right (by simp))
  waits x hx hnot htodo := by
    rw [Finset.mem_insert, not_or] at hnot
    rcases h.waits x hx hnot.2 (by simp) with hmem | ⟨d, hd, hmissing⟩
    · exact Or.inl ((mem_cons.mp hmem).resolve_left hnot.1)
    · by_cases heq : d = current
      · -- `current` is not the parent of `x`, so that parent waits for `current` too.
        subst heq
        right
        rcases hd with hdef | hparent
        · exact absurd (follows_iff.mpr (Or.inl hdef)) htodo
        · rcases mem_parents hparent with hhead | ⟨p, hhead, hp⟩
          · exact absurd (follows_iff.mpr (Or.inr hhead)) htodo
          · refine ⟨p, Or.inr (mem_of_mem_head? hhead), ?_⟩
            rw [Finset.mem_insert, not_or]
            refine ⟨?_, fun hpseen => hseen (h.closed p hpseen d (Or.inr hp))⟩
            rintro rfl
            exact g.acyclic p (.single (Or.inr hp))
      · exact Or.inr ⟨d, hd, by simp [heq, hmissing]⟩
  found x hx hnot d hd hmissing := by
    rw [Finset.mem_insert, not_or] at hnot hmissing
    refine (h.found x hx hnot.2 d hd hmissing.2).imp_right fun hfound => ?_
    exact Or.inl (hfound.resolve_right (by simp))
  ready_deps x hx d hd :=
    Finset.mem_insert_of_mem (h.ready_deps x (mem_cons_of_mem _ hx) d hd)
  closed x hx d hd := by
    rcases Finset.mem_insert.mp hx with rfl | hx
    · exact Finset.mem_insert_of_mem (h.ready_deps x mem_cons_self d hd)
    · exact Finset.mem_insert_of_mem (h.closed x hx d hd)
  follows x hx y hy := by
    rcases Finset.mem_insert.mp hx with rfl | hx
    · exact Or.inr (Or.inr hy)
    · rcases h.follows x hx y hy with hmem | hmem | hmem
      · exact Or.inl (Finset.mem_insert_of_mem hmem)
      · exact Or.inr (Or.inl hmem)
      · cases hmem

/-- The operations that a search has recorded, in their order. -/
structure Recorded (g : Graph Op) (start seen : Finset Op) (ops : List Op) : Prop where
  mem_seen : ∀ x, x ∈ seen ↔ x ∈ start ∨ x ∈ ops
  fresh : ∀ x ∈ ops, x ∉ start
  nodup : ops.Nodup
  ordered : ops.Pairwise fun x y => ¬ Relation.TransGen g.Depends y x

theorem Recorded.see {start : Finset Op} {ops : List Op} {current : Op}
    (h : Recorded g start seen ops) (hclosed : ∀ x ∈ seen, ∀ d, g.Depends d x → d ∈ seen)
    (hcurrent : current ∉ seen) : Recorded g start (insert current seen) (ops ++ [current]) where
  mem_seen x := by
    rw [Finset.mem_insert, h.mem_seen, mem_append, mem_singleton]
    tauto
  fresh x hx := by
    rcases mem_append.mp hx with hx | hx
    · exact h.fresh x hx
    · rw [mem_singleton.mp hx]
      exact fun hstart => hcurrent ((h.mem_seen _).mpr (Or.inl hstart))
  nodup := by
    apply h.nodup.append (nodup_singleton current)
    simpa using fun hmem => hcurrent ((h.mem_seen _).mpr (Or.inr hmem))
  ordered := by
    rw [pairwise_append]
    refine ⟨h.ordered, pairwise_singleton _ _, fun x hx y hy hpath => hcurrent ?_⟩
    rw [mem_singleton.mp hy] at hpath
    exact transGen_closed (r := fun a b => g.Depends b a) hclosed ((h.mem_seen x).mpr (Or.inr hx))
      (Relation.transGen_swap.mpr hpath)

end Invariant

section Loops

variable [Fintype Op] {g : Graph Op} {root : Op} {start : Finset Op}

def Between (g : Graph Op) (root : Op) (start : Finset Op) (s : Search Op) : Prop :=
  (∃ touched, Inv g root touched [] s.seen s.subGraph.deque []) ∧ Recorded g start s.seen s.ops

theorem readyLoop_spec (s : Search Op) (ready : List Op)
    (hinv : ∃ touched, Inv g root touched [] s.seen s.subGraph.deque ready)
    (hrec : Recorded g start s.seen s.ops) : ∃ n t, (∀ fuel ≥ n, readyLoop g fuel s ready = some t) ∧
      Between g root start t ∧ s.seen ⊆ t.seen ∧
      (t.seen = s.seen → t.subGraph.deque = s.subGraph.deque) := by
  induction hcard : (s.seenᶜ).card using Nat.strong_induction_on generalizing s ready with
  | _ k ih =>
    induction ready with
    | nil =>
      refine ⟨0, s, fun fuel _ => ?_, ⟨hinv, hrec⟩, subset_rfl, fun _ => rfl⟩
      rw [readyLoop]
    | cons current ready ihReady =>
      obtain ⟨touched, hinv⟩ := hinv
      by_cases hseen : current ∈ s.seen
      · obtain ⟨n, t, hloop, hrest⟩ := ihReady ⟨touched, hinv.skip hseen⟩
        refine ⟨n + 1, t, fun fuel hfuel => ?_, hrest⟩
        obtain ⟨fuel, rfl⟩ := Nat.exists_eq_add_of_lt (Nat.lt_of_succ_le hfuel)
        rw [readyLoop, if_pos hseen]
        exact hloop _ (by omega)
      · have hless : ((insert current s.seen)ᶜ).card < k := by
          rw [← hcard]
          apply Finset.card_lt_card
          rw [Finset.compl_ssubset_compl]
          exact Finset.ssubset_insert hseen
        obtain ⟨n, t, hloop, hbetween, hsub, -⟩ := ih _ hless
          ⟨insert current s.seen, (addAll g (insert current s.seen)
            (g.users current ++ g.bodyOps current) (s.subGraph, ready)).1, s.ops ++ [current]⟩ _
          (Inv.addAll (s := (s.subGraph, ready)) (hinv.see hseen)) (hrec.see hinv.closed hseen) rfl
        refine ⟨n + 1, t, fun fuel hfuel => ?_, hbetween,
          (Finset.subset_insert _ _).trans hsub, fun heq => ?_⟩
        · obtain ⟨fuel, rfl⟩ := Nat.exists_eq_add_of_lt (Nat.lt_of_succ_le hfuel)
          rw [readyLoop, if_neg hseen]
          exact hloop _ (by omega)
        · exact absurd (heq ▸ hsub (Finset.mem_insert_self _ _)) hseen

/-- A turn of the loop over `subGraph` that ends, for all but little fuel. -/
def Leads (g : Graph Op) (s t : Search Op) : Prop :=
  ∃ current rest n, s.subGraph.pop_front = some (current, rest) ∧
    ∀ fuel ≥ n, visit g fuel s current rest = some t

omit [Fintype Op] in
theorem Leads.unique {s t t' : Search Op} (h : Leads g s t) (h' : Leads g s t') : t = t' := by
  obtain ⟨current, rest, n, hpop, hvisit⟩ := h
  obtain ⟨current', rest', n', hpop', hvisit'⟩ := h'
  rw [hpop, Option.some_inj, Prod.mk.injEq] at hpop'
  obtain ⟨rfl, rfl⟩ := hpop'
  have ht := hvisit (max n n') (le_max_left _ _)
  rw [hvisit' (max n n') (le_max_right _ _)] at ht
  exact (Option.some.inj ht).symm

def Pushes (g : Graph Op) (s : Search Op) (b c : Op) : Prop := g.Depends c b ∧ c ∉ s.seen

theorem turn_spec {s : Search Op} (h : Between g root start s) {current : Op}
    {rest : DFSSubgraphState Op} (hpop : s.subGraph.pop_front = some (current, rest)) :
    ∃ t, Leads g s t ∧ Between g root start t ∧ s.seen ⊆ t.seen ∧
      Turn (fun s : Search Op => s.subGraph.deque) (fun s => (s.seenᶜ).card) (Pushes g) s t := by
  obtain ⟨⟨touched, hinv⟩, hrec⟩ := h
  have hdeque := pop_front_eq_some hpop
  have hnext : Inv g root touched [current] s.seen rest.deque [] := by
    rw [hdeque] at hinv
    have hmove : ∀ x, x ∈ current :: rest.deque ∨ x ∈ touched ∨ x ∈ ([] : List Op) →
        x ∈ rest.deque ∨ x ∈ touched ∨ x ∈ [current] := by
      simp only [mem_cons, not_mem_nil]
      tauto
    refine ⟨hmove _ hinv.root_found, fun x hx hnot _ => hinv.waits x hx hnot (by simp),
      fun x hx hnot d hd hmissing => hmove d (hinv.found x hx hnot d hd hmissing), hinv.ready_deps,
      hinv.closed, fun x hx y hy => (hinv.follows x hx y hy).imp_right fun hy => ?_⟩
    exact Or.inl (hy.resolve_right (by simp))
  obtain ⟨pushed, hpushed, hdown, -, hready⟩ :=
    addToReadyQueue_spec (g := g) s.seen current (rest, [])
  have hadded := Inv.add (s := (rest, [])) hnext
  obtain ⟨n, t, hloop, hbetween, hsub, hsame⟩ := readyLoop_spec
    ⟨s.seen, (addToReadyQueue g s.seen current (rest, [])).1, s.ops⟩ _ ⟨_, hadded⟩ hrec
  refine ⟨t, ⟨current, rest, n, hpop, hloop⟩, hbetween, hsub, ?_⟩
  by_cases heq : t.seen = s.seen
  · right
    refine ⟨by simp only [heq], ?_, current, rest.deque, pushed, hdeque, ?_, hdown⟩
    · funext b c
      rw [Pushes, Pushes, heq]
    · exact (hsame heq).trans hpushed
  · left
    apply Finset.card_lt_card
    rw [Finset.compl_ssubset_compl]
    exact lt_of_le_of_ne hsub (Ne.symm heq)

theorem subGraphLoop_spec (s : Search Op) (h : Between g root start s) :
    ∃ n t, (∀ fuel ≥ n, ∀ turns ≥ n, subGraphLoop g fuel turns s = some t) ∧
      Between g root start t ∧ s.seen ⊆ t.seen ∧ t.subGraph.deque = [] := by
  have hacc : Acc (fun t s => Leads g s t) s := by
    have hinv : ∀ s t, Between g root start s → Leads g s t → Between g root start t := by
      intro s t hs hlead
      obtain ⟨current, rest, n, hpop, hvisit⟩ := hlead
      obtain ⟨t', hlead', hbetween, -⟩ := turn_spec hs hpop
      rwa [Leads.unique ⟨current, rest, n, hpop, hvisit⟩ hlead']
    have hturn : ∀ s t, Between g root start s → Leads g s t →
        Turn (fun s => s.subGraph.deque) (fun s => (s.seenᶜ).card) (Pushes g) s t := by
      intro s t hs hlead
      obtain ⟨current, rest, n, hpop, hvisit⟩ := hlead
      obtain ⟨t', hlead', -, -, hturn⟩ := turn_spec hs hpop
      rwa [Leads.unique ⟨current, rest, n, hpop, hvisit⟩ hlead']
    have hwf : ∀ s, Between g root start s → WellFounded fun c b => Pushes g s b c := by
      intro s _
      exact Subrelation.wf (fun hpush => hpush.1) (wellFounded_of_acyclic g.acyclic)
    exact acc_of_turns hinv hturn hwf s h
  induction hacc with
  | intro s _ ih =>
    cases hpop : s.subGraph.pop_front with
    | none =>
      have hempty := pop_front_eq_none.mp hpop
      refine ⟨0, s, fun fuel _ turns _ => ?_, h, subset_rfl, hempty⟩
      cases turns with
      | zero => rw [subGraphLoop, if_pos hempty]
      | succ turns => rw [subGraphLoop, hpop]
    | some popped =>
      obtain ⟨current, rest⟩ := popped
      obtain ⟨t, hlead, hbetween, hsub, -⟩ := turn_spec h hpop
      obtain ⟨n', u, hloop, hend, hsub', hempty⟩ := ih t hlead hbetween
      obtain ⟨current', rest', n, hpop', hvisit⟩ := hlead
      rw [hpop, Option.some_inj, Prod.mk.injEq] at hpop'
      obtain ⟨rfl, rfl⟩ := hpop'
      refine ⟨max n n' + 1, u, fun fuel hfuel turns hturns => ?_, hend, hsub.trans hsub', hempty⟩
      obtain ⟨turns, rfl⟩ := Nat.exists_eq_add_of_lt (Nat.lt_of_succ_le hturns)
      have hn := le_max_left n n'
      have hn' := le_max_right n n'
      rw [subGraphLoop, hpop]
      simp only [hvisit fuel (by omega), Option.bind_some]
      exact hloop fuel (by omega) _ (by omega)

theorem Inv.all_seen {touched : Set Op} {seen : Finset Op} (h : Inv g root touched [] seen [] []) :
    root ∈ seen ∧ (∀ x ∈ seen, ∀ d, g.Depends d x → d ∈ seen) ∧
      ∀ x ∈ seen, ∀ y, g.Follows x y → y ∈ seen := by
  have htouched : ∀ x ∈ touched, x ∈ seen := by
    intro x
    induction x using (wellFounded_of_acyclic g.acyclic).induction with
    | _ x ih =>
      intro hx
      by_contra hnot
      rcases h.waits x hx hnot (by simp) with hready | ⟨d, hd, hmissing⟩
      · cases hready
      · rcases h.found x hx hnot d hd hmissing with hmem | hmem | hmem
        · cases hmem
        · exact hmissing (ih d hd hmem)
        · cases hmem
  refine ⟨?_, h.closed, fun x hx y hy => ?_⟩
  · rcases h.root_found with hmem | hmem | hmem
    · cases hmem
    · exact htouched root hmem
    · cases hmem
  · rcases h.follows x hx y hy with hmem | hmem | hmem
    · exact hmem
    · exact htouched y hmem
    · cases hmem

end Loops

section Roots

variable [Fintype Op] {g : Graph Op} {toSort : List Op}

/-- What holds between two roots: what is seen is closed, and the counts have the
seen operations of `toSort`, the last one first. -/
structure RootsInv (g : Graph Op) (toSort : List Op) (state : DFSState Op) : Prop where
  closed : ∀ x ∈ state.seen, ∀ d, g.Depends d x → d ∈ state.seen
  follows : ∀ x ∈ state.seen, ∀ y, g.Follows x y → y ∈ state.seen
  mem_counts : ∀ x, x ∈ state.topologicalCounts.reverse ↔ x ∈ toSort ∧ x ∈ state.seen
  nodup : state.topologicalCounts.reverse.Nodup
  ordered : state.topologicalCounts.reverse.Pairwise fun x y =>
    ¬ Relation.TransGen g.Depends y x

omit [Fintype Op] in
theorem rootsInv_start : RootsInv g toSort ⟨[], ∅⟩ := by
  constructor <;> simp

theorem dfsPostorder_spec {state : DFSState Op} (h : RootsInv g toSort state) (root : Op) :
    ∃ n state', (∀ fuel ≥ n, dfsPostorder g toSort fuel root state = some state') ∧
      RootsInv g toSort state' ∧ root ∈ state'.seen ∧ state.seen ⊆ state'.seen := by
  have hdeque : (DFSSubgraphState.empty.push_back root).deque = [root] := by
    rw [deque_push_back, if_neg (by simp [DFSSubgraphState.empty])]
    rfl
  have hstart : Between g root state.seen
      ⟨state.seen, DFSSubgraphState.empty.push_back root, []⟩ := by
    refine ⟨⟨∅, Or.inl (by simp [hdeque]), by simp, by simp, by simp, h.closed, ?_⟩,
      fun x => by simp, by simp, nodup_nil, List.Pairwise.nil⟩
    exact fun x hx y hy => Or.inl (h.follows x hx y hy)
  obtain ⟨n, s, hloop, ⟨⟨touched, hinv⟩, hrec⟩, hsub, hempty⟩ := subGraphLoop_spec _ hstart
  rw [hempty] at hinv
  obtain ⟨hroot, hclosed, hfollows⟩ := hinv.all_seen
  have hcounts : (state.topologicalCounts ++ s.ops.reverse.filter (· ∈ toSort)).reverse =
      s.ops.filter (· ∈ toSort) ++ state.topologicalCounts.reverse := by
    rw [reverse_append, ← filter_reverse, reverse_reverse]
  refine ⟨n, ⟨state.topologicalCounts ++ s.ops.reverse.filter (· ∈ toSort), s.seen⟩,
    fun fuel hfuel => ?_, ⟨hclosed, hfollows, fun x => ?_, ?_, ?_⟩, hroot, hsub⟩
  · rw [dfsPostorder, hloop fuel hfuel fuel hfuel]
    rfl
  · rw [hcounts, mem_append, mem_filter, decide_eq_true_eq, h.mem_counts, hrec.mem_seen]
    tauto
  · rw [hcounts]
    refine (hrec.nodup.filter _).append h.nodup fun x hx hx' => ?_
    exact hrec.fresh x (mem_filter.mp hx).1 ((h.mem_counts x).mp hx').2
  · rw [hcounts, pairwise_append]
    refine ⟨hrec.ordered.filter _, h.ordered, fun x hx y hy hpath => ?_⟩
    exact hrec.fresh x (mem_filter.mp hx).1 (transGen_closed
      (fun a ha b hdep => depends_closed h.follows ha hdep) ((h.mem_counts y).mp hy).2 hpath)

theorem dfsRoots_spec (roots : List Op) {state : DFSState Op} (h : RootsInv g toSort state) :
    ∃ n state', (∀ fuel ≥ n, dfsRoots g toSort fuel roots state = some state') ∧
      RootsInv g toSort state' ∧ (∀ root ∈ roots, root ∈ state'.seen) ∧
      state.seen ⊆ state'.seen := by
  induction roots generalizing state with
  | nil => exact ⟨0, state, fun _ _ => rfl, h, by simp, subset_rfl⟩
  | cons root roots ih =>
    obtain ⟨n, mid, hroot, hmid, hmem, hsub⟩ := dfsPostorder_spec h root
    obtain ⟨n', final, hroots, hfinal, hall, hsub'⟩ := ih hmid
    refine ⟨max n n', final, fun fuel hfuel => ?_, hfinal,
      forall_mem_cons.mpr ⟨hsub' hmem, hall⟩, hsub.trans hsub'⟩
    rw [dfsRoots, hroot fuel (le_of_max_le_left hfuel), Option.bind_some]
    exact hroots fuel (le_of_max_le_right hfuel)

omit [Fintype Op] in
theorem foldl_insertOp {ops res : List Op} (h : (res ++ ops).Nodup) :
    ops.foldl insertOp res = res ++ ops := by
  induction ops generalizing res with
  | nil => rw [foldl_nil, append_nil]
  | cons op ops ih =>
    have hnot : op ∉ res := fun hmem =>
      (nodup_append.mp h).2.2 op hmem op mem_cons_self rfl
    have hassoc : res ++ op :: ops = res ++ [op] ++ ops := by simp
    rw [hassoc] at h ⊢
    rw [foldl_cons, insertOp, if_neg hnot, ih h]

omit [Fintype Op] in
theorem idxOf_lt {r : Op → Op → Prop} {l : List Op} (h : l.Pairwise fun x y => ¬ r y x)
    {a b : Op} (ha : a ∈ l) (hb : b ∈ l) (hab : r a b) (hne : a ≠ b) : l.idxOf a < l.idxOf b := by
  induction h with
  | nil => cases ha
  | @cons x l hx hl ih =>
    by_cases hxa : x = a
    · subst hxa
      rw [idxOf_cons_self, idxOf_cons_ne _ hne]
      exact Nat.succ_pos _
    · by_cases hxb : x = b
      · subst hxb
        exact absurd hab (hx a ((mem_cons.mp ha).resolve_left (Ne.symm hxa)))
      · rw [idxOf_cons_ne _ hxa, idxOf_cons_ne _ hxb]
        exact Nat.succ_lt_succ (ih ((mem_cons.mp ha).resolve_left (Ne.symm hxa))
          ((mem_cons.mp hb).resolve_left (Ne.symm hxb)))

/-- The sort ends with the operations of the set, each behind all that defines its
operands or encloses it, through any other operations. -/
theorem multiRootTopologicalSort_sorts (g : Graph Op) (toSort : List Op) (hnodup : toSort.Nodup) :
    ∃ n sorted, (∀ fuel ≥ n, multiRootTopologicalSort g toSort fuel = some sorted) ∧
      sorted.Perm toSort ∧ ∀ a ∈ toSort, ∀ b ∈ toSort, Relation.TransGen g.Depends a b →
        sorted.idxOf a < sorted.idxOf b := by
  by_cases hempty : toSort = []
  · refine ⟨0, toSort, fun fuel _ => ?_, List.Perm.refl _, fun a ha => ?_⟩
    · rw [multiRootTopologicalSort, if_pos hempty]
    · rw [hempty] at ha
      cases ha
  · obtain ⟨n, state, hroots, hinv, hall, -⟩ := dfsRoots_spec toSort (rootsInv_start (g := g))
    have hperm : state.topologicalCounts.reverse.Perm toSort := by
      rw [perm_ext_iff_of_nodup hinv.nodup hnodup]
      intro x
      rw [hinv.mem_counts]
      exact and_iff_left_of_imp (hall x)
    refine ⟨n, state.topologicalCounts.reverse, fun fuel hfuel => ?_, hperm,
      fun a ha b hb hpath => ?_⟩
    · rw [multiRootTopologicalSort, if_neg hempty, hroots fuel hfuel, Option.map_some,
        foldl_insertOp (by simpa using hinv.nodup)]
      rfl
    · refine idxOf_lt hinv.ordered (hperm.mem_iff.mpr ha) (hperm.mem_iff.mpr hb) hpath ?_
      rintro rfl
      exact g.acyclic a hpath

end Roots

omit [DecidableEq Op] in
theorem not_transGen_of_lt [Preorder Op] {r : Op → Op → Prop} (h : ∀ a b, r a b → a < b) (op : Op) :
    ¬ Relation.TransGen r op op := by
  suffices hpath : ∀ a b, Relation.TransGen r a b → a < b from
    fun hcycle => lt_irrefl op (hpath op op hcycle)
  intro a b hpath
  induction hpath with
  | single hstep => exact h _ _ hstep
  | tail _ hstep ih => exact ih.trans (h _ _ hstep)

local instance neZero_four : NeZero 4 := ⟨by decide⟩

/-- A constant, a loop, an operation of its body that uses the constant, and one
that uses the loop's result and the constant. -/
def loopGraph : Graph (Fin 4) where
  operands := ![[], [none], [some 0], [some 1, some 0]]
  parents := ![[], [], [1], []]
  users := ![[2, 3], [3], [], []]
  bodyOps := ![[], [2], [], []]
  mem_users := by decide
  mem_bodyOps := by decide
  parents_tail op parent rest h := by
    fin_cases op
    · cases h
    · cases h
    · cases h
      rfl
    · cases h
  acyclic := not_transGen_of_lt (by decide)

theorem multiRootTopologicalSort_sorts_loopGraph :
    ∃ n sorted, (∀ fuel ≥ n, multiRootTopologicalSort loopGraph [3, 2, 0] fuel = some sorted) ∧
      sorted.Perm [3, 2, 0] ∧ ∀ a ∈ ([3, 2, 0] : List (Fin 4)), ∀ b ∈ ([3, 2, 0] : List (Fin 4)),
        Relation.TransGen loopGraph.Depends a b → sorted.idxOf a < sorted.idxOf b :=
  multiRootTopologicalSort_sorts loopGraph [3, 2, 0] (by decide)

example : multiRootTopologicalSort loopGraph [3, 2, 0] 9 = some [0, 3, 2] := by decide

end TritonCpu.TopologicalSort
