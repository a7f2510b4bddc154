import TritonCpu.Membar
import TritonCpu.SyncTrace

/-!
# Accesses of an execution and the transfer function that rewrites nothing

An execution emits one event for each access and each synchronisation. A
block the analysis is done with passes `transferBlock`: no operation of it
touches an interval that is still pending. `transferBlock` over-approximates
the accesses pending after any execution of the block.
-/

set_option autoImplicit false

namespace TritonCpu.MembarTrace
open Membar SyncTrace

/-- The intervals one operation reads and writes at one time. -/
structure Access where
  reads : List Interval
  writes : List Interval
  deriving DecidableEq, Repr

def AnyIntersect (xs ys : List Interval) : Prop :=
  ∃ x ∈ xs, ∃ y ∈ ys, x.intersects y = true

/-- Two accesses conflict when a written interval of one intersects an
interval of the other. -/
def Conflict (a b : Access) : Prop :=
  AnyIntersect a.writes b.reads ∨ AnyIntersect a.reads b.writes ∨
    AnyIntersect a.writes b.writes

abbrev Trace := List (Event Access)

section Runs

variable (callRun callPart : FuncId → ℕ → Trace → Prop)

/-- A scratch operation writes its interval, synchronises internally and
reads it back. -/
inductive OpRun : Op → Trace → Prop
  | barrier : OpRun .barrier [.sync]
  | asyncWait : OpRun .asyncWait []
  | effects (id : OpId) (reads writes : List Interval) :
      OpRun (.effects id reads writes none) [.access ⟨reads, writes⟩]
  | scratch (id : OpId) (reads writes : List Interval) (interval : Interval) :
      OpRun (.effects id reads writes (some interval))
        [.access ⟨[], [interval]⟩, .sync, .access ⟨[interval], []⟩]
  | call (id : OpId) (callee : FuncId) (offset : ℕ) (tr : Trace)
      (h : callRun callee offset tr) : OpRun (.call id callee offset) tr

inductive OpsRun : List Op → Trace → Prop
  | nil : OpsRun [] []
  | cons {op : Op} {rest : List Op} {s t : Trace} (h : OpRun callRun op s)
      (hr : OpsRun rest t) : OpsRun (op :: rest) (s ++ t)

/-- Executions of a function from the start of a block, stopped between two
operations of some block or inside a call. -/
inductive Run {B : Type} (f : Function B) : B → Trace → Prop
  | halt {b : B} {done rest : List Op} {tr : Trace} (hb : f.ops b = done ++ rest)
      (h : OpsRun callRun done tr) : Run f b tr
  | haltCall {b : B} {done rest : List Op} {id : OpId} {callee : FuncId} {offset : ℕ}
      {s t : Trace} (hb : f.ops b = done ++ .call id callee offset :: rest)
      (h : OpsRun callRun done s) (hc : callPart callee offset t) : Run f b (s ++ t)
  | step {b c : B} {s t : Trace} (h : OpsRun callRun (f.ops b) s)
      (hc : c ∈ (f.terminator b).successors) (hr : Run f c t) : Run f b (s ++ t)

/-- Executions from the start of a block to a return. -/
inductive Complete {B : Type} (f : Function B) : B → Trace → Prop
  | ret {b : B} {tr : Trace} (hb : f.terminator b = .ret)
      (h : OpsRun callRun (f.ops b) tr) : Complete f b tr
  | step {b c : B} {s t : Trace} (h : OpsRun callRun (f.ops b) s)
      (hc : c ∈ (f.terminator b).successors) (hr : Complete f c t) : Complete f b (s ++ t)

variable {callRun callPart}

theorem Complete.run {B : Type} {f : Function B} {b : B} {tr : Trace}
    (h : Complete callRun f b tr) : Run callRun callPart f b tr := by
  induction h with
  | ret hret h => exact .halt (List.append_nil _).symm h
  | step h hc hr ih => exact .step h hc ih

end Runs

def Covers (info : BlockInfo) (P : Set Access) : Prop :=
  ∀ a ∈ P, (∀ i ∈ a.reads, ∃ id, (i, id) ∈ info.syncReadIntervals) ∧
    ∀ i ∈ a.writes, ∃ id, (i, id) ∈ info.syncWriteIntervals

def Le (a b : BlockInfo) : Prop :=
  a.syncReadIntervals ⊆ b.syncReadIntervals ∧ a.syncWriteIntervals ⊆ b.syncWriteIntervals

theorem le_refl (a : BlockInfo) : Le a a := ⟨subset_rfl, subset_rfl⟩

theorem le_trans {a b c : BlockInfo} (hab : Le a b) (hbc : Le b c) : Le a c :=
  ⟨hab.1.trans hbc.1, hab.2.trans hbc.2⟩

theorem le_join_left (a b : BlockInfo) : Le a (a.join b) :=
  ⟨Finset.subset_union_left, Finset.subset_union_left⟩

theorem le_join_right (a b : BlockInfo) : Le b (a.join b) :=
  ⟨Finset.subset_union_right, Finset.subset_union_right⟩

theorem join_le {a b c : BlockInfo} (hac : Le a c) (hbc : Le b c) : Le (a.join b) c :=
  ⟨Finset.union_subset hac.1 hbc.1, Finset.union_subset hac.2 hbc.2⟩

theorem covers_empty (info : BlockInfo) : Covers info ∅ := by
  intro a ha
  cases ha

theorem covers_mono {a b : BlockInfo} {P : Set Access} (h : Covers a P) (hab : Le a b) :
    Covers b P := by
  intro x hx
  refine ⟨fun i hi => ?_, fun i hi => ?_⟩
  · obtain ⟨id, hid⟩ := (h x hx).1 i hi
    exact ⟨id, hab.1 hid⟩
  · obtain ⟨id, hid⟩ := (h x hx).2 i hi
    exact ⟨id, hab.2 hid⟩

theorem covers_insert {info : BlockInfo} {P : Set Access} {a : Access}
    (hP : Covers info P) (ha : Covers info {a}) : Covers info (insert a P) := by
  intro x hx
  rcases Set.mem_insert_iff.mp hx with rfl | hx
  · exact ha x rfl
  · exact hP x hx

theorem mem_intervalMap (id : OpId) (intervals : List Interval) (i : Interval) :
    (i, id) ∈ intervalMap id intervals ↔ i ∈ intervals := by
  simp [intervalMap]

theorem covers_effects (id : OpId) (reads writes : List Interval) :
    Covers ⟨intervalMap id reads, intervalMap id writes⟩ {⟨reads, writes⟩} := by
  rintro a rfl
  exact ⟨fun i hi => ⟨id, (mem_intervalMap id _ i).mpr hi⟩,
    fun i hi => ⟨id, (mem_intervalMap id _ i).mpr hi⟩⟩

theorem any_intersect_maps {xs ys : List Interval} {lhs rhs : IntervalMap}
    (h : AnyIntersect xs ys) (hx : ∀ i ∈ xs, ∃ id, (i, id) ∈ lhs)
    (hy : ∀ i ∈ ys, ∃ id, (i, id) ∈ rhs) : mapsIntersected none lhs rhs := by
  obtain ⟨x, hxs, y, hys, hxy⟩ := h
  obtain ⟨idx, hidx⟩ := hx x hxs
  obtain ⟨idy, hidy⟩ := hy y hys
  exact ⟨(x, idx), hidx, (y, idy), hidy, hxy, rfl⟩

theorem conflict_intersected {info cur : BlockInfo} {P Q : Set Access} {a b : Access}
    (hP : Covers info P) (hQ : Covers cur Q) (ha : a ∈ P) (hb : b ∈ Q)
    (h : Conflict a b) : info.isIntersected none cur := by
  rcases h with h | h | h
  · exact .inl (any_intersect_maps h (hP a ha).2 (hQ b hb).1)
  · exact .inr (.inl (any_intersect_maps h (hP a ha).1 (hQ b hb).2))
  · exact .inr (.inr (any_intersect_maps h (hP a ha).2 (hQ b hb).2))

theorem empty_not_intersected (filter : MembarFilterFn) (cur : BlockInfo) :
    ¬ BlockInfo.empty.isIntersected filter cur := by
  simp [BlockInfo.isIntersected, mapsIntersected, BlockInfo.empty]

section Transfer

variable (filter : MembarFilterFn) (funcBlockInfoMap : FuncId → BlockInfo)

/-- `update` on an operation that needs no barrier; `none` where it does. -/
def transfer (op : Op) (info : BlockInfo) : Option BlockInfo :=
  match op with
  | .barrier => some info.sync
  | .asyncWait => some info
  | .effects id _ _ (some interval) =>
    if info.isIntersected filter ⟨∅, {(interval, id)}⟩ then none
    else some (info.sync.join ⟨{(interval, id)}, {(interval, id)}⟩)
  | op =>
    if info.isIntersected filter (curBlockInfo funcBlockInfoMap op) then none
    else some (info.join (curBlockInfo funcBlockInfoMap op))

def transferBlock : List Op → BlockInfo → Option BlockInfo
  | [], info => some info
  | op :: rest, info => (transfer filter funcBlockInfoMap op info).bind (transferBlock rest)

theorem transferBlock_append (s t : List Op) (info : BlockInfo) :
    transferBlock filter funcBlockInfoMap (s ++ t) info =
      (transferBlock filter funcBlockInfoMap s info).bind
        (transferBlock filter funcBlockInfoMap t) := by
  induction s generalizing info with
  | nil => rfl
  | cons op s ih =>
    simp only [List.cons_append, transferBlock, Option.bind_assoc]
    exact congrArg _ (funext ih)

/-- What `update` leaves behind needs no further barrier, and its result is
the transfer of what it left. -/
theorem update_transfer (op : Op) (next : Option Op) (info info' : BlockInfo) (ops : List Op)
    (h : update filter funcBlockInfoMap op next info = .ok (ops, info')) :
    transferBlock filter funcBlockInfoMap ops info = some info' := by
  have hempty := empty_not_intersected filter
  cases op with
  | barrier =>
    simp only [update, Except.ok.injEq, Prod.mk.injEq] at h
    obtain ⟨rfl, rfl⟩ := h
    rfl
  | asyncWait =>
    simp only [update] at h
    split_ifs at h <;> simp only [Except.ok.injEq, Prod.mk.injEq] at h <;>
      obtain ⟨rfl, rfl⟩ := h <;> rfl
  | effects id reads writes scratch =>
    cases scratch with
    | none =>
      simp only [update, barrierIf, Except.ok.injEq, Prod.mk.injEq] at h
      obtain ⟨rfl, rfl⟩ := h
      split_ifs with hc <;>
        simp [transferBlock, transfer, BlockInfo.sync, hempty, hc]
    | some interval =>
      simp only [update, barrierIf] at h
      split_ifs at h with hd hc <;> simp only [Except.ok.injEq, Prod.mk.injEq] at h <;>
        obtain ⟨rfl, rfl⟩ := h <;>
        simp [transferBlock, transfer, BlockInfo.sync, *]
  | call id callee offset =>
    simp only [update, barrierIf, Except.ok.injEq, Prod.mk.injEq] at h
    obtain ⟨rfl, rfl⟩ := h
    split_ifs with hc <;>
      simp [transferBlock, transfer, BlockInfo.sync, hempty, hc]

theorem except_bind_ok {ε α β : Type} {x : Except ε α} {f : α → Except ε β} {b : β}
    (h : (x >>= f) = .ok b) : ∃ a, x = .ok a ∧ f a = .ok b := by
  cases x with
  | error e => cases h
  | ok a => exact ⟨a, rfl, h⟩

theorem visitBlock_transfer (ops ops' : List Op) (info info' : BlockInfo)
    (h : visitBlock filter funcBlockInfoMap ops info = .ok (ops', info')) :
    transferBlock filter funcBlockInfoMap ops' info = some info' := by
  induction ops generalizing info info' ops' with
  | nil =>
    cases h
    rfl
  | cons op rest ih =>
    obtain ⟨⟨head, mid⟩, hu, h⟩ := except_bind_ok h
    obtain ⟨⟨tail, last⟩, hv, h⟩ := except_bind_ok h
    cases h
    rw [transferBlock_append, update_transfer filter funcBlockInfoMap op _ _ _ _ hu]
    exact ih _ _ _ hv

end Transfer

end TritonCpu.MembarTrace
