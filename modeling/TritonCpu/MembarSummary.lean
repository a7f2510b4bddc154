import Mathlib.Logic.Relation
import TritonCpu.MembarSound

/-!
# What the summary of a function records

A call is analysed by the summary of its callee: the accesses the callee may
leave pending at its return, at offsets relative to the callee's own base.
The summary is not moved to the offset of the call's virtual buffer, and it
forgets the accesses that a synchronisation inside the callee clears. A quiet
function keeps its body through the analysis and its summary records every
access it makes. Executions are indexed by the depth of their calls.
-/

set_option autoImplicit false

namespace TritonCpu.MembarSummary
open Membar SyncTrace MembarTrace MembarSound

variable {B : Type}

def Access.shift (offset : ℕ) (a : Access) : Access :=
  ⟨a.reads.map (Interval.shift offset), a.writes.map (Interval.shift offset)⟩

def shiftTrace (offset : ℕ) (tr : Trace) : Trace := tr.map (Event.map (Access.shift offset))

section Executions

variable (body : FuncId → Function B)

def completeAt : ℕ → FuncId → Trace → Prop
  | 0, _, _ => False
  | n + 1, f, tr =>
    Complete (fun callee offset t => ∃ s, completeAt n callee s ∧ t = shiftTrace offset s)
      (body f) (body f).entry tr

def partialAt : ℕ → FuncId → Trace → Prop
  | 0, _, _ => False
  | n + 1, f, tr =>
    Run (fun callee offset t => ∃ s, completeAt body n callee s ∧ t = shiftTrace offset s)
      (fun callee offset t => ∃ s, partialAt n callee s ∧ t = shiftTrace offset s)
      (body f) (body f).entry tr

/-- A finite execution of a function and of everything it calls, at absolute
addresses. -/
def Execution (f : FuncId) (tr : Trace) : Prop := ∃ n, partialAt body n f tr

/-- What an operation may access, calls included, without their offsets. -/
inductive OpTouch : Op → Access → Prop
  | effects (id : OpId) (reads writes : List Interval) :
      OpTouch (.effects id reads writes none) ⟨reads, writes⟩
  | scratch (id : OpId) (reads writes : List Interval) (interval : Interval) :
      OpTouch (.effects id reads writes (some interval)) ⟨[interval], [interval]⟩
  | call {id : OpId} {callee : FuncId} {offset : ℕ} {b : B} {op : Op} {a : Access}
      (hop : op ∈ (body callee).ops b) (h : OpTouch op a) : OpTouch (.call id callee offset) a

def Touches (op : Op) : Prop := ∃ a, OpTouch body op a ∧ (a.reads ≠ [] ∨ a.writes ≠ [])

def Silent (f : FuncId) : Prop := ∀ b, ∀ op ∈ (body f).ops b, ¬ Touches body op

def Synchronises : Op → Prop
  | .barrier => True
  | .asyncWait => True
  | .effects _ _ _ (some _) => True
  | _ => False

/-- `late` neither synchronises nor conflicts with `early`. -/
def Compatible (early late : Op) : Prop :=
  Touches body early → ¬ Synchronises late ∧
    ∀ a c, OpTouch body early a → OpTouch body late c → ¬ Conflict a c

end Executions

def Step (f : Function B) (b c : B) : Prop := c ∈ (f.terminator b).successors

/-- Once a quiet function has made an access, nothing that can follow
synchronises or conflicts with it, and a return stays reachable. -/
structure Quiet (body : FuncId → Function B) (f : FuncId) : Prop where
  no_wait : ∀ b, Op.asyncWait ∉ (body f).ops b
  in_block : ∀ b, ((body f).ops b).Pairwise (Compatible body)
  across : ∀ b c, Relation.TransGen (Step (body f)) b c →
    ∀ early ∈ (body f).ops b, ∀ late ∈ (body f).ops c, Compatible body early late
  returns : ∀ b, ∃ c, Relation.ReflTransGen (Step (body f)) b c ∧ (body f).terminator c = .ret

def Guarded (body : FuncId → Function B) (f : FuncId) : Prop :=
  ((body f).ops (body f).entry).head? = some .barrier

/-- Every call sits at offset zero unless the callee accesses nothing, and no
callee synchronises after an access it did not guard. -/
def CallsCovered (body : FuncId → Function B) : Prop :=
  ∀ f b id callee offset, Op.call id callee offset ∈ (body f).ops b →
    (offset = 0 ∨ Silent body callee) ∧ (Quiet body callee ∨ Guarded body callee)

/-- Every recorded interval belongs to an access of one of the operations. -/
def Within (body : FuncId → Function B) (ops : Set Op) (info : BlockInfo) : Prop :=
  (∀ i id, (i, id) ∈ info.syncReadIntervals → ∃ op ∈ ops, ∃ a, OpTouch body op a ∧ i ∈ a.reads) ∧
  ∀ i id, (i, id) ∈ info.syncWriteIntervals → ∃ op ∈ ops, ∃ a, OpTouch body op a ∧ i ∈ a.writes

section Within

variable {body : FuncId → Function B} {filter : MembarFilterFn}
variable {funcBlockInfoMap : FuncId → BlockInfo}

theorem within_empty (ops : Set Op) : Within body ops BlockInfo.empty := by
  simp [Within, BlockInfo.empty]

theorem within_join {ops : Set Op} {a b : BlockInfo} (ha : Within body ops a)
    (hb : Within body ops b) : Within body ops (a.join b) := by
  refine ⟨fun i id h => ?_, fun i id h => ?_⟩
  · rcases Finset.mem_union.mp h with h | h
    · exact ha.1 i id h
    · exact hb.1 i id h
  · rcases Finset.mem_union.mp h with h | h
    · exact ha.2 i id h
    · exact hb.2 i id h

theorem within_mono {s t : Set Op} {info : BlockInfo} (h : Within body s info) (hst : s ⊆ t) :
    Within body t info := by
  refine ⟨fun i id hi => ?_, fun i id hi => ?_⟩
  · obtain ⟨op, hop, ha⟩ := h.1 i id hi
    exact ⟨op, hst hop, ha⟩
  · obtain ⟨op, hop, ha⟩ := h.2 i id hi
    exact ⟨op, hst hop, ha⟩

def SummariesWithin (body : FuncId → Function B) (funcBlockInfoMap : FuncId → BlockInfo)
    (ops : List Op) : Prop :=
  ∀ id callee offset, Op.call id callee offset ∈ ops →
    Within body {.call id callee offset} (funcBlockInfoMap callee)

theorem curBlockInfo_within {op : Op} (h : SummariesWithin body funcBlockInfoMap [op])
    (hop : ∀ id reads writes interval, op ≠ .effects id reads writes (some interval)) :
    Within body {op} (curBlockInfo funcBlockInfoMap op) := by
  cases op with
  | barrier => exact within_empty _
  | asyncWait => exact within_empty _
  | effects id reads writes scratch =>
    cases scratch with
    | some interval => exact absurd rfl (hop id reads writes interval)
    | none =>
      refine ⟨fun i j hi => ⟨_, rfl, _, .effects id reads writes, ?_⟩,
        fun i j hi => ⟨_, rfl, _, .effects id reads writes, ?_⟩⟩
      · simpa [curBlockInfo, intervalMap] using (by simpa [curBlockInfo, intervalMap] using hi :
          i ∈ reads ∧ id = j).1
      · simpa [curBlockInfo, intervalMap] using (by simpa [curBlockInfo, intervalMap] using hi :
          i ∈ writes ∧ id = j).1
  | call id callee offset => exact h id callee offset (by simp)

theorem scratch_within (id : OpId) (reads writes : List Interval) (interval : Interval) :
    Within body {.effects id reads writes (some interval)}
      ⟨{(interval, id)}, {(interval, id)}⟩ := by
  refine ⟨fun i j hi => ⟨_, rfl, _, .scratch id reads writes interval, ?_⟩,
    fun i j hi => ⟨_, rfl, _, .scratch id reads writes interval, ?_⟩⟩ <;>
  simp_all

theorem update_within {op : Op} {next : Option Op} {ops' : List Op} {T : Set Op}
    {info info' : BlockInfo} (hs : SummariesWithin body funcBlockInfoMap [op])
    (hop : op ∈ T) (hi : Within body T info)
    (h : update filter funcBlockInfoMap op next info = .ok (ops', info')) :
    Within body T info' := by
  have hone : ({op} : Set Op) ⊆ T := Set.singleton_subset_iff.mpr hop
  cases op with
  | barrier =>
    cases h
    exact within_empty _
  | asyncWait =>
    simp only [update] at h
    split_ifs at h <;> cases h
    · exact hi
    · exact within_empty _
  | effects id reads writes scratch =>
    cases scratch with
    | none =>
      cases h
      have hc := within_mono (curBlockInfo_within hs (by simp)) hone
      refine within_join ?_ hc
      split_ifs
      · exact within_empty _
      · exact hi
    | some interval =>
      simp only [update] at h
      split_ifs at h
      cases h
      exact within_join (within_empty _) (within_mono (scratch_within id _ _ interval) hone)
  | call id callee offset =>
    cases h
    have hc := within_mono (curBlockInfo_within hs (by simp)) hone
    refine within_join ?_ hc
    split_ifs
    · exact within_empty _
    · exact hi

theorem visitBlock_within {ops ops' : List Op} {T : Set Op} {info info' : BlockInfo}
    (hs : SummariesWithin body funcBlockInfoMap ops) (hops : ∀ op ∈ ops, op ∈ T)
    (hi : Within body T info)
    (h : visitBlock filter funcBlockInfoMap ops info = .ok (ops', info')) :
    Within body T info' := by
  induction ops generalizing info ops' with
  | nil =>
    cases h
    exact hi
  | cons op rest ih =>
    obtain ⟨⟨head, mid⟩, hu, h⟩ := except_bind_ok h
    obtain ⟨⟨tail, last⟩, hv, h⟩ := except_bind_ok h
    cases h
    have hmid := update_within (fun id g off hg => hs id g off (by simp_all))
      (hops op (by simp)) hi hu
    exact ih (fun id g off hg => hs id g off (by simp [hg])) (fun o ho => hops o (by simp [ho]))
      hmid hv

theorem within_le {ops : Set Op} {a b : BlockInfo} (h : Within body ops b) (hab : Le a b) :
    Within body ops a :=
  ⟨fun i id hi => h.1 i id (hab.1 hi), fun i id hi => h.2 i id (hab.2 hi)⟩

theorem intersected_conflict {s t : Set Op} {info cur : BlockInfo} (hs : Within body s info)
    (ht : Within body t cur) (h : info.isIntersected filter cur) :
    ∃ early ∈ s, ∃ late ∈ t, ∃ a c, OpTouch body early a ∧ OpTouch body late c ∧
      Conflict a c ∧ Touches body early := by
  rcases h with h | h | h <;> obtain ⟨⟨i, x⟩, hi, ⟨j, y⟩, hj, hij, -⟩ := h
  · obtain ⟨early, he, a, ha, hia⟩ := hs.2 i x hi
    obtain ⟨late, hl, c, hc, hjc⟩ := ht.1 j y hj
    exact ⟨early, he, late, hl, a, c, ha, hc, .inl ⟨i, hia, j, hjc, hij⟩,
      a, ha, .inr (List.ne_nil_of_mem hia)⟩
  · obtain ⟨early, he, a, ha, hia⟩ := hs.1 i x hi
    obtain ⟨late, hl, c, hc, hjc⟩ := ht.2 j y hj
    exact ⟨early, he, late, hl, a, c, ha, hc, .inr (.inl ⟨i, hia, j, hjc, hij⟩),
      a, ha, .inl (List.ne_nil_of_mem hia)⟩
  · obtain ⟨early, he, a, ha, hia⟩ := hs.2 i x hi
    obtain ⟨late, hl, c, hc, hjc⟩ := ht.2 j y hj
    exact ⟨early, he, late, hl, a, c, ha, hc, .inr (.inr ⟨i, hia, j, hjc, hij⟩),
      a, ha, .inr (List.ne_nil_of_mem hia)⟩

theorem compatible_not_intersected (filter : MembarFilterFn) {T : Set Op} {op : Op} {info cur : BlockInfo}
    (hi : Within body T info) (hc : Within body {op} cur)
    (h : ∀ early ∈ T, Compatible body early op) : ¬ info.isIntersected filter cur := by
  intro hint
  obtain ⟨early, he, late, rfl, a, c, ha, hac, hconf, htouch⟩ := intersected_conflict hi hc hint
  exact (h early he htouch).2 a c ha hac hconf

theorem update_same {op : Op} {next : Option Op} {ops' : List Op} {T : Set Op}
    {info info' : BlockInfo} (hs : SummariesWithin body funcBlockInfoMap [op])
    (hi : Within body T info) (hwait : op ≠ .asyncWait)
    (hc : ∀ early ∈ T, Compatible body early op)
    (h : update filter funcBlockInfoMap op next info = .ok (ops', info')) : ops' = [op] := by
  cases op with
  | barrier =>
    cases h
    rfl
  | asyncWait => exact absurd rfl hwait
  | effects id reads writes scratch =>
    cases scratch with
    | none =>
      cases h
      have hnot := compatible_not_intersected filter hi
        (curBlockInfo_within hs (by simp)) hc
      simp [barrierIf, hnot]
    | some interval =>
      simp only [update] at h
      split_ifs at h
      cases h
      have hwrite : Within body {.effects id reads writes (some interval)}
          ⟨∅, {(interval, id)}⟩ :=
        within_le (scratch_within id reads writes interval) ⟨by simp, subset_rfl⟩
      have hnot := compatible_not_intersected filter hi hwrite hc
      simp [barrierIf, hnot]
  | call id callee offset =>
    cases h
    have hnot := compatible_not_intersected filter hi
      (curBlockInfo_within hs (by simp)) hc
    simp [barrierIf, hnot]

theorem visitBlock_same {ops ops' : List Op} {T : Set Op} {info info' : BlockInfo}
    (hs : SummariesWithin body funcBlockInfoMap ops) (hi : Within body T info)
    (hwait : Op.asyncWait ∉ ops) (hpair : ops.Pairwise (Compatible body))
    (hc : ∀ early ∈ T, ∀ op ∈ ops, Compatible body early op)
    (h : visitBlock filter funcBlockInfoMap ops info = .ok (ops', info')) : ops' = ops := by
  induction ops generalizing info info' ops' T with
  | nil =>
    cases h
    rfl
  | cons op rest ih =>
    obtain ⟨⟨head, mid⟩, hu, h⟩ := except_bind_ok h
    obtain ⟨⟨tail, last⟩, hv, h⟩ := except_bind_ok h
    cases h
    have hop : SummariesWithin body funcBlockInfoMap [op] :=
      fun id g off hg => hs id g off (by simp_all)
    have hhead := update_same hop hi (fun e => hwait (by simp [e]))
      (fun early he => hc early he op (by simp)) hu
    have hmid := update_within hop (Set.mem_insert op T)
      (within_mono hi (Set.subset_insert op T)) hu
    have hpairs := List.pairwise_cons.mp hpair
    have htail := ih (fun id g off hg => hs id g off (by simp [hg])) hmid
      (fun e => hwait (by simp [e])) hpairs.2 (fun early he late hl => by
        rcases Set.mem_insert_iff.mp he with rfl | he
        · exact hpairs.1 late hl
        · exact hc early he late (by simp [hl])) hv
    simp [hhead, htail]

end Within

section Worklist

variable (body : FuncId → Function B) (funcBlockInfoMap : FuncId → BlockInfo) (f : Function B)

/-- The operations of a block, with the barriers the analysis may add. -/
def blockOps (b : B) : Set Op := {op | op = .barrier ∨ op ∈ f.ops b}

/-- `T b` holds the operations that may come before the block. -/
def Precedes (T : B → Set Op) : Prop :=
  ∀ b, ∀ c ∈ (f.terminator b).successors, T b ∪ blockOps f b ⊆ T c

def CalleesWithin : Prop := ∀ b, SummariesWithin body funcBlockInfoMap (f.ops b)

/-- Inputs and outputs record only what may come before them. -/
structure RecordsWithin (T : B → Set Op) (s : ResolveState B) : Prop where
  inputs : ∀ b, Within body (T b) (s.inputBlockInfoMap b)
  outputs : ∀ b output, s.outputBlockInfoMap b = some output →
    Within body (T b ∪ blockOps f b) output
  ops : ∀ b, ∀ op ∈ s.ops b, op ∈ blockOps f b

variable {body funcBlockInfoMap f} {T : B → Set Op}

theorem keeps_blockOps {ops : List Op} {b : B}
    (h : withoutBarriers ops = withoutBarriers (f.ops b)) : ∀ op ∈ ops, op ∈ blockOps f b := by
  intro op hop
  by_cases hb : op = .barrier
  · exact .inl hb
  · have hw : op ∈ withoutBarriers ops := by simpa [withoutBarriers, hb] using hop
    rw [h] at hw
    exact .inr (List.mem_of_mem_filter hw)

theorem summariesWithin_keeps (hcallees : CalleesWithin body funcBlockInfoMap f) {ops : List Op}
    {b : B} (h : ∀ op ∈ ops, op ∈ blockOps f b) : SummariesWithin body funcBlockInfoMap ops := by
  intro id callee offset hop
  rcases h _ hop with h | h
  · cases h
  · exact hcallees b id callee offset h

theorem initial_records : RecordsWithin body f T (initialState f) where
  inputs _ := within_empty _
  outputs b output h := by simp [initialState] at h
  ops _ _ hop := .inr hop

variable [DecidableEq B]

theorem visit_records (hT : Precedes f T) (hcallees : CalleesWithin body funcBlockInfoMap f)
    (s t : ResolveState B) (b : B) (rest : List B) (hs : RecordsWithin body f T s)
    (h : visit none funcBlockInfoMap f b { s with blockList := rest } = .ok t) :
    RecordsWithin body f T t := by
  obtain ⟨ops, info, hv, h⟩ := visit_cases funcBlockInfoMap f h
  have hsub : T b ⊆ T b ∪ blockOps f b := Set.subset_union_left
  have hinfo : Within body (T b ∪ blockOps f b) info :=
    visitBlock_within (summariesWithin_keeps hcallees (hs.ops b))
      (fun op hop => .inr (hs.ops b op hop)) (within_mono (hs.inputs b) hsub) hv
  have hops : ∀ c, ∀ op ∈ Function.update s.ops b ops c, op ∈ blockOps f c := by
    intro c op hop
    by_cases hcb : c = b
    · subst hcb
      rw [Function.update_self] at hop
      by_cases hbar : op = .barrier
      · exact .inl hbar
      · have hw : op ∈ withoutBarriers ops := by simpa [withoutBarriers, hbar] using hop
        rw [visitBlock_keeps none funcBlockInfoMap _ _ _ _ hv] at hw
        exact hs.ops c op (List.mem_of_mem_filter hw)
    · rw [Function.update_of_ne hcb] at hop
      exact hs.ops c op hop
  rcases h with ⟨-, rfl⟩ | ⟨output, rfl, hp⟩
  · exact ⟨hs.inputs, hs.outputs, hops⟩
  · have hout : Within body (T b ∪ blockOps f b)
        (((s.outputBlockInfoMap b).getD BlockInfo.empty).join info) := by
      refine within_join ?_ hinfo
      cases ho : s.outputBlockInfoMap b with
      | none => exact within_empty _
      | some output => exact hs.outputs b output ho
    refine ⟨fun c => ?_, fun c o ho => ?_, hp.ops ▸ hops⟩
    · by_cases hc : c ∈ (f.terminator b).successors
      · exact within_le (within_join (hs.inputs c) (within_mono hout (hT b c hc))) (hp.bounded c)
      · rw [hp.unchanged c hc]
        exact hs.inputs c
    · rw [hp.outputs] at ho
      by_cases hcb : c = b
      · subst hcb
        simp only [Function.update_self, Option.some.injEq] at ho
        exact ho ▸ hout
      · exact hs.outputs c o (by simpa [hcb] using ho)

theorem danglingInfo_within {s : ResolveState B} {ops : Set Op}
    (h : ∀ b output, s.outputBlockInfoMap b = some output → Within body ops output) :
    Within body ops (danglingInfo f s) := by
  unfold danglingInfo
  suffices hgen : ∀ (blocks : List B) (info : BlockInfo), Within body ops info →
      Within body ops (blocks.foldl (fun info block =>
        if f.terminator block = .ret then
          info.join ((s.outputBlockInfoMap block).getD BlockInfo.empty)
        else info) info) from
    hgen f.blocks _ (within_empty _)
  intro blocks
  induction blocks with
  | nil => exact fun info hi => hi
  | cons b rest ih =>
    intro info hi
    refine ih _ ?_
    dsimp only
    split_ifs
    · refine within_join hi ?_
      cases ho : s.outputBlockInfoMap b with
      | none => exact within_empty _
      | some output => exact h b output ho
    · exact hi

theorem resolve_within (hcallees : CalleesWithin body funcBlockInfoMap f) {fuel : ℕ}
    {f' : Function B} {summary : BlockInfo}
    (h : resolve none funcBlockInfoMap fuel f = .ok (f', summary)) :
    Within body {op | ∃ b, op ∈ f.ops b} summary := by
  obtain ⟨t, hloop, rfl, rfl⟩ := resolve_ok funcBlockInfoMap f h
  have hT : Precedes f (fun _ => {op | op = .barrier ∨ ∃ b, op ∈ f.ops b}) := by
    rintro b c - op (hop | hop)
    · exact hop
    · exact hop.imp id fun hop => ⟨b, hop⟩
  obtain ⟨hrec, -⟩ := resolveLoop_induction funcBlockInfoMap f
    (fun s t b rest hs _ hv => visit_records hT hcallees s t b rest hs hv) fuel _ t
    initial_records hloop
  have hsum := danglingInfo_within (f := f) fun b output ho => within_mono (hrec.outputs b output ho)
    (t := {op | op = .barrier ∨ ∃ b, op ∈ f.ops b})
    (Set.union_subset subset_rfl fun op hop => hop.imp id fun hop => ⟨b, hop⟩)
  refine ⟨fun i id hi => ?_, fun i id hi => ?_⟩
  · obtain ⟨op, rfl | hop, a, ha, hia⟩ := hsum.1 i id hi
    · cases ha
    · exact ⟨op, hop, a, ha, hia⟩
  · obtain ⟨op, rfl | hop, a, ha, hia⟩ := hsum.2 i id hi
    · cases ha
    · exact ⟨op, hop, a, ha, hia⟩

end Worklist

section Quiet

variable {body : FuncId → Function B} {funcBlockInfoMap : FuncId → BlockInfo} {g : FuncId}

theorem step_precedes (f : Function B) : Precedes f (fun b =>
    {op | op = .barrier ∨ ∃ c, Relation.TransGen (Step f) c b ∧ op ∈ f.ops c}) := by
  rintro b c hc op ((hop | ⟨d, hd, hop⟩) | (hop | hop))
  · exact .inl hop
  · exact .inr ⟨d, hd.tail hc, hop⟩
  · exact .inl hop
  · exact .inr ⟨b, .single hc, hop⟩

theorem barrier_compatible (op : Op) : Compatible body .barrier op := by
  rintro ⟨a, ha, -⟩
  cases ha

theorem quiet_resolve_same [DecidableEq B] (hq : Quiet body g)
    (hcallees : CalleesWithin body funcBlockInfoMap (body g)) {fuel : ℕ} {f' : Function B}
    {summary : BlockInfo}
    (h : resolve none funcBlockInfoMap fuel (body g) = .ok (f', summary)) : f' = body g := by
  obtain ⟨t, hloop, rfl, -⟩ := resolve_ok funcBlockInfoMap (body g) h
  have hT := step_precedes (body g)
  obtain ⟨⟨-, hsame⟩, -⟩ := resolveLoop_induction funcBlockInfoMap (body g)
    (P := fun s => RecordsWithin body (body g) _ s ∧ s.ops = (body g).ops)
    (fun s t b rest hs _ hv => ⟨visit_records hT hcallees s t b rest hs.1 hv, by
      obtain ⟨ops, info, hvisit, hcase⟩ := visit_cases funcBlockInfoMap (body g) hv
      rw [hs.2] at hvisit
      have hops : ops = (body g).ops b := by
        refine visitBlock_same (hcallees b) (hs.1.inputs b) (hq.no_wait b) (hq.in_block b) ?_ hvisit
        rintro early (rfl | ⟨c, hc, he⟩) late hl
        · exact barrier_compatible late
        · exact hq.across c b hc early he late hl
      have hupdate : Function.update s.ops b ops = (body g).ops := by
        rw [hops, hs.2, Function.update_eq_self]
      rcases hcase with ⟨-, rfl⟩ | ⟨output, -, hp⟩
      · exact hupdate
      · exact hp.ops.trans hupdate⟩)
    fuel _ t ⟨initial_records, rfl⟩ hloop
  rw [hsame]

def recorded (funcBlockInfoMap : FuncId → BlockInfo) : Op → BlockInfo
  | .effects id _ _ (some interval) => ⟨{(interval, id)}, {(interval, id)}⟩
  | op => curBlockInfo funcBlockInfoMap op

theorem transfer_recorded {op : Op} {info info' : BlockInfo}
    (h : transfer none funcBlockInfoMap op info = some info') :
    Le (recorded funcBlockInfoMap op) info' := by
  cases op with
  | barrier =>
    cases h
    exact le_refl _
  | asyncWait => exact ⟨by simp [recorded, curBlockInfo, BlockInfo.empty],
      by simp [recorded, curBlockInfo, BlockInfo.empty]⟩
  | effects id reads writes scratch =>
    cases scratch <;> simp only [transfer, Option.ite_none_left_eq_some, Option.some.injEq] at h <;>
      obtain ⟨-, rfl⟩ := h <;> exact le_join_right _ _
  | call id callee offset =>
    simp only [transfer, Option.ite_none_left_eq_some, Option.some.injEq] at h
    obtain ⟨-, rfl⟩ := h
    exact le_join_right _ _

theorem transfer_grows {op : Op} {info info' : BlockInfo} (hop : ¬ Synchronises op)
    (h : transfer none funcBlockInfoMap op info = some info') : Le info info' := by
  cases op with
  | barrier => exact absurd trivial hop
  | asyncWait => exact absurd trivial hop
  | effects id reads writes scratch =>
    cases scratch with
    | some interval => exact absurd trivial hop
    | none =>
      simp only [transfer, Option.ite_none_left_eq_some, Option.some.injEq] at h
      obtain ⟨-, rfl⟩ := h
      exact le_join_left _ _
  | call id callee offset =>
    simp only [transfer, Option.ite_none_left_eq_some, Option.some.injEq] at h
    obtain ⟨-, rfl⟩ := h
    exact le_join_left _ _

theorem transferBlock_grows {ops : List Op} {info info' : BlockInfo}
    (hops : ∀ op ∈ ops, ¬ Synchronises op)
    (h : transferBlock none funcBlockInfoMap ops info = some info') : Le info info' := by
  induction ops generalizing info with
  | nil =>
    cases h
    exact le_refl _
  | cons op rest ih =>
    obtain ⟨mid, hm, h⟩ := Option.bind_eq_some_iff.mp h
    exact le_trans (transfer_grows (hops op (by simp)) hm) (ih (fun o ho => hops o (by simp [ho])) h)

/-- What holds at the end of a block after which nothing synchronises stays
recorded until a return. -/
theorem recorded_until_return {f : Function B} {summary X : BlockInfo} {input : B → BlockInfo}
    {reached : B → Prop} (hf : PostFixed funcBlockInfoMap f summary input reached) {b c : B}
    (hpath : Relation.ReflTransGen (Step f) b c) (hret : f.terminator c = .ret)
    (hb : reached b) (hX : ∀ info, transferBlock none funcBlockInfoMap (f.ops b) (input b) =
      some info → Le X info)
    (hlate : ∀ d, Relation.TransGen (Step f) b d → ∀ op ∈ f.ops d, ¬ Synchronises op) :
    Le X summary := by
  induction hpath using Relation.ReflTransGen.head_induction_on with
  | refl =>
    obtain ⟨info, ht, -, hsum⟩ := hf.block c hb
    exact le_trans (hX info ht) (hsum hret)
  | head hstep hrest ih =>
    obtain ⟨info, ht, hsucc, -⟩ := hf.block _ hb
    obtain ⟨hd, hle⟩ := hsucc _ hstep
    refine ih hd (fun last hlast => ?_) fun e he => hlate e (he.head hstep)
    exact le_trans (hX info ht) (le_trans hle (transferBlock_grows (hlate _ (.single hstep)) hlast))

theorem recorded_within {op : Op} (h : SummariesWithin body funcBlockInfoMap [op]) :
    Within body {op} (recorded funcBlockInfoMap op) := by
  cases op with
  | barrier => exact within_empty _
  | asyncWait => exact within_empty _
  | effects id reads writes scratch =>
    cases scratch with
    | none => exact curBlockInfo_within h (by simp)
    | some interval => exact scratch_within id reads writes interval
  | call id callee offset => exact curBlockInfo_within h (by simp)

theorem untouched_recorded {op : Op} (h : SummariesWithin body funcBlockInfoMap [op])
    (hop : ¬ Touches body op) (info : BlockInfo) : Le (recorded funcBlockInfoMap op) info := by
  have hw := recorded_within h
  refine ⟨fun ⟨i, id⟩ hi => ?_, fun ⟨i, id⟩ hi => ?_⟩
  · obtain ⟨op, rfl, a, ha, hia⟩ := hw.1 i id hi
    exact absurd ⟨a, ha, .inl (List.ne_nil_of_mem hia)⟩ hop
  · obtain ⟨op, rfl, a, ha, hia⟩ := hw.2 i id hi
    exact absurd ⟨a, ha, .inr (List.ne_nil_of_mem hia)⟩ hop

theorem quiet_recorded (hq : Quiet body g)
    (hcallees : CalleesWithin body funcBlockInfoMap (body g)) {summary : BlockInfo}
    {input : B → BlockInfo} {reached : B → Prop}
    (hf : PostFixed funcBlockInfoMap (body g) summary input reached) {b : B} (hb : reached b)
    {op : Op} (hop : op ∈ (body g).ops b) : Le (recorded funcBlockInfoMap op) summary := by
  by_cases htouch : Touches body op
  · obtain ⟨c, hpath, hret⟩ := hq.returns b
    obtain ⟨before, after, hops⟩ := List.append_of_mem hop
    have hpair := hq.in_block b
    rw [hops] at hpair
    have hafter := (List.pairwise_cons.mp (List.pairwise_append.mp hpair).2.1).1
    refine recorded_until_return hf hpath hret hb (fun info ht => ?_)
      fun d hd late hl => (hq.across b d hd op hop late hl htouch).1
    rw [hops, transferBlock_append] at ht
    obtain ⟨mid, -, ht⟩ := Option.bind_eq_some_iff.mp ht
    obtain ⟨next, hnext, ht⟩ := Option.bind_eq_some_iff.mp ht
    exact le_trans (transfer_recorded hnext)
      (transferBlock_grows (fun late hl => (hafter late hl htouch).1) ht)
  · exact untouched_recorded (fun id callee offset hmem => hcallees b id callee offset
      (by simp_all)) htouch summary

end Quiet

section Exposed

variable {funcBlockInfoMap : FuncId → BlockInfo} {callRun callPart : FuncId → ℕ → Trace → Prop}

/-- Before its first synchronisation a call only makes accesses its summary
records. -/
def CallsExposed (funcBlockInfoMap : FuncId → BlockInfo) (call : FuncId → ℕ → Trace → Prop)
    (ops : List Op) : Prop :=
  ∀ id callee offset, Op.call id callee offset ∈ ops → ∀ tr, call callee offset tr →
    Covers (funcBlockInfoMap callee) (exposed tr)

theorem covers_union {info : BlockInfo} {P Q : Set Access} (hP : Covers info P)
    (hQ : Covers info Q) : Covers info (P ∪ Q) := by
  rintro a (ha | ha)
  · exact hP a ha
  · exact hQ a ha

theorem covers_subset {info : BlockInfo} {P Q : Set Access} (hQ : Covers info Q) (h : P ⊆ Q) :
    Covers info P := fun a ha => hQ a (h ha)

theorem covers_append {info : BlockInfo} {s t : Trace} (hs : Covers info (exposed s))
    (ht : Covers info (exposed t)) : Covers info (exposed (s ++ t)) :=
  covers_subset (covers_union hs ht) (exposed_append_subset s t)

theorem op_exposed {op : Op} {tr : Trace} (hc : CallsExposed funcBlockInfoMap callRun [op])
    (h : OpRun callRun op tr) : Covers (recorded funcBlockInfoMap op) (exposed tr) := by
  cases h with
  | barrier => exact covers_empty _
  | asyncWait => exact covers_empty _
  | effects id reads writes =>
    exact covers_insert (covers_empty _) (covers_effects id reads writes)
  | scratch id reads writes interval =>
    refine covers_insert (covers_empty _) ?_
    rintro a rfl
    simp [recorded]
  | call id callee offset tr h => exact hc id callee offset (by simp) tr h

theorem ops_exposed {ops : List Op} {tr : Trace} {summary : BlockInfo}
    (hc : CallsExposed funcBlockInfoMap callRun ops)
    (hle : ∀ op ∈ ops, Le (recorded funcBlockInfoMap op) summary) (h : OpsRun callRun ops tr) :
    Covers summary (exposed tr) := by
  induction h with
  | nil => exact covers_empty _
  | @cons op rest s t hop hrest ih =>
    refine covers_append (covers_mono (op_exposed (fun id g off hg => hc id g off (by simp_all)) hop)
      (hle op (by simp))) ?_
    exact ih (fun id g off hg => hc id g off (by simp [hg])) fun o ho => hle o (by simp [ho])

variable {f : Function B} {summary : BlockInfo} {input : B → BlockInfo} {reached : B → Prop}

/-- A run of a function whose reached operations are all recorded exposes only
what the summary covers. -/
theorem run_exposed (hf : PostFixed funcBlockInfoMap f summary input reached)
    (hle : ∀ b, reached b → ∀ op ∈ f.ops b, Le (recorded funcBlockInfoMap op) summary)
    (hc : ∀ b, CallsExposed funcBlockInfoMap callRun (f.ops b))
    (hp : ∀ b, CallsExposed funcBlockInfoMap callPart (f.ops b)) {b : B} {tr : Trace}
    (hr : Run callRun callPart f b tr) (hb : reached b) : Covers summary (exposed tr) := by
  induction hr with
  | @halt b done rest tr hops h =>
    exact ops_exposed (fun id g off hg => hc b id g off (by simp [hops, hg]))
      (fun op hop => hle b hb op (by simp [hops, hop])) h
  | @haltCall b done rest id callee offset s t hops h hpart =>
    refine covers_append (ops_exposed (fun id g off hg => hc b id g off (by simp [hops, hg]))
      (fun op hop => hle b hb op (by simp [hops, hop])) h) ?_
    have hmem : Op.call id callee offset ∈ f.ops b := by simp [hops]
    exact covers_mono (hp b id callee offset hmem t hpart) (hle b hb _ hmem)
  | @step b c s t h hstep hr ih =>
    obtain ⟨info, -, hsucc, -⟩ := hf.block b hb
    exact covers_append (ops_exposed (hc b) (hle b hb) h) (ih (hsucc c hstep).1)

theorem complete_exposed (hf : PostFixed funcBlockInfoMap f summary input reached)
    (hle : ∀ b, reached b → ∀ op ∈ f.ops b, Le (recorded funcBlockInfoMap op) summary)
    (hc : ∀ b, CallsExposed funcBlockInfoMap callRun (f.ops b)) {b : B} {tr : Trace}
    (hr : Complete callRun f b tr) (hb : reached b) : Covers summary (exposed tr) :=
  run_exposed hf hle hc (fun _ _ _ _ _ _ h => h.elim)
    (hr.run : Run callRun (fun _ _ _ => False) f b tr) hb

end Exposed

end TritonCpu.MembarSummary
