import TritonCpu.MembarSound

/-!
# What a visit does to a block

A block that has no synchronisation after a visit passes its input on with the
accesses of its operations. A block that has one leaves the same accesses
pending after every later visit, whatever its input.
-/

set_option autoImplicit false

namespace TritonCpu.MembarTermination
open Membar MembarTrace MembarSound

def Syncs : Op → Prop
  | .barrier => True
  | .asyncWait => True
  | .effects _ _ _ scratch => scratch.isSome = true
  | .call _ _ _ => False

instance : (op : Op) → Decidable (Syncs op)
  | .barrier => .isTrue trivial
  | .asyncWait => .isTrue trivial
  | .effects _ _ _ scratch => inferInstanceAs (Decidable (scratch.isSome = true))
  | .call _ _ _ => .isFalse id

def Synchronises (ops : List Op) : Prop := ∃ op ∈ ops, Syncs op

instance (ops : List Op) : Decidable (Synchronises ops) :=
  inferInstanceAs (Decidable (∃ op ∈ ops, Syncs op))

def ScratchAlone : Op → Prop
  | .effects _ reads writes (some _) => reads = [] ∧ writes = []
  | _ => True

instance : (op : Op) → Decidable (ScratchAlone op)
  | .effects _ reads writes (some _) => inferInstanceAs (Decidable (reads = [] ∧ writes = []))
  | .effects _ _ _ none => .isTrue trivial
  | .barrier => .isTrue trivial
  | .asyncWait => .isTrue trivial
  | .call _ _ _ => .isTrue trivial

theorem not_synchronises_cons {op : Op} {rest : List Op} (h : ¬ Synchronises (op :: rest)) :
    ¬ Syncs op ∧ ¬ Synchronises rest :=
  ⟨fun hop => h ⟨op, by simp, hop⟩, fun ⟨x, hx, hs⟩ => h ⟨x, by simp [hx], hs⟩⟩

theorem empty_join (info : BlockInfo) : BlockInfo.empty.join info = info := by
  ext <;> simp [BlockInfo.join, BlockInfo.empty]

theorem join_empty (info : BlockInfo) : info.join BlockInfo.empty = info := by
  ext <;> simp [BlockInfo.join, BlockInfo.empty]

theorem join_assoc (a b c : BlockInfo) : (a.join b).join c = a.join (b.join c) := by
  ext <;> simp [BlockInfo.join]

theorem join_mono {a b : BlockInfo} (h : Le a b) (c : BlockInfo) : Le (a.join c) (b.join c) :=
  join_le (le_trans h (le_join_left _ _)) (le_join_right _ _)

theorem le_antisymm {a b : BlockInfo} (hab : Le a b) (hba : Le b a) : a = b :=
  BlockInfo.ext (hab.1.antisymm hba.1) (hab.2.antisymm hba.2)

theorem empty_le (info : BlockInfo) : Le BlockInfo.empty info :=
  ⟨Finset.empty_subset _, Finset.empty_subset _⟩

section Visits

variable {filter : MembarFilterFn} {funcBlockInfoMap : FuncId → BlockInfo}

def opAccesses (funcBlockInfoMap : FuncId → BlockInfo) : Op → BlockInfo
  | .effects id _ _ (some interval) => ⟨{(interval, id)}, {(interval, id)}⟩
  | op => curBlockInfo funcBlockInfoMap op

def accesses (funcBlockInfoMap : FuncId → BlockInfo) : List Op → BlockInfo
  | [] => BlockInfo.empty
  | op :: rest => (opAccesses funcBlockInfoMap op).join (accesses funcBlockInfoMap rest)

theorem accesses_withoutBarriers (ops : List Op) :
    accesses funcBlockInfoMap (withoutBarriers ops) = accesses funcBlockInfoMap ops := by
  induction ops with
  | nil => rfl
  | cons op rest ih =>
    by_cases hop : op = .barrier
    · subst hop
      show accesses funcBlockInfoMap (withoutBarriers rest) =
        BlockInfo.empty.join (accesses funcBlockInfoMap rest)
      rw [empty_join, ih]
    · have hcons : withoutBarriers (op :: rest) = op :: withoutBarriers rest := by
        simp [withoutBarriers, hop]
      rw [hcons, accesses, accesses, ih]

theorem visitBlock_cons {op : Op} {rest head : List Op} {info mid : BlockInfo}
    (h : update filter funcBlockInfoMap op rest.head? info = .ok (head, mid)) :
    visitBlock filter funcBlockInfoMap (op :: rest) info =
      (visitBlock filter funcBlockInfoMap rest mid).map fun r => (head ++ r.1, r.2) := by
  rw [visitBlock, h]
  rfl

/-- The visit of `head`, then of what follows it from `mid`. -/
def Passes (filter : MembarFilterFn) (funcBlockInfoMap : FuncId → BlockInfo) (head : List Op)
    (info mid : BlockInfo) : Prop :=
  ∀ tail, ∃ done, visitBlock filter funcBlockInfoMap (head ++ tail) info =
    (visitBlock filter funcBlockInfoMap tail mid).map fun r => (done ++ r.1, r.2)

theorem passes_cons {op : Op} {head done : List Op} {info mid last : BlockInfo}
    (hop : ∀ tail, update filter funcBlockInfoMap op (head ++ tail).head? info = .ok (done, mid))
    (h : Passes filter funcBlockInfoMap head mid last) :
    Passes filter funcBlockInfoMap (op :: head) info last := by
  intro tail
  obtain ⟨rest, hrest⟩ := h tail
  refine ⟨done ++ rest, ?_⟩
  rw [List.cons_append, visitBlock_cons (hop tail), hrest]
  cases visitBlock filter funcBlockInfoMap tail last with
  | error e => rfl
  | ok r => exact congrArg Except.ok (Prod.ext (List.append_assoc _ _ _).symm rfl)

theorem passes_nil (info : BlockInfo) : Passes filter funcBlockInfoMap [] info info := by
  intro tail
  refine ⟨[], ?_⟩
  cases h : visitBlock filter funcBlockInfoMap tail info <;> exact h

theorem passes_barrier {head : List Op} {mid : BlockInfo}
    (h : Passes filter funcBlockInfoMap head BlockInfo.empty mid) (info : BlockInfo) :
    Passes filter funcBlockInfoMap (.barrier :: head) info mid :=
  passes_cons (fun _ => rfl) h

theorem passes_inserted {op : Op}
    (h : ∀ next, update filter funcBlockInfoMap op next BlockInfo.empty =
      .ok ([op], BlockInfo.empty.join (opAccesses funcBlockInfoMap op))) (info : BlockInfo) :
    Passes filter funcBlockInfoMap [.barrier, op] info (opAccesses funcBlockInfoMap op) := by
  rw [← empty_join (opAccesses funcBlockInfoMap op)]
  exact passes_barrier (passes_cons (fun _ => h _) (passes_nil _)) info

theorem passes_scratch {id : OpId} {interval : Interval} {reads writes : List Interval}
    (h : ScratchAlone (.effects id reads writes (some interval))) (info : BlockInfo) :
    Passes filter funcBlockInfoMap [.effects id reads writes (some interval)] info
      (opAccesses funcBlockInfoMap (.effects id reads writes (some interval))) := by
  obtain ⟨rfl, rfl⟩ := h
  have hop (next : Option Op) : update filter funcBlockInfoMap
      (.effects id [] [] (some interval)) next info =
        .ok (barrierIf (info.isIntersected filter ⟨∅, {(interval, id)}⟩)
          (.effects id [] [] (some interval)), ⟨{(interval, id)}, {(interval, id)}⟩) := by
    simp only [update]
    rw [if_neg (by simp [curBlockInfo, intervalMap]), BlockInfo.sync, empty_join]
  exact passes_cons (fun _ => hop _) (passes_nil _)

/-- What `update` does at an operation: it passes it on, or it makes the
operations that stand for it leave its own accesses only, whatever is pending
before them. An `async_wait` with a barrier after it is left to that barrier. -/
theorem update_cases {op : Op} {next : Option Op} {info mid : BlockInfo} {head : List Op}
    (h : update filter funcBlockInfoMap op next info = .ok (head, mid)) :
    (¬ Syncs op ∧ head = [op] ∧ mid = info.join (opAccesses funcBlockInfoMap op)) ∨
      (op = .asyncWait ∧ next = some .barrier ∧ head = [op] ∧ mid = info) ∨
      (Synchronises head ∧ mid = opAccesses funcBlockInfoMap op ∧
        ∀ info', Passes filter funcBlockInfoMap head info' mid) := by
  have hempty := empty_not_intersected filter
  cases op with
  | barrier =>
    cases h
    exact .inr (.inr ⟨⟨.barrier, by simp, trivial⟩, rfl, passes_barrier (passes_nil _)⟩)
  | asyncWait =>
    simp only [update] at h
    split_ifs at h with hnext
    · cases h
      exact .inr (.inl ⟨rfl, hnext, rfl, rfl⟩)
    · cases h
      refine .inr (.inr ⟨⟨.barrier, by simp, trivial⟩, rfl, fun info' => ?_⟩)
      exact passes_cons (fun _ => rfl) (passes_barrier (passes_nil _) info')
  | effects id reads writes scratch =>
    cases scratch with
    | none =>
      simp only [update, barrierIf, Except.ok.injEq, Prod.mk.injEq] at h
      obtain ⟨rfl, rfl⟩ := h
      split_ifs with hc
      · refine .inr (.inr ⟨⟨.barrier, by simp, trivial⟩, empty_join _, ?_⟩)
        rw [BlockInfo.sync, empty_join]
        exact passes_inserted fun next => by simp [update, barrierIf, opAccesses, hempty]
      · exact .inl ⟨by simp [Syncs], rfl, rfl⟩
    | some interval =>
      simp only [update] at h
      split_ifs at h with hd
      simp only [Except.ok.injEq, Prod.mk.injEq] at h
      obtain ⟨rfl, rfl⟩ := h
      have halone : ScratchAlone (.effects id reads writes (some interval)) := by
        show reads = [] ∧ writes = []
        simpa [curBlockInfo, intervalMap, Finset.not_nonempty_iff_eq_empty] using hd
      refine .inr (.inr ⟨⟨.effects id reads writes (some interval), ?_, rfl⟩, empty_join _, ?_⟩)
      · unfold barrierIf
        split_ifs <;> simp
      · rw [BlockInfo.sync, empty_join]
        unfold barrierIf
        split_ifs
        · exact passes_barrier (passes_scratch halone _)
        · exact passes_scratch halone
  | call id callee offset =>
    simp only [update, barrierIf, Except.ok.injEq, Prod.mk.injEq] at h
    obtain ⟨rfl, rfl⟩ := h
    split_ifs with hc
    · refine .inr (.inr ⟨⟨.barrier, by simp, trivial⟩, empty_join _, ?_⟩)
      rw [BlockInfo.sync, empty_join]
      exact passes_inserted fun next => by simp [update, barrierIf, opAccesses, hempty]
    · exact .inl ⟨by simp [Syncs], rfl, rfl⟩

theorem update_ok {op : Op} (h : ScratchAlone op) (next : Option Op) (info : BlockInfo) :
    ∃ r, update filter funcBlockInfoMap op next info = .ok r := by
  cases op with
  | barrier => exact ⟨_, rfl⟩
  | asyncWait =>
    simp only [update]
    split_ifs <;> exact ⟨_, rfl⟩
  | effects id reads writes scratch =>
    cases scratch with
    | none => exact ⟨_, rfl⟩
    | some interval =>
      obtain ⟨rfl, rfl⟩ := h
      simp only [update]
      rw [if_neg (by simp [curBlockInfo, intervalMap])]
      exact ⟨_, rfl⟩
  | call id callee offset => exact ⟨_, rfl⟩

theorem visitBlock_ok {ops : List Op} (h : ∀ op ∈ ops, ScratchAlone op) (info : BlockInfo) :
    ∃ r, visitBlock filter funcBlockInfoMap ops info = .ok r := by
  induction ops generalizing info with
  | nil => exact ⟨_, rfl⟩
  | cons op rest ih =>
    obtain ⟨⟨head, mid⟩, hu⟩ := update_ok (h op (by simp)) rest.head? info
    obtain ⟨r, hr⟩ := ih (fun x hx => h x (by simp [hx])) mid
    rw [visitBlock_cons hu, hr]
    exact ⟨_, rfl⟩

theorem visitBlock_cons_ok {op : Op} {rest ops : List Op} {info out : BlockInfo}
    (h : visitBlock filter funcBlockInfoMap (op :: rest) info = .ok (ops, out)) :
    ∃ head mid tail, update filter funcBlockInfoMap op rest.head? info = .ok (head, mid) ∧
      visitBlock filter funcBlockInfoMap rest mid = .ok (tail, out) ∧ ops = head ++ tail := by
  obtain ⟨⟨head, mid⟩, hu, h⟩ := except_bind_ok h
  obtain ⟨⟨tail, last⟩, hv, h⟩ := except_bind_ok h
  cases h
  exact ⟨head, mid, tail, hu, hv, rfl⟩

theorem syncs_kept {op : Op} {next : Option Op} {info mid : BlockInfo} {head : List Op}
    (h : update filter funcBlockInfoMap op next info = .ok (head, mid)) (hop : Syncs op) :
    Synchronises head := by
  rcases update_cases h with ⟨hnot, -⟩ | ⟨-, -, rfl, -⟩ | ⟨hsync, -⟩
  · exact absurd hop hnot
  · exact ⟨op, by simp, hop⟩
  · exact hsync

theorem synchronises_kept {ops ops' : List Op} {info out : BlockInfo}
    (h : visitBlock filter funcBlockInfoMap ops info = .ok (ops', out))
    (hsync : Synchronises ops) : Synchronises ops' := by
  induction ops generalizing info out ops' with
  | nil =>
    obtain ⟨op, hop, -⟩ := hsync
    cases hop
  | cons op rest ih =>
    obtain ⟨head, mid, tail, hu, hv, rfl⟩ := visitBlock_cons_ok h
    by_cases hop : Syncs op
    · obtain ⟨x, hx, hs⟩ := syncs_kept hu hop
      exact ⟨x, by simp [hx], hs⟩
    · have hrest : Synchronises rest := by
        obtain ⟨x, hx, hs⟩ := hsync
        rcases List.mem_cons.mp hx with rfl | hx
        · exact absurd hs hop
        · exact ⟨x, hx, hs⟩
      obtain ⟨x, hx, hs⟩ := ih hv hrest
      exact ⟨x, by simp [hx], hs⟩

theorem visitBlock_passing {ops ops' : List Op} {info out : BlockInfo}
    (h : visitBlock filter funcBlockInfoMap ops info = .ok (ops', out))
    (hnot : ¬ Synchronises ops') :
    ops' = ops ∧ out = info.join (accesses funcBlockInfoMap ops) := by
  induction ops generalizing info out ops' with
  | nil =>
    cases h
    exact ⟨rfl, (join_empty info).symm⟩
  | cons op rest ih =>
    obtain ⟨head, mid, tail, hu, hv, rfl⟩ := visitBlock_cons_ok h
    have htail : ¬ Synchronises tail := fun ⟨x, hx, hs⟩ => hnot ⟨x, by simp [hx], hs⟩
    have hhead : ¬ Synchronises head := fun ⟨x, hx, hs⟩ => hnot ⟨x, by simp [hx], hs⟩
    obtain ⟨rfl, rfl⟩ := ih hv htail
    rcases update_cases hu with ⟨-, rfl, rfl⟩ | ⟨rfl, -, rfl, -⟩ | ⟨hsync, -⟩
    · exact ⟨rfl, join_assoc _ _ _⟩
    · exact absurd ⟨.asyncWait, by simp, trivial⟩ hhead
    · exact absurd hsync hhead

theorem not_intersected_empty (filter : MembarFilterFn) (info : BlockInfo) :
    ¬ info.isIntersected filter BlockInfo.empty := by
  simp [BlockInfo.isIntersected, mapsIntersected, BlockInfo.empty]

theorem update_accessless {op : Op} {next : Option Op} {info : BlockInfo} (hnot : ¬ Syncs op)
    (hempty : opAccesses funcBlockInfoMap op = BlockInfo.empty) :
    update filter funcBlockInfoMap op next info = .ok ([op], info) := by
  have hkeep := not_intersected_empty filter info
  cases op with
  | barrier => exact absurd trivial hnot
  | asyncWait => exact absurd trivial hnot
  | effects id reads writes scratch =>
    cases scratch with
    | none =>
      have hcur : curBlockInfo funcBlockInfoMap (.effects id reads writes none) =
          BlockInfo.empty := hempty
      simp only [update, barrierIf, hcur, if_neg hkeep, join_empty]
    | some interval => exact absurd rfl hnot
  | call id callee offset =>
    have hcur : curBlockInfo funcBlockInfoMap (.call id callee offset) = BlockInfo.empty := hempty
    simp only [update, barrierIf, hcur, if_neg hkeep, join_empty]

theorem visitBlock_accessless {ops : List Op} (hnot : ¬ Synchronises ops)
    (hempty : accesses funcBlockInfoMap ops = BlockInfo.empty) (info : BlockInfo) :
    visitBlock filter funcBlockInfoMap ops info = .ok (ops, info) := by
  induction ops with
  | nil => rfl
  | cons op rest ih =>
    obtain ⟨hop, hrest⟩ := not_synchronises_cons hnot
    have hle := le_join_left (opAccesses funcBlockInfoMap op) (accesses funcBlockInfoMap rest)
    have hle' := le_join_right (opAccesses funcBlockInfoMap op) (accesses funcBlockInfoMap rest)
    rw [← accesses, hempty] at hle hle'
    rw [visitBlock_cons (update_accessless hop (le_antisymm hle (empty_le _))),
      ih hrest (le_antisymm hle' (empty_le _))]
    rfl

theorem visitBlock_bounded {ops ops' : List Op} {info out : BlockInfo}
    (h : visitBlock filter funcBlockInfoMap ops info = .ok (ops', out)) :
    Le out (info.join (accesses funcBlockInfoMap ops)) := by
  induction ops generalizing info out ops' with
  | nil =>
    cases h
    exact le_join_left _ _
  | cons op rest ih =>
    obtain ⟨head, mid, tail, hu, hv, rfl⟩ := visitBlock_cons_ok h
    have hmid : Le mid (info.join (opAccesses funcBlockInfoMap op)) := by
      rcases update_cases hu with ⟨-, -, rfl⟩ | ⟨-, -, -, rfl⟩ | ⟨-, rfl, -⟩
      · exact le_refl _
      · exact le_join_left _ _
      · exact le_join_right _ _
    rw [accesses, ← join_assoc]
    exact le_trans (ih hv) (join_mono hmid _)

theorem visitBlock_append {head tail ops : List Op} {info out : BlockInfo}
    (h : visitBlock filter funcBlockInfoMap (head ++ tail) info = .ok (ops, out)) :
    ∃ mid tail', visitBlock filter funcBlockInfoMap tail mid = .ok (tail', out) := by
  induction head generalizing info ops with
  | nil => exact ⟨info, ops, h⟩
  | cons op head ih =>
    obtain ⟨-, mid, rest, -, hv, -⟩ := visitBlock_cons_ok h
    exact ih hv

/-- A block that synchronises after a visit leaves the same accesses pending
after every other visit: those after its last synchronisation. -/
theorem visitBlock_again {ops ops' : List Op} {info out : BlockInfo}
    (h : visitBlock filter funcBlockInfoMap ops info = .ok (ops', out))
    (hsync : Synchronises ops') {again : List Op} {info' out' : BlockInfo}
    (h' : visitBlock filter funcBlockInfoMap ops' info' = .ok (again, out')) : out' = out := by
  induction ops generalizing info out ops' info' out' again with
  | nil =>
    cases h
    obtain ⟨op, hop, -⟩ := hsync
    cases hop
  | cons op rest ih =>
    obtain ⟨head, mid, tail, hu, hv, rfl⟩ := visitBlock_cons_ok h
    by_cases htail : Synchronises tail
    · obtain ⟨mid', tail', hv'⟩ := visitBlock_append h'
      exact ih hv htail hv'
    · obtain ⟨rfl, -⟩ := visitBlock_passing hv htail
      have hhead : Synchronises head := by
        obtain ⟨x, hx, hs⟩ := hsync
        rcases List.mem_append.mp hx with hx | hx
        · exact ⟨x, hx, hs⟩
        · exact absurd ⟨x, hx, hs⟩ htail
      rcases update_cases hu with ⟨hnot, rfl, -⟩ | ⟨-, hnext, -, -⟩ | ⟨-, -, hpasses⟩
      · obtain ⟨x, hx, hs⟩ := hhead
        exact absurd (List.mem_singleton.mp hx ▸ hs) hnot
      · -- the barrier after an `async_wait` is in the tail
        exact absurd ⟨.barrier, List.mem_of_mem_head? hnext, trivial⟩ htail
      · obtain ⟨done, hdone⟩ := hpasses info' tail
        rw [hdone, hv] at h'
        cases h'
        rfl

end Visits

end TritonCpu.MembarTermination
