import Mathlib.Algebra.BigOperators.Group.List.Basic
import Mathlib.Algebra.Ring.Int.Defs
import TritonCpu.BlockSemantics

/-!
# Full-tile region versioning

One guard for a block asks whether all tiles that its masked accesses move are
full. The masks are dropped in one version of the block, from the first masked
access on, and kept in the other. The guard is computed before the first masked
access by clones of the operations that its mask dimensions depend on.
-/

set_option autoImplicit false

namespace TritonCpu.FullTile

open List

variable {E X : Type}

section Analysis

def Op.isMaskedAccess (op : Op E X) : Bool :=
  match op.access? with
  | some access => !access.maskDims.isEmpty
  | none => false

def Op.isVersionableAccess (op : Op E X) : Bool :=
  match op.access? with
  | some access => !access.maskDims.isEmpty && access.definedByMakeTensorPtr &&
      access.shape.length == access.maskDims.length
  | none => false

def tileBytes (access : Access) : ℤ :=
  match access.elemBits with
  | none => -1
  | some bits => ((access.shape.prod * bits / 8 : ℕ) : ℤ)

def maskedAccesses (ops : List (Op E X)) : List Access :=
  (ops.filter Op.isVersionableAccess).filterMap Op.access?

def maskNames (accesses : List Access) : List Name :=
  accesses.flatMap fun access => access.maskDims.filterMap OpFoldResult.value?

/-- The values that the given ones depend on through operands; what a region uses
from above is not followed. Operations stand before their uses, so one pass from
the end of the block finds them all. -/
def backwardSlice : List (Op E X) → List Name → List Name
  | [], needed => needed
  | op :: ops, needed =>
    let needed := backwardSlice ops needed
    if op.results.any needed.contains then op.operands ++ needed else needed

structure VersionableBlock where
  maskedAccesses : List Access
  condDefs : List Name

def Op.inSlice (condDefs : List Name) (op : Op E X) : Bool := op.results.any condDefs.contains

def condSlice (condDefs : List Name) (ops : List (Op E X)) : List (Op E X) :=
  ops.filter (Op.inSlice condDefs)

def analyzeBlock (maxTileBytes maxRegionTileBytes : ℤ) (ops : List (Op E X)) :
    Option VersionableBlock :=
  if ops.any fun op => op.isMaskedAccess && !op.isVersionableAccess then none
  else
    let accesses := maskedAccesses ops
    if accesses.isEmpty then none
    else if maxTileBytes ≤ 0 then none
    else if accesses.any fun access =>
        decide (tileBytes access < 0) || decide (maxTileBytes < tileBytes access) then none
    else if maxRegionTileBytes < (accesses.map tileBytes).sum then none
    else
      let condDefs := backwardSlice ops (maskNames accesses)
      if (condSlice condDefs ops).all Op.isMemoryEffectFree then some ⟨accesses, condDefs⟩
      else none

end Analysis

section Version

def OpFoldResult.constant? : OpFoldResult → Option ℤ
  | .attr n => some n
  | .constant _ n => some n
  | .value _ => none

/-- The comparisons of the guard; tiles that are statically whole are left out. -/
def conditions (accesses : List Access) : List (OpFoldResult × ℕ) :=
  accesses.flatMap fun access => (access.maskDims.zip access.shape).filter fun c =>
    c.1.constant? != some (c.2 : ℤ)

def Op.cloneUnmasked : Op E X → Op E X
  | .load result access _ => .load result { access with maskDims := [] } none
  | .store access value => .store { access with maskDims := [] } value
  | op => op

def Op.cloneFull (op : Op E X) : Op E X :=
  if op.isVersionableAccess then op.cloneUnmasked else op

def beforeFirst (ops : List (Op E X)) : List (Op E X) :=
  ops.takeWhile fun op => !op.isVersionableAccess

def fromFirst (ops : List (Op E X)) : List (Op E X) :=
  ops.dropWhile fun op => !op.isVersionableAccess

/-- Nothing is versioned when every tile is statically whole; the clones of the
slice are then constants that nothing uses. -/
def versionBlock (info : VersionableBlock) (args : List Name) (ops : List (Op E X))
    (terminator usedLater : List Name) : Option (Block E X) :=
  if (conditions info.maskedAccesses).isEmpty then none
  else some (.versioned args (beforeFirst ops) (condSlice info.condDefs ops)
    (conditions info.maskedAccesses) ((fromFirst ops).map Op.cloneFull) (fromFirst ops)
    terminator usedLater)

variable (maxTileBytes maxRegionTileBytes : ℤ)

-- All blocks are analysed before the first one is rewritten, and the blocks inside an
-- operation are rewritten before the block that contains it.
mutual

def Op.version : Op E X → Op E X
  | .effect results operands captured regions perform =>
    .effect results operands captured (versionBlocks regions) perform
  | .load result access other => .load result access other
  | .store access value => .store access value
  | .pure results operands captured compute => .pure results operands captured compute

def versionOps : List (Op E X) → List (Op E X)
  | [] => []
  | op :: ops => op.version :: versionOps ops

def Block.version : Block E X → Block E X
  | .plain scope args ops terminator usedLater =>
    ((analyzeBlock maxTileBytes maxRegionTileBytes ops).bind fun info =>
      versionBlock info args (versionOps ops) terminator usedLater).getD
        (.plain scope args (versionOps ops) terminator usedLater)
  | .versioned args before guard conditions full rest terminator usedLater =>
    .versioned args before guard conditions full rest terminator usedLater

def versionBlocks : List (Block E X) → List (Block E X)
  | [] => []
  | block :: blocks => block.version :: versionBlocks blocks

end

end Version

section Scope

def resultsOf (ops : List (Op E X)) : List Name := ops.flatMap Op.results

def Op.uses (op : Op E X) : List Name := op.operands ++ op.captured

def Scoped : List Name → List (Op E X) → Prop
  | _, [] => True
  | scope, op :: ops => (∀ v ∈ op.uses, v ∈ scope) ∧ (∀ r ∈ op.results, r ∉ scope) ∧
      op.results.Nodup ∧ Scoped (scope ++ op.results) ops

def Available : List Name → List (Op E X) → Prop
  | _, [] => True
  | scope, op :: ops => (∀ v ∈ op.uses, v ∈ scope) ∧ Available (scope ++ op.results) ops

variable {scope : List Name} {ops ops' : List (Op E X)}

theorem mem_resultsOf {r : Name} : r ∈ resultsOf ops ↔ ∃ op ∈ ops, r ∈ op.results :=
  mem_flatMap

theorem resultsOf_cons (op : Op E X) (ops : List (Op E X)) :
    resultsOf (op :: ops) = op.results ++ resultsOf ops :=
  flatMap_cons

theorem scoped_append : Scoped scope (ops ++ ops') ↔
    Scoped scope ops ∧ Scoped (scope ++ resultsOf ops) ops' := by
  induction ops generalizing scope with
  | nil => simp [Scoped, resultsOf]
  | cons op ops ih =>
    rw [cons_append, Scoped, Scoped, ih, resultsOf_cons, ← append_assoc]
    simp only [and_assoc]

theorem available_append : Available scope (ops ++ ops') ↔
    Available scope ops ∧ Available (scope ++ resultsOf ops) ops' := by
  induction ops generalizing scope with
  | nil => simp [Available, resultsOf]
  | cons op ops ih =>
    rw [cons_append, Available, Available, ih, resultsOf_cons, ← append_assoc]
    simp only [and_assoc]

theorem available_of_uses (h : ∀ op ∈ ops, ∀ v ∈ op.uses, v ∈ scope) : Available scope ops := by
  induction ops generalizing scope with
  | nil => trivial
  | cons op ops ih =>
    exact ⟨h op mem_cons_self, ih fun op' hop v hv =>
      mem_append_left _ (h op' (mem_cons_of_mem _ hop) v hv)⟩

theorem available_mono {scope' : List Name} (hsub : ∀ v ∈ scope, v ∈ scope')
    (h : Available scope ops) : Available scope' ops := by
  induction ops generalizing scope scope' with
  | nil => trivial
  | cons op ops ih =>
    refine ⟨fun v hv => hsub v (h.1 v hv), ih ?_ h.2⟩
    intro v hv
    rcases mem_append.mp hv with hscope | hresult
    · exact mem_append_left _ (hsub v hscope)
    · exact mem_append_right _ hresult

theorem Available.uses (h : Available scope ops) {op : Op E X} (hop : op ∈ ops) {v : Name}
    (hv : v ∈ op.uses) : v ∈ scope ∨ v ∈ resultsOf ops := by
  induction ops generalizing scope with
  | nil => exact absurd hop not_mem_nil
  | cons op' ops ih =>
    rw [Available] at h
    rw [resultsOf_cons, mem_append]
    rcases mem_cons.mp hop with rfl | hop
    · exact Or.inl (h.1 v hv)
    · rcases ih h.2 hop with hscope | hresult
      · rcases mem_append.mp hscope with hscope | hresult
        · exact Or.inl hscope
        · exact Or.inr (Or.inl hresult)
      · exact Or.inr (Or.inr hresult)

theorem Scoped.uses (h : Scoped scope ops) {op : Op E X} (hop : op ∈ ops) {v : Name}
    (hv : v ∈ op.uses) : v ∈ scope ++ resultsOf ops := by
  have havailable : Available scope ops := by
    clear hop hv
    induction ops generalizing scope with
    | nil => trivial
    | cons op' ops ih => exact ⟨h.1, ih h.2.2.2⟩
  exact mem_append.mpr (havailable.uses hop hv)

theorem Scoped.fresh (h : Scoped scope ops) {r : Name} (hr : r ∈ resultsOf ops) : r ∉ scope := by
  induction ops generalizing scope with
  | nil => exact absurd hr not_mem_nil
  | cons op ops ih =>
    rw [resultsOf_cons, mem_append] at hr
    rcases hr with hr | hr
    · exact h.2.1 r hr
    · exact fun hscope => ih h.2.2.2 hr (mem_append_left _ hscope)

theorem Scoped.unique (h : Scoped scope ops) {op op' : Op E X} (hop : op ∈ ops) (hop' : op' ∈ ops)
    {r : Name} (hr : r ∈ op.results) (hr' : r ∈ op'.results) : op = op' := by
  induction ops generalizing scope with
  | nil => exact absurd hop not_mem_nil
  | cons head ops ih =>
    have hrest := h.2.2.2
    have hnew : ∀ {op'' : Op E X}, op'' ∈ ops → r ∈ op''.results → r ∉ head.results :=
      fun hmem hres hhead => hrest.fresh (mem_resultsOf.mpr ⟨_, hmem, hres⟩)
        (mem_append_right _ hhead)
    rcases mem_cons.mp hop with hhead | hmem <;> rcases mem_cons.mp hop' with hhead' | hmem'
    · rw [hhead, hhead']
    · exact absurd (hhead ▸ hr) (hnew hmem' hr')
    · exact absurd (hhead' ▸ hr') (hnew hmem hr)
    · exact ih hrest hmem hmem'

end Scope

section Slice

variable {ops : List (Op E X)} {needed : List Name}

theorem subset_backwardSlice : ∀ v ∈ needed, v ∈ backwardSlice ops needed := by
  induction ops with
  | nil => exact fun v hv => hv
  | cons op ops ih =>
    intro v hv
    rw [backwardSlice]
    split_ifs
    · exact mem_append_right _ (ih v hv)
    · exact ih v hv

theorem operands_backwardSlice {scope : List Name} (h : Scoped scope ops) {op : Op E X}
    (hop : op ∈ ops) (hslice : op.inSlice (backwardSlice ops needed) = true) :
    ∀ v ∈ op.operands, v ∈ backwardSlice ops needed := by
  induction ops generalizing scope with
  | nil => exact absurd hop not_mem_nil
  | cons head ops ih =>
    intro v hv
    rcases mem_cons.mp hop with rfl | hmem
    · have hold : op.results.any (backwardSlice ops needed).contains = true := by
        -- what the operation itself adds are its operands, which it does not define
        rw [Op.inSlice, any_eq_true] at hslice
        obtain ⟨r, hr, hcontains⟩ := hslice
        rw [any_eq_true]
        refine ⟨r, hr, ?_⟩
        rw [backwardSlice] at hcontains
        split_ifs at hcontains with hany
        · rcases mem_append.mp (contains_iff_mem.mp hcontains) with hoperand | hneeded
          · exact absurd (h.1 r (mem_append_left _ hoperand)) (h.2.1 r hr)
          · exact contains_iff_mem.mpr hneeded
        · exact hcontains
      rw [backwardSlice, if_pos hold]
      exact mem_append_left _ hv
    · have hstep : ∀ u ∈ backwardSlice ops needed, u ∈ backwardSlice (head :: ops) needed := by
        intro u hu
        rw [backwardSlice]
        split_ifs
        · exact mem_append_right _ hu
        · exact hu
      apply hstep
      apply ih h.2.2.2 hmem _ v hv
      rw [Op.inSlice, any_eq_true] at hslice ⊢
      obtain ⟨r, hr, hcontains⟩ := hslice
      refine ⟨r, hr, ?_⟩
      rw [backwardSlice] at hcontains
      split_ifs at hcontains with hany
      · rcases mem_append.mp (contains_iff_mem.mp hcontains) with hoperand | hneeded
        · have hscope := mem_append_left head.results (h.1 r (mem_append_left _ hoperand))
          exact absurd hscope (h.2.2.2.fresh (mem_resultsOf.mpr ⟨op, hmem, hr⟩))
        · exact contains_iff_mem.mpr hneeded
      · exact hcontains

end Slice

end TritonCpu.FullTile
