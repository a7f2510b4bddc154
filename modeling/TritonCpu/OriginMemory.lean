import Mathlib.Data.Int.Notation
import Mathlib.Data.List.Basic
import Mathlib.Logic.Function.Basic
import Mathlib.Logic.Relation

/-!
# Loads in the original memory

A load may read its tensor from the argument's own buffer where no store of the
function goes there. The check traces the load's converted pointer and the
unconverted pointers of the stores to their bases.
-/

set_option autoImplicit false

namespace TritonCpu.StructuredToMemref.OriginMemory

/-- What the lowering of a `tts.make_tptr` looks at: a split pointer becomes two
blocks, any other one becomes one cast with its strides, `none` where dynamic. -/
inductive PtrForm where
  | structured (strides : List (Option ℤ)) (needsTranspose : Bool)
  | split
deriving DecidableEq

/-- The definition of an SSA value. A block argument of a loop body takes the
values that flow into it, among them those the body yields. -/
inductive Definition where
  | argument (index : ℕ)
  | blockArgument (incoming : List ℕ)
  | makeTensorPtr (base : ℕ) (form : PtrForm)
  | makeGatherScatterTensorPtr (base : ℕ)
  | reinterpretCast (source : ℕ)
  | subview (source : ℕ)
  | op (operands : List ℕ)
deriving DecidableEq

namespace Definition

def operands : Definition → List ℕ
  | argument _ => []
  | blockArgument _ => []
  | makeTensorPtr base _ => [base]
  | makeGatherScatterTensorPtr base => [base]
  | reinterpretCast source => [source]
  | subview source => [source]
  | op operands => operands

def incoming : Definition → List ℕ
  | blockArgument incoming => incoming
  | _ => []

def isBlockArgument : Definition → Bool
  | argument _ => true
  | blockArgument _ => true
  | _ => false

end Definition

/-- The accesses of a block in order. An operation with a region holds the
accesses of its block. -/
inductive Block where
  | done
  | load (ptr : ℕ) (rest : Block)
  | store (ptr : ℕ) (rest : Block)
  | nested (body rest : Block)

def Block.stores : Block → List ℕ
  | done => []
  | load _ rest => rest.stores
  | store ptr rest => ptr :: rest.stores
  | nested body rest => body.stores ++ rest.stores

/-- Operands come before the operation that takes them. The operation itself is
a `func.func` or one of another dialect. -/
structure FuncOp where
  isFuncOp : Bool
  defs : ℕ → Definition
  body : Block
  dominates : ∀ v, ∀ operand ∈ (defs v).operands, operand < v

/-- A value during the conversion: one of the function, or the result of an
operation the conversion has made. -/
inductive Converted where
  | value (v : ℕ)
  | reinterpretCast (source : Converted) (strides : List (Option ℤ)) (originalOrder : Bool)
  | splitCast (block1 block2 : Converted)
  | unrealizedCast (input : Converted)
deriving DecidableEq

inductive WalkResult where
  | advance
  | interrupt
deriving DecidableEq

def Block.loads : Block → List ℕ
  | done => []
  | load ptr rest => ptr :: rest.loads
  | store _ rest => rest.loads
  | nested body rest => body.loads ++ rest.loads

def Block.walk (visit : ℕ → WalkResult) : Block → WalkResult
  | done => .advance
  | load _ rest => rest.walk visit
  | store ptr rest =>
    match visit ptr with
    | .interrupt => .interrupt
    | .advance => rest.walk visit
  | nested body rest =>
    match body.walk visit with
    | .interrupt => .interrupt
    | .advance => rest.walk visit

theorem Block.walk_advance {visit : ℕ → WalkResult} {b : Block} :
    b.walk visit = .advance ↔ ∀ p ∈ b.stores, visit p = .advance := by
  induction b with
  | done => simp [walk, stores]
  | load _ rest ih => exact ih
  | store ptr rest ih =>
    cases h : visit ptr with
    | advance => simp [walk, stores, h, ih]
    | interrupt => simp [walk, stores, h]
  | nested body rest ihb ihr =>
    cases h : body.walk visit with
    | advance =>
      have hb := ihb.mp h
      simp only [walk, stores, h, ihr, List.forall_mem_append]
      exact ⟨fun hr => ⟨hb, hr⟩, fun hall => hall.2⟩
    | interrupt =>
      have hb : ¬ ∀ p ∈ body.stores, visit p = .advance := by simp [← ihb, h]
      simp only [walk, stores, h, List.forall_mem_append]
      exact ⟨fun hne => absurd hne (by decide), fun hall => absurd hall.1 hb⟩

namespace FuncOp

def memRefBase (f : FuncOp) (v : ℕ) : ℕ :=
  match _h : f.defs v with
  | .reinterpretCast source => f.memRefBase source
  | .subview source => f.memRefBase source
  | _ => v
termination_by v
decreasing_by all_goals exact f.dominates v source (by simp [_h, Definition.operands])

end FuncOp

def getMemRefBase (f : FuncOp) : Converted → Converted
  | .value v => .value (f.memRefBase v)
  | .reinterpretCast source _ _ => getMemRefBase f source
  | .splitCast block1 block2 => .splitCast block1 block2
  | .unrealizedCast input => .unrealizedCast input

def isBlockArgument (f : FuncOp) : Converted → Bool
  | .value v => (f.defs v).isBlockArgument
  | _ => false

/-- The walk stops at a store whose base is the load's block argument. -/
def visitStore (f : FuncOp) (targetArg : Converted) (storePtr : ℕ) : WalkResult :=
  if getMemRefBase f (.value storePtr) = targetArg then .interrupt else .advance

def isOriginalMemorySafe (f : FuncOp) (ptr : Converted) : Bool :=
  let loadBase := getMemRefBase f ptr
  if isBlockArgument f loadBase then
    if f.isFuncOp then f.body.walk (visitStore f loadBase) = .advance else false
  else false

/-- `none` for a mask dimension or stride is a dynamic one. -/
structure LoadOp where
  shape : List ℕ
  staticMaskDims : List (Option ℕ)
  other : Bool

inductive OriginUse where
  | declined
  | direct
  | guarded
deriving DecidableEq

def hasDynamicStride : Converted → Bool
  | .reinterpretCast _ strides _ => strides.any (· = none)
  | _ => false

/-- No operation defines a block argument, and the attributes are read off it. -/
def hasWrapAttr (f : FuncOp) : Converted → Option Bool
  | .value v => if (f.defs v).isBlockArgument then none else some false
  | .reinterpretCast _ _ originalOrder => some originalOrder
  | .splitCast _ _ => some true
  | .unrealizedCast _ => some false

def useStructuredOriginMemory (ptr : Converted) : OriginUse :=
  if hasDynamicStride ptr then .declined else .direct

def useMaskedOriginMemory (op : LoadOp) : OriginUse :=
  let isMaskStaticallyFull := !op.staticMaskDims.isEmpty &&
    (op.staticMaskDims.zip op.shape).all fun (maskDim, dim) => maskDim = some dim
  if !isMaskStaticallyFull && op.other then .declined
  else if isMaskStaticallyFull then .direct
  else .guarded

def useOriginMemory (f : FuncOp) (op : LoadOp) (ptr : Converted) : Option OriginUse :=
  if isOriginalMemorySafe f ptr then
    (hasWrapAttr f ptr).map fun wrapped =>
      if wrapped then .declined
      else if op.staticMaskDims = [] then
        if op.other then .declined else useStructuredOriginMemory ptr
      else useMaskedOriginMemory op
  else some .declined

def rewriteMakeTensorPtr (base : Converted) : PtrForm → Converted
  | .structured strides needsTranspose => .reinterpretCast base strides needsTranspose
  | .split => .splitCast (.reinterpretCast base [none] false) (.reinterpretCast base [none] false)

/-- The pass's materialisation of a pointer as an unranked memref. -/
def targetMaterialization (v : ℕ) : Converted := .unrealizedCast (.value v)

/-- A load's pointer as the conversion hands it on. `present` is what the
conversion makes of a pointer that keeps its definition. -/
def adaptorPtr (f : FuncOp) (present : ℕ → Converted) (v : ℕ) : Converted :=
  match f.defs v with
  | .makeTensorPtr base form => rewriteMakeTensorPtr (present base) form
  | _ => .value v

/-! ## Where a pointer comes from -/

/-- The function's argument `a` may flow into the value. -/
inductive Derived (f : FuncOp) (a : ℕ) : ℕ → Prop where
  | argument {v : ℕ} (h : f.defs v = .argument a) : Derived f a v
  | operand {v source : ℕ} (h : source ∈ (f.defs v).operands) (hs : Derived f a source) :
      Derived f a v
  | incoming {v source : ℕ} (h : source ∈ (f.defs v).incoming) (hs : Derived f a source) :
      Derived f a v

def DerivedFrom (f : FuncOp) (a : ℕ) : Converted → Prop
  | .value v => Derived f a v
  | .reinterpretCast source _ _ => DerivedFrom f a source
  | .splitCast block1 block2 => DerivedFrom f a block1 ∨ DerivedFrom f a block2
  | .unrealizedCast input => DerivedFrom f a input

/-- A chain of casts and subviews over a block argument. -/
inductive ViewOfArgument (f : FuncOp) : Converted → Prop where
  | blockArgument {v : ℕ} (h : (f.defs v).isBlockArgument) : ViewOfArgument f (.value v)
  | reinterpretCast {v source : ℕ} (h : f.defs v = .reinterpretCast source)
      (hs : ViewOfArgument f (.value source)) : ViewOfArgument f (.value v)
  | subview {v source : ℕ} (h : f.defs v = .subview source)
      (hs : ViewOfArgument f (.value source)) : ViewOfArgument f (.value v)
  | converted {source : Converted} {strides : List (Option ℤ)} {originalOrder : Bool}
      (hs : ViewOfArgument f source) :
      ViewOfArgument f (.reinterpretCast source strides originalOrder)

/-- Every store goes through a tensor pointer made from an argument. -/
def StoresBuilt (f : FuncOp) : Prop :=
  ∀ p ∈ f.body.stores, ∃ a base, Derived f a base ∧
    (f.defs p = .makeGatherScatterTensorPtr base ∨ ∃ form, f.defs p = .makeTensorPtr base form)

section Buffers

variable {β : Type}

/-- A store replaces what the buffer of an argument holds that flows into its
pointer. -/
inductive StoreStep (f : FuncOp) : (ℕ → β) → (ℕ → β) → Prop where
  | store {p a : ℕ} (hp : p ∈ f.body.stores) (ha : Derived f a p) (m : ℕ → β) (contents : β) :
      StoreStep f m (Function.update m a contents)

/-- Branches and loops take the stores of the function in any order. -/
def Runs (f : FuncOp) : (ℕ → β) → (ℕ → β) → Prop := Relation.ReflTransGen (StoreStep f)

theorem StoreStep.frame {f : FuncOp} {a : ℕ} {m m' : ℕ → β} (h : StoreStep f m m')
    (hstores : ∀ p ∈ f.body.stores, ¬ Derived f a p) : m' a = m a := by
  cases h with
  | @store p b hp hb m contents =>
    have hab : a ≠ b := fun hab => hstores p hp (hab ▸ hb)
    exact Function.update_of_ne hab contents m

theorem Runs.frame {f : FuncOp} {a : ℕ} {m m' : ℕ → β} (h : Runs f m m')
    (hstores : ∀ p ∈ f.body.stores, ¬ Derived f a p) : m' a = m a := by
  induction h with
  | refl => rfl
  | tail _ hstep ih => rw [hstep.frame hstores, ih]

/-- A load taken as safe reads a buffer no store goes to, so that the buffer
keeps its contents to the end of every run. -/
def ZeroCopySafe (β : Type) (f : FuncOp) (ptr : Converted) : Prop :=
  isOriginalMemorySafe f ptr → ∀ a, DerivedFrom f a ptr →
    (∀ p ∈ f.body.stores, ¬ Derived f a p) ∧ ∀ m m' : ℕ → β, Runs f m m' → m' a = m a

end Buffers

/-! ## When the check is right -/

theorem viewOfArgument_value {f : FuncOp} (v : ℕ) :
    ViewOfArgument f (.value v) ↔ (f.defs (f.memRefBase v)).isBlockArgument := by
  induction v using Nat.strongRecOn with
  | ind v ih =>
    rw [FuncOp.memRefBase]
    split
    next source h =>
      rw [← ih source (f.dominates v source (by simp [h, Definition.operands]))]
      constructor
      · intro hv
        cases hv with
        | blockArgument hb => simp [h, Definition.isBlockArgument] at hb
        | reinterpretCast h' hs => rw [h] at h'; cases h'; exact hs
        | subview h' hs => rw [h] at h'; cases h'
      · exact .reinterpretCast h
    next source h =>
      rw [← ih source (f.dominates v source (by simp [h, Definition.operands]))]
      constructor
      · intro hv
        cases hv with
        | blockArgument hb => simp [h, Definition.isBlockArgument] at hb
        | reinterpretCast h' hs => rw [h] at h'; cases h'
        | subview h' hs => rw [h] at h'; cases h'; exact hs
      · exact .subview h
    next hcast hsub =>
      constructor
      · intro hv
        cases hv with
        | blockArgument hb => exact hb
        | reinterpretCast h' => exact absurd h' (hcast _)
        | subview h' => exact absurd h' (hsub _)
      · exact .blockArgument

theorem viewOfArgument_iff {f : FuncOp} (ptr : Converted) :
    ViewOfArgument f ptr ↔ isBlockArgument f (getMemRefBase f ptr) := by
  induction ptr with
  | value v => exact viewOfArgument_value v
  | reinterpretCast source strides originalOrder ih =>
    rw [getMemRefBase, ← ih]
    constructor
    · intro h
      cases h with
      | converted hs => exact hs
    · exact .converted
  | splitCast block1 block2 => exact ⟨fun h => (by cases h), fun h => (by cases h)⟩
  | unrealizedCast input => exact ⟨fun h => (by cases h), fun h => (by cases h)⟩

theorem visitStore_built {f : FuncOp} {p base : ℕ} {targetArg : Converted}
    (htarget : isBlockArgument f targetArg)
    (hp : f.defs p = .makeGatherScatterTensorPtr base ∨
      ∃ form, f.defs p = .makeTensorPtr base form) :
    visitStore f targetArg p = .advance := by
  have hbase : f.memRefBase p = p ∧ (f.defs p).isBlockArgument = false := by
    rw [FuncOp.memRefBase]
    obtain h | ⟨form, h⟩ := hp
    · split <;> simp_all [Definition.isBlockArgument]
    · split <;> simp_all [Definition.isBlockArgument]
  refine if_neg fun heq => ?_
  rw [← heq, getMemRefBase, hbase.1, isBlockArgument, hbase.2] at htarget
  cases htarget

theorem isOriginalMemorySafe_iff {f : FuncOp} (hstores : StoresBuilt f) (ptr : Converted) :
    isOriginalMemorySafe f ptr ↔ f.isFuncOp ∧ ViewOfArgument f ptr := by
  rw [viewOfArgument_iff, isOriginalMemorySafe]
  by_cases hbase : isBlockArgument f (getMemRefBase f ptr)
  · have hwalk : f.body.walk (visitStore f (getMemRefBase f ptr)) = .advance := by
      refine Block.walk_advance.mpr fun p hp => ?_
      obtain ⟨_, _, _, hp⟩ := hstores p hp
      exact visitStore_built hbase hp
    simp [hbase, hwalk]
  · simp [hbase]

/-- A kernel that loads through its argument and stores through a tensor pointer
made from it. -/
def inPlaceKernel : FuncOp where
  isFuncOp := true
  defs
    | 0 => .argument 0
    | 1 => .makeTensorPtr 0 (.structured [some 1] false)
    | _ => .op []
  body := .load 0 (.store 1 .done)
  dominates
    | 0, _, h => by simp [Definition.operands] at h
    | 1, _, h => by simp [Definition.operands] at h; omega
    | _ + 2, _, h => by simp [Definition.operands] at h

theorem inPlaceKernel_built : StoresBuilt inPlaceKernel := by
  intro p hp
  obtain rfl : p = 1 := by simpa [inPlaceKernel, Block.stores] using hp
  exact ⟨0, 0, .argument rfl, .inr ⟨_, rfl⟩⟩

/-- The materialisation stands between the argument and the cast of a tensor
pointer, so such a load always copies. -/
theorem useOriginMemory_makeTensorPtr (f : FuncOp) (op : LoadOp) {v base : ℕ} {form : PtrForm}
    (h : f.defs v = .makeTensorPtr base form) :
    useOriginMemory f op (adaptorPtr f targetMaterialization v) = some .declined := by
  have hsafe : isOriginalMemorySafe f (adaptorPtr f targetMaterialization v) = false := by
    rw [adaptorPtr, h]
    cases form <;> rfl
  simp [useOriginMemory, hsafe]

/-- A load whose own pointer is an argument passes the check, and then has no
operation whose attributes could be read. -/
theorem useOriginMemory_argument {f : FuncOp} (hstores : StoresBuilt f) (hfunc : f.isFuncOp)
    (op : LoadOp) {v : ℕ} (h : (f.defs v).isBlockArgument) :
    useOriginMemory f op (.value v) = none := by
  have hsafe : isOriginalMemorySafe f (.value v) :=
    (isOriginalMemorySafe_iff hstores _).mpr ⟨hfunc, .blockArgument h⟩
  simp [useOriginMemory, hsafe, hasWrapAttr, h]

/-- Where the buffer is read in place, the load's pointer is a plain cast over a
block argument. -/
theorem useOriginMemory_inPlace {f : FuncOp} (hstores : StoresBuilt f) {op : LoadOp}
    {ptr : Converted} {use : OriginUse} (h : useOriginMemory f op ptr = some use)
    (huse : use ≠ .declined) :
    f.isFuncOp ∧ ViewOfArgument f ptr ∧ hasWrapAttr f ptr = some false := by
  by_cases hsafe : isOriginalMemorySafe f ptr
  · obtain ⟨hfunc, hview⟩ := (isOriginalMemorySafe_iff hstores ptr).mp hsafe
    rw [useOriginMemory, if_pos hsafe] at h
    cases hattr : hasWrapAttr f ptr with
    | none => simp [hattr] at h
    | some wrapped =>
      cases wrapped with
      | true => exact absurd (by simpa [hattr] using h.symm) huse
      | false => exact ⟨hfunc, hview, rfl⟩
  · rw [useOriginMemory, if_neg hsafe, Option.some.injEq] at h
    exact absurd h.symm huse

end TritonCpu.StructuredToMemref.OriginMemory
