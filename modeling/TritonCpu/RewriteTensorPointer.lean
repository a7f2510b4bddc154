import TritonCpu.BlockPointer
import Mathlib.Data.List.Lemmas

/-!
# Rewriting block pointers

The pass records what a block pointer is made of: the values of the operation that
creates it, and its offsets. Loops and branches carry only the offsets. The clone of a
value keeps the name of the value, and what is recorded inside a region cannot be
found from outside, where the operations that were not cloned are looked at.
-/

set_option autoImplicit false

namespace TritonCpu.TensorPointer

open TritonCpu.Structured
open TritonCpu.Combine (PaddingOption)

structure RewritedInfo where
  base : Name
  shape : List Name
  strides : List Name
  offsets : List Name
  tensorShape : List ℕ
  length_strides : strides.length = shape.length
  length_offsets : offsets.length = shape.length
  length_tensorShape : tensorShape.length = shape.length

namespace RewritedInfo

def length (info : RewritedInfo) : ℕ := info.shape.length

def setOffsets (info : RewritedInfo) (newOffset : ℕ → Name) : RewritedInfo where
  base := info.base
  shape := info.shape
  strides := info.strides
  offsets := (List.range info.length).map newOffset
  tensorShape := info.tensorShape
  length_strides := info.length_strides
  length_offsets := by simp [length]
  length_tensorShape := info.length_tensorShape

def offset (info : RewritedInfo) (i : ℕ) : Name := info.offsets.getD i info.base

/-- The loop over the dimensions before `j`. -/
def expandOthers (i : ℕ) (row : TensorExpr .i64) : ℕ → TensorExpr .i64
  | 0 => row
  | j + 1 => if j = i then expandOthers i row j else .expandDims (expandOthers i row j) j

def getExpandedOffsetWithRange (info : RewritedInfo) (i : ℕ) : TensorExpr .i64 :=
  let size := info.tensorShape.getD i 0
  expandOthers i (.addi (.splat [size] (info.offset i)) (.extsi (.makeRange size)))
    info.tensorShape.length

/-- The pointers after the dimensions before `i` were added. -/
def addOffsets (info : RewritedInfo) (bytes : ℕ) : ℕ → TensorExpr .ptr
  | 0 => .splatPtr info.tensorShape info.base
  | i + 1 =>
    let offsetWithRange := info.getExpandedOffsetWithRange i
    let splatStride := .splat offsetWithRange.shape (info.strides.getD i info.base)
    .addptr bytes (info.addOffsets bytes i)
      (.broadcast info.tensorShape (.muli offsetWithRange splatStride))

def generatePtr (info : RewritedInfo) (bytes : ℕ) : TensorExpr .ptr :=
  info.addOffsets bytes info.tensorShape.length

def dimMask (info : RewritedInfo) (i : ℕ) : TensorExpr .i1 :=
  let offsetWithRange := info.getExpandedOffsetWithRange i
  let cmpLower := .cmpi .sge offsetWithRange (.splatConstant offsetWithRange.shape 0)
  let splatUpperBound := .splat offsetWithRange.shape (info.shape.getD i info.base)
  .broadcast info.tensorShape (.andi cmpLower (.cmpi .slt offsetWithRange splatUpperBound))

def andDimMask (info : RewritedInfo) (mask : Option (TensorExpr .i1)) (i : ℕ) :
    Option (TensorExpr .i1) :=
  match mask with
  | none => some (info.dimMask i)
  | some mask => some (.andi mask (info.dimMask i))

def generateMask (info : RewritedInfo) (boundaryCheck : List ℕ) :
    Option (Option (TensorExpr .i1)) :=
  if boundaryCheck.all (· < info.length) then
    some (boundaryCheck.foldl info.andDimMask none)
  else none

end RewritedInfo

/-- An integer cannot be padded with NaN. -/
def generateOther (pointee : Pointee) : Option PaddingOption → Option (Option Constant)
  | none => some none
  | some .zero => some (some ⟨pointee, false⟩)
  | some .nan => if pointee.isIntOrIndex then none else some (some ⟨pointee, true⟩)

section Definitions

/-- How a block pointer is defined; the result of a loop or a branch by the operand of the
first yield inside it, if that has as many. -/
inductive Definition where
  | makeTensorPtr
  | advance (ptr : Value)
  | yielded (operand : Option Value)
  | iterArg (init : Value)

variable {E : Type}

/-- The operands of the yields in a block, the inner ones first. A block that ends by
`scf.condition` has no yield of its own. -/
def yieldOps : Code Value (SourceOp E) → Bool → List (List Value)
  | .yield operands, isYield => if isYield then [operands] else []
  | .prim _ next, isYield => yieldOps next isYield
  | .forOp _ _ _ _ _ _ body _ next, isYield => yieldOps body true ++ yieldOps next isYield
  | .ifOp _ thenBlock elseBlock _ next, isYield =>
    yieldOps thenBlock true ++ yieldOps elseBlock true ++ yieldOps next isYield
  | .whileOp _ _ before _ after _ next, isYield =>
    yieldOps before false ++ yieldOps after true ++ yieldOps next isYield

def resultDefinitions (results : List Value) (yields : List (List Value)) :
    List (Value × Definition) :=
  results.mapIdx fun i v => (v, .yielded (yields.head?.bind fun operands => operands[i]?))

/-- The definitions of block pointers, from the first to the last in the text. -/
def definitions : Code Value (SourceOp E) → List (Value × Definition)
  | .yield _ => []
  | .prim (.makeTensorPtr res _ _ _ _) next => (res, .makeTensorPtr) :: definitions next
  | .prim (.advance res ptr _) next => (res, .advance ptr) :: definitions next
  | .prim _ next => definitions next
  | .forOp _ _ _ _ inits args body results next =>
    args.zipWith (fun arg init => (arg, .iterArg init)) inits ++ definitions body ++
      resultDefinitions results (yieldOps body true) ++ definitions next
  | .ifOp _ thenBlock elseBlock results next =>
    definitions thenBlock ++ definitions elseBlock ++
      resultDefinitions results (yieldOps thenBlock true ++ yieldOps elseBlock true) ++
      definitions next
  | .whileOp _ _ before _ after results next =>
    definitions before ++ definitions after ++
      resultDefinitions results (yieldOps before false ++ yieldOps after true) ++ definitions next

/-- The operation that a block pointer goes back to, by the definitions from the last to
the first; what defines a pointer stands before it. -/
def getMakeTensorPtrOp : List (Value × Definition) → Value → Option Value
  | [], _ => none
  | (u, definition) :: earlier, v =>
    if u = v then
      match definition with
      | .makeTensorPtr => some u
      | .advance ptr => getMakeTensorPtrOp earlier ptr
      | .yielded (some operand) => getMakeTensorPtrOp earlier operand
      | .yielded none => none
      | .iterArg init => getMakeTensorPtrOp earlier init
    else getMakeTensorPtrOp earlier v

def terminator : Code Value (SourceOp E) → List Value
  | .yield operands => operands
  | .prim _ next => terminator next
  | .forOp _ _ _ _ _ _ _ _ next => terminator next
  | .ifOp _ _ _ _ next => terminator next
  | .whileOp _ _ _ _ _ _ next => terminator next

end Definitions

section Rewrite

/-- `rewritedInfo`; what was recorded last is found first. -/
abbrev Records := List (Value × RewritedInfo)

def Records.find (records : Records) (v : Value) : Option RewritedInfo := List.lookup v records

def generateNewOperands (oldOperands : List Name) (index : ℕ) (newValues : List Name) : List Name :=
  oldOperands.take index ++ newValues ++ oldOperands.drop (index + 1)

/-- The loop of `rewriteForOp` and `rewriteYieldOp` that puts offsets in place of block
pointers, from position `i` on. -/
def expandOperands (records : Records) (operands : List Name) (i : ℕ) : Option (List Name) :=
  if h : i < operands.length then
    match operands[i] with
    | .old v =>
      if isTensorPointerType v.type then
        match records.find v with
        | some info =>
          expandOperands records (generateNewOperands operands i info.offsets)
            (i + info.offsets.length)
        | none => none
      else expandOperands records operands (i + 1)
    | _ => expandOperands records operands (i + 1)
  else some operands
termination_by operands.length - i
decreasing_by
  · simp only [generateNewOperands, List.length_append, List.length_take, List.length_drop]
    omega
  · omega
  · omega

/-- What is known of each value that a loop or a branch carries; every block pointer has to
be known. -/
def carriedInfos (find : Value → Option RewritedInfo) : List Value →
    Option (List (Option RewritedInfo))
  | [] => some []
  | v :: vs =>
    if isTensorPointerType v.type then do
      let info ← find v
      let infos ← carriedInfos find vs
      return some info :: infos
    else do
      let infos ← carriedInfos find vs
      return none :: infos

/-- New arguments or results: offsets in place of each block pointer, which are recorded. -/
def recordOffsets (records : Records) : List Value → List (Option RewritedInfo) →
    Records × List Name
  | v :: vs, some info :: infos =>
    let rest := recordOffsets records vs infos
    ((v, info.setOffsets (.offset v)) :: rest.1,
      (List.range info.length).map (.offset v) ++ rest.2)
  | v :: vs, none :: infos =>
    let rest := recordOffsets records vs infos
    (rest.1, .old v :: rest.2)
  | _, _ => (records, [])

variable {E : Type}

def perOffset (offsets : List Value) (create : ℕ → Value → List (TargetOp E)) : List (TargetOp E) :=
  (offsets.mapIdx create).flatten

def rewriteMakeTensorPtrOp (res base : Value) (shape strides offsets : List Value) :
    Option (RewritedInfo × List (TargetOp E)) :=
  if h : offsets.length = shape.length ∧ strides.length = shape.length ∧
      res.type.tensorShape.length = shape.length then
    some ({ base := .old base, shape := shape.map .old, strides := strides.map .old,
            offsets := (List.range offsets.length).map (.offset res)
            tensorShape := res.type.tensorShape, length_strides := by simp [h.2.1]
            length_offsets := by simp [h.1], length_tensorShape := by simp [h.2.2] },
      perOffset offsets fun i offset => [.extsi (.offset res i) (.old offset)])
  else none

def rewriteAdvanceOp (info : RewritedInfo) (res : Value) (offsets : List Value) :
    Option (RewritedInfo × List (TargetOp E)) :=
  if info.length = offsets.length then
    some (info.setOffsets (.offset res), perOffset offsets fun i offset =>
      [.extsi (.i64Offset res i) (.old offset),
        .addi (.offset res i) (info.offset i) (.i64Offset res i)])
  else none

def rewriteOp (records : Records) : SourceOp E → Option (Records × List (TargetOp E))
  | .makeTensorPtr res base shape strides offsets => do
    let (info, ops) ← rewriteMakeTensorPtrOp res base shape strides offsets
    return ((res, info) :: records, ops)
  | .advance res ptr offsets => do
    let ptrInfo ← records.find ptr
    let (info, ops) ← rewriteAdvanceOp ptrInfo res offsets
    return ((res, info) :: records, ops)
  | .load res ptr boundaryCheck padding cache evict isVolatile => do
    let info ← records.find ptr
    let newMask ← info.generateMask boundaryCheck
    let newOther ← generateOther ptr.type.pointee padding
    return (records, [.load (.old res) (info.generatePtr ptr.type.pointee.bytes) newMask newOther
      cache evict isVolatile])
  | .store ptr value boundaryCheck cache evict => do
    let info ← records.find ptr
    let newMask ← info.generateMask boundaryCheck
    return (records, [.store (info.generatePtr ptr.type.pointee.bytes) (.old value) newMask cache
      evict])
  | .anyOp results operands apply =>
    -- a block pointer cannot be erased while another operation uses it
    if operands.any fun v => isTensorPointerType v.type then none
    else some (records, [.anyOp (results.map .old) (operands.map .old) apply])

def prims (ops : List (TargetOp E)) (next : Code Name (TargetOp E)) : Code Name (TargetOp E) :=
  ops.foldr .prim next

/-- `rewriteYieldOp`; no other terminator may have block pointers. -/
def rewriteTerminator (records : Records) (operands : List Value) (isYield : Bool) :
    Option (List Name) :=
  if isYield then expandOperands records (operands.map .old) 0
  else if operands.any fun v => isTensorPointerType v.type then none
  else some (operands.map .old)

/-- `rewriteForOp` and `rewriteIfOp` where operations have regions. What a loop carries is
known from its initial operand, what a branch yields from the operation that the operand of
the first branch goes back to. -/
def rewriteBlock (defs : List (Value × Definition)) :
    Code Value (SourceOp E) → Records → Bool → Option (Code Name (TargetOp E))
  | .yield operands, records, isYield => do
    let newOperands ← rewriteTerminator records operands isYield
    return .yield newOperands
  | .prim op next, records, isYield => do
    let (newRecords, ops) ← rewriteOp records op
    let newNext ← rewriteBlock defs next newRecords isYield
    return prims ops newNext
  | .forOp iv lb ub step inits args body results next, records, isYield => do
    let newIterOperands ← expandOperands records (inits.map .old) 0
    let infos ← carriedInfos records.find inits
    let (bodyRecords, newArgs) := recordOffsets records args infos
    let (newRecords, newResults) := recordOffsets records results infos
    let newBody ← rewriteBlock defs body bodyRecords true
    let newNext ← rewriteBlock defs next newRecords isYield
    return .forOp (.old iv) (.old lb) (.old ub) (.old step) newIterOperands newArgs newBody newResults
      newNext
  | .ifOp cond thenBlock elseBlock results next, records, isYield => do
    let infos ← carriedInfos (fun v => getMakeTensorPtrOp defs v >>= records.find)
      (terminator thenBlock)
    let (newRecords, newResults) := recordOffsets records results infos
    let newThen ← rewriteBlock defs thenBlock records true
    let newElse ← rewriteBlock defs elseBlock records true
    let newNext ← rewriteBlock defs next newRecords isYield
    return .ifOp (.old cond) newThen newElse newResults newNext
  | .whileOp inits args before afterArgs after results next, records, isYield =>
    if (inits ++ results).any fun v => isTensorPointerType v.type then none
    else do
      let newBefore ← rewriteBlock defs before records false
      let newAfter ← rewriteBlock defs after records true
      let newNext ← rewriteBlock defs next records isYield
      return .whileOp (inits.map .old) (args.map .old) newBefore (afterArgs.map .old) newAfter
        (results.map .old) newNext

def runOnOperation (body : Code Value (SourceOp E)) : Option (Code Name (TargetOp E)) :=
  rewriteBlock (definitions body).reverse body [] false

end Rewrite

end TritonCpu.TensorPointer
