import TritonCpu.OpFoldResult

/-!
# Pointer states

A `PtrState` describes a tensor of addresses: a base, and for each dimension an
offset, a stride and a modulo (`shape`, the constant zero for none). An offset
of tensor type marks an unstructured dimension. The vectors of the source have
one length, which `getRank` asserts, so they are one list of dimensions here.
-/

set_option autoImplicit false

namespace TritonCpu.AnalysisStructured
open Builder TritonIR OpFoldResult

structure Dim where
  offset : OFR
  size : OFR
  stride : OFR
  shape : OFR
  deriving DecidableEq, Repr

structure PtrState where
  dims : List Dim
  order : List ℤ
  source : Option Value
  scalar : Option Value
  deriving DecidableEq, Repr

def fail {α : Type} (remark : String) : Build α := stop (.failure remark)

def isNotStructured : OFR → Bool
  | .attr _ => false
  | .value v => v.ty.shape.isSome

namespace Dim

def isStructured (d : Dim) : Bool := !isNotStructured d.offset

def hasModulo (d : Dim) : Bool := getIntAttr d.shape ≠ some 0

end Dim

namespace PtrState

def empty : PtrState := ⟨[], [], none, none⟩

def rank (s : PtrState) : ℕ := s.dims.length

def isEmpty (s : PtrState) : Bool := s.dims = [] && s.source.isNone && s.scalar.isNone

def isBlockPtr (s : PtrState) : Bool := s.order ≠ []

def isStructured (s : PtrState) : Bool := s.dims.all Dim.isStructured

def anyModulo (s : PtrState) : Bool := s.dims.any Dim.hasModulo

def hasModulo (s : PtrState) : Build Bool := do
  assertThat (s.dims = [] ∨ s.isBlockPtr = false)
    "Analysis should not check modulo if PtrState describes block pointer"
  return s.anyModulo

def nonStructuredDims (s : PtrState) : List ℕ :=
  (List.range s.rank).filter fun i => (s.dims[i]?).any fun d => !d.isStructured

def getNonStructuredDim (s : PtrState) : Build ℕ :=
  match s.nonStructuredDims with
  | [dim] => return dim
  | _ => stop (.assertion "must have single non-continuous dimension")

end PtrState

/-- A tensor in which not exactly one dimension is larger than one. -/
def isNotSingleDim (v : Value) : Bool :=
  match v.ty.shape with
  | none => false
  | some shape => shape.countP (· > 1) ≠ 1

/-- The state of an operation that is not decoded: its result is the offset of
the dimension that is larger than one. -/
def PtrState.rebuildAsUnsupportedOp (s : PtrState) (operand : Value) : Build PtrState :=
  if isNotSingleDim operand then fail ""
  else if !s.isEmpty then fail ""
  else
    match operand.ty.shape with
    | none => stop (.assertion "cast<ShapedType>")
    | some opShape =>
      if operand.ty.elt = .ptr then fail ""
      else
        return { s with dims := opShape.map fun size =>
          if size = 1 then ⟨.attr 0, .attr size, .attr 0, .attr 0⟩
          else ⟨.value operand, .attr size, .attr 1, .attr 0⟩ }

def PtrState.rebuildAsGatherScatter (s : PtrState) (op : Value) (nonContinuousDim : ℕ) :
    Build PtrState :=
  if isNotSingleDim op then fail ""
  else if nonContinuousDim ≥ s.rank then fail ""
  else
    match op.ty.shape with
    | none => stop (.assertion "cast<ShapedType>")
    | some opShape =>
      match opShape[nonContinuousDim]? with
      | none => stop (.assertion "Invalid index!")
      | some size =>
        if size ≤ 1 then fail ""
        else
          return { s with dims := s.dims.modify nonContinuousDim fun d =>
            { d with offset := .value op, stride := .attr 1, shape := .attr 0 } }

/-- The range of 32-bit integers in the element type of the target. -/
def castArange (arangeI32 : Value) (targetElt : ElementType) : Build Value :=
  match targetElt with
  | .int targetWidth =>
    if targetWidth > 32 then create fun id => .cast id .extSI arangeI32 targetElt
    else if targetWidth < 32 then create fun id => .cast id .truncI arangeI32 targetElt
    else return arangeI32
  | _ => create fun id => .cast id .indexCast arangeI32 targetElt

/-- The tensor `base + stride * j` for `j` below `count`, in the element type of
the target. -/
def materializeLinearOffsetTensor (base stride : OFR) (count : ℕ) (target : Value) :
    Build OFR := do
  let arangeI32 ← create fun id => .makeRange id 0 count
  let arange ← castArange arangeI32 target.ty.elt
  let strideSplat ← expandOFRIndex stride (.value arange)
  let arangeStride ← mulOFRs (.value arange) strideSplat
  let baseSplat ← expandOFRIndex base arangeStride
  addOFRs baseSplat arangeStride

/-- The per-element offsets of a structured dimension whose stride is replaced
by one. -/
def linearOffset (d : Dim) (stride target : OFR) : Build OFR := do
  match getIntAttr d.size with
  | none => stop (.assertion "expected static size for linear offset materialization")
  | some count =>
    if hasConstZero d.stride then expandOFRIndex d.offset target
    else
      match target with
      | .attr _ => stop (.assertion "cast<Value>")
      | .value target => materializeLinearOffsetTensor d.offset stride count.toNat target

/-- `offset * stride` of an unstructured dimension. -/
def scaleOffset (offset stride : OFR) : Build OFR := do
  let expanded ← expandOFRIndex stride offset
  mulOFRs offset expanded

def unitStride (d other : Dim) : Build OFR :=
  if hasConstZero d.stride then do
    assertThat (d.isStructured ∧ !other.isStructured)
      "If stride is zero, it must be structured and the other stride is unstructured"
    return .attr 1
  else return d.stride

/-- Offsets and strides of both sides, with strides one if neither the offsets
nor the strides are the same. -/
def alignStrides (lhs rhs : Dim) (lhsStride rhsStride : OFR) : Build ((OFR × OFR) × OFR × OFR) :=
  if lhs.offset ≠ rhs.offset ∧ lhsStride ≠ rhsStride then do
    if lhs.isStructured && !rhs.isStructured then
      let lhsOffset ← linearOffset lhs lhsStride rhs.offset
      let rhsOffset ← scaleOffset rhs.offset rhsStride
      return ((lhsOffset, .attr 1), rhsOffset, .attr 1)
    else if !lhs.isStructured && rhs.isStructured then
      let rhsOffset ← linearOffset rhs rhsStride lhs.offset
      let lhsOffset ← scaleOffset lhs.offset lhsStride
      return ((lhsOffset, .attr 1), rhsOffset, .attr 1)
    else
      let lhsOffset ← scaleOffset lhs.offset lhsStride
      let rhsOffset ← scaleOffset rhs.offset rhsStride
      return ((lhsOffset, .attr 1), rhsOffset, .attr 1)
  else return ((lhs.offset, lhsStride), rhs.offset, rhsStride)

/-- The structured offset takes the type of the unstructured one. -/
def expandToUnstructured (lhs : Dim) (lhsOffset rhsOffset : OFR) : Build (OFR × OFR) := do
  if !lhs.isStructured then return (lhsOffset, ← expandOFRIndex rhsOffset lhsOffset)
  else return (← expandOFRIndex lhsOffset rhsOffset, rhsOffset)

def mergeUnstructured (lhs rhs : Dim) : Build (OFR × OFR) := do
  let lhsStride ← unitStride lhs rhs
  let rhsStride ← unitStride rhs lhs
  let ((lhsOffset, lhsStride), rhsOffset, rhsStride) ← alignStrides lhs rhs lhsStride rhsStride
  if lhsStride = rhsStride then
    let (lhsOffset, rhsOffset) ← expandToUnstructured lhs lhsOffset rhsOffset
    return (← addOFRs lhsOffset rhsOffset, lhsStride)
  else
    assertThat (lhsOffset = rhsOffset) "If strides are not equal, offsets must be equal"
    return (lhsOffset, ← addOFRs lhsStride rhsStride)

def addDim (isAnalysisingUnstructured : Bool) (lhsState rhsState : PtrState) (lhs rhs : Dim) :
    Build (OFR × OFR) := do
  if lhs.isStructured && rhs.isStructured then
    return (← addOFRs lhs.offset rhs.offset, ← addOFRs lhs.stride rhs.stride)
  else if isAnalysisingUnstructured then
    let lhsModulo ← lhsState.hasModulo
    let rhsModulo ← rhsState.hasModulo
    assertThat (lhsModulo = false ∧ rhsModulo = false)
      "should not have dimension with modulo when analysing unstructured"
    if hasConstZero lhs.stride && hasConstZero lhs.offset then return (rhs.offset, rhs.stride)
    else if hasConstZero rhs.stride && hasConstZero rhs.offset then
      return (lhs.offset, lhs.stride)
    else mergeUnstructured lhs rhs
  else return (if lhs.isStructured then rhs.offset else lhs.offset, .attr 1)

/-- Adding a state with a scalar to a modulo in the first of two dimensions is
allowed with a warning; the modulo goes to the other dimension. -/
def addShapeWithScalar (rhsScalar : Option Value) (i : ℕ) (lhs : Dim) (rest : List (Dim × Dim)) :
    Build (List OFR) :=
  match i, rest with
  | 0, [(lhs1, _)] =>
    if rhsScalar.isSome then return [lhs1.shape, lhs.shape]
    else fail "PtrAnalysis: do not support adding to operand with modulo"
  | _, _ => fail "PtrAnalysis: do not support adding to operand with modulo"

/-- The shapes of a sum, where `rhs` has no modulo. -/
def addShapes (rhsScalar : Option Value) : ℕ → List (Dim × Dim) → Build (List OFR)
  | _, [] => return []
  | i, (lhs, rhs) :: rest => do
    if !lhs.isStructured || !rhs.isStructured then
      return .attr 0 :: (← addShapes rhsScalar (i + 1) rest)
    else if !lhs.hasModulo || hasConstZero rhs.offset then
      return lhs.shape :: (← addShapes rhsScalar (i + 1) rest)
    else addShapeWithScalar rhsScalar i lhs rest

def makeDim (offsetStride : OFR × OFR) (sizeShape : OFR × OFR) : Dim :=
  ⟨offsetStride.1, sizeShape.1, offsetStride.2, sizeShape.2⟩

def addScalars (lhsState rhsState : PtrState) : Build (Option Value) :=
  match lhsState.scalar, rhsState.scalar with
  | some l, some r => some <$> create fun id => .binary id .addi l r
  | l, r => return if lhsState.rank = 0 then l <|> r else none

/-- Two unstructured states have to agree on the unstructured dimension. -/
def checkGatherDim (lhsState rhsState : PtrState) : Build Unit :=
  if !lhsState.isStructured && !rhsState.isStructured then do
    let lhsDim ← lhsState.getNonStructuredDim
    let rhsDim ← rhsState.getNonStructuredDim
    if lhsDim = rhsDim then return ()
    else
      fail ("PtrAnalysis: do not support adding two pointer states that have different " ++
        "non-continuous dimension")
  else return ()

/-- The modulo part of `addState`; the side without a modulo comes second. -/
def addModulo (lhsState rhsState : PtrState) : Build (List OFR) := do
  let lhsModulo ← lhsState.hasModulo
  let rhsModulo ← rhsState.hasModulo
  if lhsModulo && rhsModulo then
    fail "PtrAnalysis: do not support adding two pointer states that both have modulo"
  else
    assertThat (lhsModulo || rhsModulo → lhsState.rank ≤ 2) "lhsState.getRank() <= 2"
    if rhsModulo then addShapes lhsState.scalar 0 (rhsState.dims.zip lhsState.dims)
    else addShapes rhsState.scalar 0 (lhsState.dims.zip rhsState.dims)

def addState (lhsState rhsState : PtrState) (isAnalysisingUnstructured : Bool) :
    Build PtrState := do
  assertThat (lhsState.rank = rhsState.rank) "isEmpty() && lhsState.getRank() == rhsState.getRank()"
  if lhsState.source.isSome && rhsState.source.isSome then
    fail "PtrAnalysis: do not support adding two pointer states that both have base pointers"
  else
    let scalar ← addScalars lhsState rhsState
    checkGatherDim lhsState rhsState
    let offsetStrides ← (lhsState.dims.zip rhsState.dims).mapM fun p =>
      addDim isAnalysisingUnstructured lhsState rhsState p.1 p.2
    let shapes ← addModulo lhsState rhsState
    return { dims := List.zipWith makeDim offsetStrides ((lhsState.dims.map Dim.size).zip shapes)
             order := []
             source := lhsState.source <|> rhsState.source
             scalar := scalar }

def mulDim (isAnalysisingUnstructured : Bool) (lhs : PtrState) (scalar : Value) (d : Dim) :
    Build Dim := do
  if d.isStructured then
    let offset ← mulOFRs d.offset (.value scalar)
    let stride ← mulOFRs d.stride (.value scalar)
    let shape ← mulOFRs d.shape (.value scalar)
    return { d with offset, stride, shape }
  else
    let _ ← lhs.hasModulo
    assertThat (d.hasModulo = false) "should not have non-structured dimension with modulo"
    if isAnalysisingUnstructured then
      let modulo ← lhs.hasModulo
      assertThat (modulo = false) "should not have non-structured dimension with modulo"
      let stride ← mulOFRs d.stride (.value scalar)
      return { d with stride, shape := .attr 0 }
    else return { d with shape := .attr 0 }

def mulScalars (lhsState rhsState : PtrState) : Build (Option Value) :=
  match lhsState.scalar, rhsState.scalar with
  | some l, some r => some <$> create fun id => .binary id .muli l r
  | _, _ => return none

def mulState (lhsState rhsState : PtrState) (isAnalysisingUnstructured : Bool) :
    Build PtrState := do
  assertThat (lhsState.rank = rhsState.rank) "isEmpty() && lhsState.getRank() == rhsState.getRank()"
  if lhsState.source.isSome && rhsState.source.isSome then
    fail "PtrAnalysis: do not support multiplying base pointers"
  else
    let (lhs, rhs) :=
      if rhsState.scalar.isNone && lhsState.scalar.isSome then (rhsState, lhsState)
      else (lhsState, rhsState)
    match rhs.scalar with
    | none =>
      fail ("PtrAnalysis: only support multiplying pointer states when one of them represent " ++
        "a scalar")
    | some factor =>
      let scalar ← mulScalars lhsState rhsState
      let dims ← lhs.dims.mapM (mulDim isAnalysisingUnstructured lhs factor)
      let rhsModulo ← rhs.hasModulo
      if rhsModulo then
        fail "PtrAnalysis: do not support multiplying pointer states that has modulos"
      else return { dims, order := [], source := none, scalar }

end TritonCpu.AnalysisStructured
