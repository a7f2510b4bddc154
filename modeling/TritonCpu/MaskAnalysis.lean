import TritonCpu.PtrAnalysis

/-!
# Mask analysis

`MaskState::parse` describes the value of an integer tensor in one record: a
scalar, a range `[start, end)` along one dimension, or a finished mask, whose
`dims` are the sizes of the box that is accessed.
-/

set_option autoImplicit false

namespace TritonCpu.MaskAnalysis
open Builder TritonIR OpFoldResult AnalysisStructured

structure MaskState where
  (start end' : Option OFR)
  dims : List OFR
  scalar : Option OFR
  deriving DecidableEq, Repr

namespace MaskState

def empty : MaskState := ⟨none, none, [], none⟩

def getRank (s : MaskState) : ℕ := s.dims.length

def isMask (s : MaskState) : Bool :=
  s.start.isNone && s.end'.isNone && s.scalar.isNone && !s.dims.isEmpty

end MaskState

def fail (remark : String) : Build MaskState := stop (.failure remark)

def deref : Option OFR → Build OFR
  | some ofr => return ofr
  | none => stop (.assertion "isa<> used on a null pointer")

/-- The access `dims[i]`. -/
def dimAt (dims : List OFR) (i : ℕ) : Build OFR :=
  match dims[i]? with
  | some d => return d
  | none => stop (.assertion "idx < size()")

def addStateScalar (state : MaskState) (scalar : OFR) : Build MaskState := do
  let start ← addOFRs (← deref state.start) scalar
  let end' ← addOFRs (← deref state.end') scalar
  return { MaskState.empty with start, end', dims := state.dims }

def addStates (lhsState rhsState : MaskState) : Build MaskState :=
  match lhsState.scalar, rhsState.scalar with
  | some _, some _ => fail "Unexpected case where both lhs and rhs are scalars"
  | none, none => fail "Unsupported scenario where neither lhs nor rhs is a scalar"
  | some scalar, none => addStateScalar rhsState scalar
  | none, some scalar => addStateScalar lhsState scalar

def selectDims (scalar : OFR) (dims : List OFR) : Build MaskState := do
  let dims ← dims.mapM fun dim => compareOFRs scalar (.attr 0) .ne dim (.attr 0)
  return { MaskState.empty with dims }

def minStateScalar (lhsState rhsState : MaskState) : Build MaskState :=
  match lhsState.scalar, rhsState.scalar with
  | some _, some _ => do
    let dim ← minOFRs (← dimAt lhsState.dims 0) (← dimAt rhsState.dims 0)
    return { MaskState.empty with dims := [dim] }
  | some scalar, none => selectDims scalar rhsState.dims
  | none, some scalar => selectDims scalar lhsState.dims
  | none, none => fail "Unexpected case where both lhs and rhs are not scalars"

def minStates (lhsState rhsState : MaskState) : Build MaskState :=
  if lhsState.getRank ≠ rhsState.getRank then
    fail "Unexpected case where lhs and rhs have different ranks"
  else do
    let dims ← (lhsState.dims.zip rhsState.dims).mapM fun (lhsDim, rhsDim) => minOFRs lhsDim rhsDim
    return { MaskState.empty with dims }

/-- The scalar of a tensor constant is materialized, and its attribute kept. -/
def parseConstant (ty : Ty) (value : ℤ) : Build MaskState :=
  match ty.shape with
  | some _ => do
    assertThat (ElementType.isInt ty.elt = true)
      "All elements must share a single integer constant value"
    let _ ← createConstant value
    return { MaskState.empty with scalar := some (.attr value) }
  | none => do
    assertThat (Ty.isIntOrIndex ty = true) "cast<IntegerAttr>"
    return { MaskState.empty with scalar := some (.attr value) }

def parseIntScalar (scalar : Value) : Build MaskState := do
  let castOp ← create fun id => .cast id .indexCast scalar .index
  return { MaskState.empty with scalar := some (.value castOp) }

def parseAdd (parseLhs parseRhs : Build MaskState) : Build MaskState := do
  let lhsState ← parseLhs
  let rhsState ← parseRhs
  addStates lhsState rhsState

def parseAnd (parseLhs parseRhs : Build MaskState) : Build MaskState := do
  let lhsState ← parseLhs
  let rhsState ← parseRhs
  if !lhsState.isMask || !rhsState.isMask then minStateScalar lhsState rhsState
  else minStates lhsState rhsState

/-- The one dimension whose size is not the constant 1, from `cmpDim`. -/
def findCmpDim : List OFR → ℕ → Option ℕ → Build (Option ℕ)
  | [], _, cmpDim => return cmpDim
  | dim :: dims, i, cmpDim =>
    if getIntAttr dim = some 1 then findCmpDim dims (i + 1) cmpDim
    else if cmpDim ≠ none then
      stop (.failure "Unsupported cmpi with more than one dimension with size larger than 1")
    else findCmpDim dims (i + 1) (some i)

def supported : CmpIPredicate → Bool
  | .slt | .ult | .sge => true
  | _ => false

/-- The size of the compared dimension. An upper bound below `start` gives an
empty box, not a negative one. -/
def compareDim (pred : CmpIPredicate) (lhsState rhsState : MaskState) (cmpDim : Option ℕ) :
    Build OFR :=
  match lhsState.scalar, rhsState.scalar with
  | some lhs, some rhs => do
    let dim ← dimAt lhsState.dims (cmpDim.getD 0)
    compareOFRs lhs rhs pred dim (.attr 0)
  | some _, none => stop (.assertion "Unexpected case where rhs is not a scalar")
  | none, rhs =>
    if pred = .slt ∨ pred = .ult then do
      let start ← deref lhsState.start
      let newEnd ← minOFRs (← deref lhsState.end') (← deref rhs)
      let newEnd ← maxOFRs newEnd start
      subOFRs newEnd start
    else
      match cmpDim with
      | some i => dimAt lhsState.dims i
      | none => stop (.assertion "idx < size()")

def parseCmp (pred : CmpIPredicate) (parseLhs parseRhs : Build MaskState) : Build MaskState :=
  if !supported pred then fail "Unsupported cmpi"
  else do
    let lhsState ← parseLhs
    let rhsState ← parseRhs
    if pred = .sge ∧ rhsState.scalar.any hasConstZero = false then
      fail "Unsupported cmpi with rhs not equal to 0"
    else do
      let cmpDim ← findCmpDim lhsState.dims 0
        (if lhsState.scalar.isSome && rhsState.scalar.isSome then some 0 else none)
      assertThat (cmpDim ≠ none ∨ (lhsState.scalar = none ∧ pred = .slt ∨ pred = .ult))
        "Unexpected case where no dimension has size larger than 1"
      let newDim ← compareDim pred lhsState rhsState cmpDim
      let dims := match cmpDim with
        | some i => lhsState.dims.set i newDim
        | none => lhsState.dims
      return { MaskState.empty with dims }

def parseMakeRange (start count : ℕ) : Build MaskState :=
  return { MaskState.empty with
    start := some (.attr start), end' := some (.attr (start + count)), dims := [.attr count] }

def broadcastDims : List ℕ → List ℕ → List OFR → Build (List OFR)
  | src :: srcShape, dst :: dstShape, dim :: dims =>
    if src = dst then do return dim :: (← broadcastDims srcShape dstShape dims)
    else if src < dst then do return .attr dst :: (← broadcastDims srcShape dstShape dims)
    else stop (.assertion "unexpected dimensions used in broadcast")
  | src :: srcShape, dst :: dstShape, [] =>
    if src = dst then broadcastDims srcShape dstShape []
    else if src < dst then stop (.assertion "idx < size()")
    else stop (.assertion "unexpected dimensions used in broadcast")
  | _, _, dims => return dims

def parseBroadcast (src : Value) (dstShape : List ℕ) (parseSrc : Build MaskState) :
    Build MaskState := do
  assertThat (src.ty.shape.isSome) "input to tt.broadcast should be a tensor"
  assertThat (src.shape.length = dstShape.length) "rank of source and destination should match"
  let state ← parseSrc
  let dims ← broadcastDims src.shape dstShape state.dims
  return { state with dims }

def Ty.isInteger (ty : Ty) : Bool := ty.shape.isNone && ElementType.isInt ty.elt

def parseSplat (src : Value) (dstShape : List ℕ) (parseSrc : Build MaskState) : Build MaskState :=
  if !Ty.isInteger src.ty then
    fail "splat source must be an integer scalar for load/store masks"
  else do
    let state ← parseSrc
    return { state with dims := state.dims ++ dstShape.map fun n : ℕ => OFR.attr n }

def parseExpandDims (axis : ℕ) (parseSrc : Build MaskState) : Build MaskState := do
  let state ← parseSrc
  assertThat (axis ≤ state.getRank) "Insertion iterator is out of bounds."
  return { state with dims := state.dims.insertIdx axis (.attr 1) }

def parseTensor (v : Value) (parseOp : Build MaskState) : Build MaskState :=
  if Ty.isInteger v.ty then parseIntScalar v else parseOp

/-- `iterArg` is what is done with an iter-arg of a loop. -/
def parseWith (iterArg : ℕ → ℕ → Build MaskState) : Value → Build MaskState
  | .constant _ ty value => parseConstant ty value
  | .binary id .addi lhs rhs =>
    parseTensor (.binary id .addi lhs rhs) (parseAdd (parseWith iterArg lhs) (parseWith iterArg rhs))
  | .binary id .andi lhs rhs =>
    parseTensor (.binary id .andi lhs rhs) (parseAnd (parseWith iterArg lhs) (parseWith iterArg rhs))
  | .cmpi id pred lhs rhs =>
    parseTensor (.cmpi id pred lhs rhs)
      (parseCmp pred (parseWith iterArg lhs) (parseWith iterArg rhs))
  | .makeRange _ start count => parseMakeRange start count
  | .broadcast id src shape =>
    parseTensor (.broadcast id src shape) (parseBroadcast src shape (parseWith iterArg src))
  | .splat id src shape =>
    parseTensor (.splat id src shape) (parseSplat src shape (parseWith iterArg src))
  | .expandDims id src axis =>
    parseTensor (.expandDims id src axis) (parseExpandDims axis (parseWith iterArg src))
  | .iterArg loop index ty => parseTensor (.iterArg loop index ty) (iterArg loop index)
  | .cast id .extSI src elt => parseTensor (.cast id .extSI src elt) (parseWith iterArg src)
  | v => parseTensor v (fail "")

/-- A range that moves with a loop: `start` is the iter-arg after it, which the
pointer analysis has set up, and the distance to `end` is that of the
init-arg. Nested loops are not supported. -/
def parseLoopIterArg (loops : LoopNest) (isNested : ℕ → Bool) (loop index : ℕ) :
    Build MaskState :=
  if isNested loop then fail ""
  else
    match (loops.initArgs loop)[index]? with
    | some (.structuredState _ tritonValue _) => do
      let lhsState ← parseWith (fun _ _ => fail "") tritonValue
      let (start, end') ←
        match lhsState.start, lhsState.end' with
        | none, none => do
          assertThat (lhsState.scalar.isSome) "MaskState must have a scalar"
          pure (some (OFR.attr 0), lhsState.scalar)
        | start, end' => pure (start, end')
      let dist ← subOFRs (← deref end') (← deref start)
      let start ← loops.getRegionIterArg loop (index + 1)
      let end' ← addOFRs (.value start) dist
      return { MaskState.empty with
        start := some (.value start), end' := some end', dims := lhsState.dims }
    | _ => fail ""

def parse (loops : LoopNest) (isNested : ℕ → Bool) (v : Value) : Build MaskState :=
  parseWith (parseLoopIterArg loops isNested) v

end TritonCpu.MaskAnalysis
