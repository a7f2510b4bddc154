import TritonCpu.PtrState

/-!
# The structured pointer analysis

`visitOperand` decodes a value into a pointer state, one visitor for each
operation. The states of loop-carried pointers are looked up through the
init-args of the loops.
-/

set_option autoImplicit false

namespace TritonCpu.AnalysisStructured
open Builder TritonIR OpFoldResult

/-- The init-args of the loops of a function, numbered in program order. A loop
can only take results of earlier loops. -/
structure LoopNest where
  initArgs : ℕ → List Value
  earlier : ∀ loop from' index ty, Value.forResult from' index ty ∈ initArgs loop → from' < loop

structure Context where
  knownPtrs : Value → Option PtrState
  loops : LoopNest
  enableMakeGatherScatterTensorPtr : Bool
  isAnalysisingUnstructured : Bool

def plainContext : Context where
  knownPtrs := fun _ => none
  loops := ⟨fun _ => [], by simp⟩
  enableMakeGatherScatterTensorPtr := false
  isAnalysisingUnstructured := false

/-- The values that stand for the `index`-th iter-arg and result of a loop. -/
def LoopNest.getRegionIterArg (loops : LoopNest) (loop index : ℕ) : Build Value :=
  match (loops.initArgs loop)[index]? with
  | some arg => return .iterArg loop index arg.ty
  | none => stop (.assertion "Invalid index!")

def LoopNest.getResult (loops : LoopNest) (loop index : ℕ) : Build Value :=
  match (loops.initArgs loop)[index]? with
  | some arg => return .forResult loop index arg.ty
  | none => stop (.assertion "Invalid index!")

/-- The offsets, or the strides, are replaced by the values that carry them. -/
def replaceFrom (getReplacementVal : ℕ → Build Value) (set : Dim → OFR → Dim) :
    ℕ → List Dim → Build (List Dim)
  | _, [] => return []
  | cnt, d :: rest => do
    let v ← getReplacementVal cnt
    return set d (.value v) :: (← replaceFrom getReplacementVal set (cnt + 1) rest)

def reconcileLoopPtrState (iterArgIndex : ℕ) (state : PtrState)
    (getReplacementVal : ℕ → Build Value) : Build PtrState := do
  let cnt := iterArgIndex + 1
  if state.rank = 0 then
    assertThat (state.scalar.isSome) "newState.scalar"
    return { state with scalar := some (← getReplacementVal cnt) }
  else
    let dims ← replaceFrom getReplacementVal (fun d o => { d with offset := o }) cnt state.dims
    let dims ← replaceFrom getReplacementVal (fun d o => { d with stride := o })
      (cnt + state.rank) dims
    return { state with dims }

def structuredOriginal : Value → Option Value
  | .structuredState _ original _ => some original
  | _ => none

def hasDefiningOp : Value → Bool
  | .blockArg _ _ | .iterArg _ _ _ => false
  | _ => true

/-- The state of the init-arg, found through chains of earlier loops. -/
def getLoopInitArgPtrState (knownPtrs : Value → Option PtrState) (loops : LoopNest) :
    ℕ → ℕ → ℕ → Build PtrState
  | 0, _, _ => fail ""
  | fuel + 1, loop, index =>
    match (loops.initArgs loop)[index]? with
    | none => stop (.assertion "Invalid index!")
    | some ptr =>
      match (structuredOriginal ptr).bind knownPtrs with
      | some state => return state
      | none =>
        match ptr with
        | .forResult from' _ _ => do
          let state ← getLoopInitArgPtrState knownPtrs loops fuel from' index
          if !state.isStructured then fail ""
          else reconcileLoopPtrState index state (loops.getResult from')
        | ptr =>
          match knownPtrs ptr with
          | some state => do
            assertThat (hasDefiningOp ptr = false) "Expect the ptr to be an iterarg"
            return state
          | none => fail ""

def getLoopPtrState (knownPtrs : Value → Option PtrState) (loops : LoopNest) (loop index : ℕ)
    (getReplacementVal : ℕ → Build Value) : Build PtrState := do
  let state ← getLoopInitArgPtrState knownPtrs loops (loop + 1) loop index
  if !state.isStructured then fail ""
  else reconcileLoopPtrState index state getReplacementVal

def getLoopIterArgPtrState (knownPtrs : Value → Option PtrState) (loops : LoopNest)
    (loop index : ℕ) : Build PtrState :=
  getLoopPtrState knownPtrs loops loop index (loops.getRegionIterArg loop)

def getLoopResultPtrState (knownPtrs : Value → Option PtrState) (loops : LoopNest)
    (loop index : ℕ) : Build PtrState :=
  getLoopPtrState knownPtrs loops loop index (loops.getResult loop)

variable (ctx : Context)

/-- `cond && s.hasModulo()`. -/
def hasModuloIf (cond : Bool) (s : PtrState) : Build Bool :=
  if cond then s.hasModulo else return false

/-- A modulo is cleared where the other operand is not structured. -/
def clearModulo (lhs rhs : Value) (lhsState rhsState : PtrState) :
    Build (PtrState × PtrState) := do
  let clearRhs ← hasModuloIf (!lhsState.isStructured) rhsState
  if clearRhs then
    if !ctx.enableMakeGatherScatterTensorPtr then fail ""
    else
      let dim ← lhsState.getNonStructuredDim
      return (lhsState, ← rhsState.rebuildAsGatherScatter rhs dim)
  else
    let lhsModulo ← lhsState.hasModulo
    if lhsModulo && !rhsState.isStructured then
      if !ctx.enableMakeGatherScatterTensorPtr then fail ""
      else
        let dim ← rhsState.getNonStructuredDim
        return (← lhsState.rebuildAsGatherScatter lhs dim, rhsState)
    else return (lhsState, rhsState)

/-- `visitOperandAdd` on the states of its operands. -/
def addOperands (lhs rhs : Value) (lhsState rhsState : PtrState) : Build PtrState := do
  let lhsModulo ← hasModuloIf (lhsState.rank = 1) lhsState
  let rhsModulo ← hasModuloIf (!lhsModulo && rhsState.rank = 1) rhsState
  if lhsModulo || rhsModulo then
    fail "PtrAnalysis: do not support this pattern: a + arange(0, K) % M"
  else
    let (lhsState, rhsState) ← clearModulo ctx lhs rhs lhsState rhsState
    addState lhsState rhsState ctx.isAnalysisingUnstructured

def visitOperandAdd (lhs rhs : Value) (visitLhs visitRhs : Build PtrState) : Build PtrState := do
  let lhsState ← visitLhs
  let rhsState ← visitRhs
  addOperands ctx lhs rhs lhsState rhsState

def visitOperandMul (lhs rhs : Value) (visitLhs visitRhs : Build PtrState) : Build PtrState := do
  let lhsState ← visitLhs
  let rhsState ← visitRhs
  let (lhsState, rhsState) ← clearModulo ctx lhs rhs lhsState rhsState
  mulState lhsState rhsState ctx.isAnalysisingUnstructured

def setShape (s : PtrState) (dim : ℕ) (scalar : Value) : PtrState :=
  { s with dims := s.dims.modify dim fun d => { d with shape := .value scalar } }

/-- The modulo is put on the only dimension, or on the one of two that is not
a singleton. -/
def applyModulo (remOp : Value) (state : PtrState) (scalar : Value) : Build PtrState := do
  let modulo ← state.hasModulo
  if modulo then
    if state.rank = 1 ∧ ctx.enableMakeGatherScatterTensorPtr then
      state.rebuildAsGatherScatter remOp 0
    else fail "PtrAnalysis: do not support multiple modulo within an expression"
  else if state.rank = 1 then return setShape state 0 scalar
  else if state.rank = 2 then
    match remOp.shape with
    | [1, _] => return setShape state 1 scalar
    | [_, 1] => return setShape state 0 scalar
    | _ =>
      fail ("PtrAnalysis: taking modulo on a 2D tensor with no singleton dimension not " ++
        "supported")
  else fail "PtrAnalysis: unsupported modulo pattern"

def visitOperandRem (remOp : Value) (visitLhs visitRhs : Build PtrState) : Build PtrState :=
  if ctx.isAnalysisingUnstructured then PtrState.empty.rebuildAsUnsupportedOp remOp
  else do
    let rhsState ← visitRhs
    match rhsState.scalar with
    | none => fail "PtrAnalysis: only support cases when rhs of remainder contains scalar"
    | some scalar =>
      let state ← visitLhs
      if !state.isStructured then
        state.rebuildAsGatherScatter remOp (← state.getNonStructuredDim)
      else applyModulo ctx remOp state scalar

def visitOperandMakeRange (start count : ℕ) : Build PtrState :=
  return ⟨[⟨.attr start, .attr count, .attr 1, .attr 0⟩], [], none, none⟩

/-- The analysis gives up on a modulo in more than two dimensions. -/
def rejectModulo (s : PtrState) (remark : String) : Build PtrState := do
  let modulo ← s.hasModulo
  if modulo && s.rank > 2 then fail remark else return s

def visitOperandExpandDims (axis : ℕ) (visitSrc : Build PtrState) : Build PtrState := do
  let state ← visitSrc
  rejectModulo
    { state with dims := state.dims.insertIdx axis ⟨.attr 0, .attr 1, .attr 0, .attr 0⟩ }
    "PtrAnalysis: unsupported scenario where expand_dims result has modulo and rank > 2"

def broadcastDims : List ℕ → List ℕ → List Dim → Build (List Dim)
  | s :: src, t :: dst, d :: dims => do
    if s = t then return d :: (← broadcastDims src dst dims)
    else if s < t then return { d with size := .attr t } :: (← broadcastDims src dst dims)
    else stop (.assertion "unexpected dimensions used in broadcast")
  | [], [], dims => return dims
  | _, _, _ => stop (.assertion "rank of source and destination should match")

def visitOperandBroadcast (src : Value) (dstShape : List ℕ) (visitSrc : Build PtrState) :
    Build PtrState :=
  match src.ty.shape with
  | none => fail "PtrAnalysis: Unsupported broadcast source type"
  | some srcShape => do
    let state ← visitSrc
    return { state with dims := ← broadcastDims srcShape dstShape state.dims }

def splatDim (size : ℕ) : Dim := ⟨.attr 0, .attr size, .attr 0, .attr 0⟩

def setFirstOffset (dims : List Dim) (scalar : Option Value) : Build (List Dim) :=
  match scalar, dims with
  | none, dims => return dims
  | some scalar, d :: dims => return { d with offset := .value scalar } :: dims
  | some _, [] => stop (.assertion "idx < size()")

def visitOperandSplat (src : Value) (dstShape : List ℕ) (visitSrc : Build PtrState) :
    Build PtrState := do
  let state ← visitSrc
  if src.ty.shape.isSome then fail "PtrAnalysis: unsupported splat pattern"
  else
    let dims ← setFirstOffset (state.dims ++ dstShape.map splatDim) state.scalar
    rejectModulo { state with dims }
      "PtrAnalysis: unsupported scenario where splat result has modulo and rank > 2"

def visitOperandAddptr (visitPtr visitOffset : Build PtrState) : Build PtrState := do
  let ptrState ← visitPtr
  let offsetState ← visitOffset
  assertThat ptrState.source.isSome "ptr field should provide source / base pointer"
  addState ptrState offsetState ctx.isAnalysisingUnstructured

def visitOperandConstSplat (ty : Ty) (value : ℤ) : Build PtrState :=
  match ty with
  | ⟨some (size :: shape), .int _⟩ => do
    let constOp ← createConstant value
    return ⟨{ splatDim size with offset := .value constOp } :: shape.map splatDim, [], none,
      some constOp⟩
  | ⟨some [], .int _⟩ => return ⟨[], [], none, some (← createConstant value)⟩
  | _ => stop (.assertion "attr.isSplat() && isa<IntegerType>(elementType)")

def visitUnsupported (operand : Value) : Build PtrState :=
  if !ctx.enableMakeGatherScatterTensorPtr then fail ""
  else PtrState.empty.rebuildAsUnsupportedOp operand

def visitBlockArg (operand : Value) : Build PtrState :=
  if ctx.isAnalysisingUnstructured ∧ operand.ty.elt ≠ .ptr ∧ operand.ty.elt ≠ .index then
    PtrState.empty.rebuildAsUnsupportedOp operand
  else
    match ctx.knownPtrs operand with
    | some state => return state
    | none => fail ""

def sourceState (operand : Value) : Build PtrState :=
  return { PtrState.empty with source := some operand }

def unexpectedPointer : Build PtrState :=
  fail "Unexpected defining op for triton pointer operand"

def scalarState (operand : Value) : Build PtrState :=
  match operand.ty.elt with
  | .int _ => do
    let castOp ← create fun id => .cast id .indexCast operand .index
    return { PtrState.empty with scalar := some castOp }
  | _ => return { PtrState.empty with scalar := some operand }

/-- What `visitOperand` decides before it looks at the defining operation. -/
def dispatch (operand : Value) (pointer tensor : Build PtrState) : Build PtrState :=
  match if ctx.isAnalysisingUnstructured then none else ctx.knownPtrs operand with
  | some state => return state
  | none =>
    match operand.ty with
    | ⟨none, .int _⟩ | ⟨none, .index⟩ => scalarState operand
    | ⟨none, .ptr⟩ => pointer
    | _ => tensor

def visitOperand : Value → Build PtrState
  | .binary id .addi lhs rhs =>
    dispatch ctx (.binary id .addi lhs rhs) unexpectedPointer
      (visitOperandAdd ctx lhs rhs (visitOperand lhs) (visitOperand rhs))
  | .binary id .muli lhs rhs =>
    dispatch ctx (.binary id .muli lhs rhs) unexpectedPointer
      (visitOperandMul ctx lhs rhs (visitOperand lhs) (visitOperand rhs))
  | .makeRange id start count =>
    dispatch ctx (.makeRange id start count) unexpectedPointer (visitOperandMakeRange start count)
  | .broadcast id src shape =>
    dispatch ctx (.broadcast id src shape) unexpectedPointer
      (visitOperandBroadcast src shape (visitOperand src))
  | .splat id src shape =>
    dispatch ctx (.splat id src shape) unexpectedPointer
      (visitOperandSplat src shape (visitOperand src))
  | .expandDims id src axis =>
    dispatch ctx (.expandDims id src axis) unexpectedPointer
      (visitOperandExpandDims axis (visitOperand src))
  | .addptr id ptr offset =>
    dispatch ctx (.addptr id ptr offset)
      (visitOperandAddptr ctx (visitOperand ptr) (visitOperand offset))
      (visitOperandAddptr ctx (visitOperand ptr) (visitOperand offset))
  | .constant id ty value =>
    dispatch ctx (.constant id ty value) unexpectedPointer (visitOperandConstSplat ty value)
  | .binary id .remsi lhs rhs =>
    dispatch ctx (.binary id .remsi lhs rhs) unexpectedPointer
      (visitOperandRem ctx (.binary id .remsi lhs rhs) (visitOperand lhs) (visitOperand rhs))
  | .cast id .extSI src elt =>
    dispatch ctx (.cast id .extSI src elt) unexpectedPointer (visitOperand src)
  | .cast id .extUI src elt =>
    dispatch ctx (.cast id .extUI src elt) unexpectedPointer (visitOperand src)
  | .forResult loop index ty =>
    dispatch ctx (.forResult loop index ty) unexpectedPointer
      (getLoopResultPtrState ctx.knownPtrs ctx.loops loop index)
  | .blockArg id ty =>
    dispatch ctx (.blockArg id ty) (sourceState (.blockArg id ty)) (visitBlockArg ctx (.blockArg id ty))
  | .iterArg loop index ty =>
    dispatch ctx (.iterArg loop index ty) (sourceState (.iterArg loop index ty))
      (visitBlockArg ctx (.iterArg loop index ty))
  | .pointerOp id ty =>
    dispatch ctx (.pointerOp id ty) (sourceState (.pointerOp id ty))
      (visitUnsupported ctx (.pointerOp id ty))
  | operand => dispatch ctx operand unexpectedPointer (visitUnsupported ctx operand)

end TritonCpu.AnalysisStructured
