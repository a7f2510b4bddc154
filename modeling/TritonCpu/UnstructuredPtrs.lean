import TritonCpu.UnstructuredIR

/-!
# From pointers to offsets

The worklist follows the uses of every pointer argument and keeps a base, an
offset and its width for each pointer. The accesses are rewritten after it, and
the pointer operations give way to their offsets last.
-/

set_option autoImplicit false

namespace TritonCpu.TritonToUnstructured

structure PtrOffset where
  ptr : Value
  ptrType : Ty
  bitWidth : ℕ
  offset : Value
deriving DecidableEq

/-- The module while the pass works on it. `before` holds the operations made in
front of a position and `op` what stands there, nothing once it is erased.
`pending` holds the uses left of the value the worklist has reached. -/
structure State where
  types : Value → Ty
  entry : List Op
  before : ℕ → List Op
  op : ℕ → Option Op
  next : Value
  offsetMap : Value → Option PtrOffset
  workList : List Value
  pending : List Use
  toDelete : List ℕ
  ptrUsers : List ℕ

/-- A lookup of a missing entry, or of an erased operation, is a crash. -/
inductive Outcome where
  | success (s : State)
  | failure (s : State)
  | crash

namespace State

def setType (s : State) (v : Value) (t : Ty) : State :=
  { s with types := Function.update s.types v t }

/-- A new operation in front of position `k`. Its result is `s.next`. -/
def create (s : State) (k : ℕ) (t : Ty) (mk : Value → Op) : State :=
  { s.setType s.next t with
    before := Function.update s.before k (s.before k ++ [mk s.next])
    next := s.next + 1 }

def setOp (s : State) (k : ℕ) (o : Option Op) : State :=
  { s with op := Function.update s.op k o }

def replace (s : State) (k : ℕ) (o : Op) : State :=
  { s with
    before := Function.update s.before k (s.before k ++ [o])
    op := Function.update s.op k none }

def insert (s : State) (v : Value) (e : PtrOffset) : State :=
  { s with offsetMap := Function.update s.offsetMap v (some ((s.offsetMap v).getD e)) }

def push (s : State) (v : Value) : State := { s with workList := s.workList ++ [v] }

/-- A pointer operation at `k` is done: its result has an entry and is next. -/
def finishPtr (s : State) (k : ℕ) (res : Value) (e : PtrOffset) : State :=
  let s := (s.insert res e).push res
  { s with toDelete := s.toDelete ++ [k] }

def withOffset (s : State) (v : Value) (f : PtrOffset → Outcome) : Outcome :=
  match s.offsetMap v with
  | none => .crash
  | some e => f e

/-- Widens `v` from `width` to `resWidth`, where that is more. -/
def extend (s : State) (k : ℕ) (t : Ty) (v : Value) (width resWidth : ℕ) : Value × State :=
  if width < resWidth then
    (s.next, s.create k (getPtrOffsetType t resWidth) fun res => .cast .extsi res v)
  else (v, s)

end State

open State

/-! ## The uses of a pointer -/

def processPtrToInt (m : Module) (s : State) (k : ℕ) (res src : Value) : Outcome :=
  if (m.types res).shape.isSome then .failure s
  else s.withOffset src fun e =>
    let t := s.create k e.ptrType fun ptr => .addptr ptr e.ptr e.offset false
    -- setting the operand moves the use to the end of another value's list,
    -- and the iteration over the uses of `src` ends there
    .success { t.setOp k (some (.ptrToInt res s.next)) with pending := [] }

def processAddPtr (m : Module) (s : State) (k : ℕ) (res ptr offset : Value) (inIf : Bool) :
    Outcome :=
  if inIf then .failure s
  else s.withOffset ptr fun e =>
    let rhsWidth := getBitWidth (m.types offset)
    let resWidth := max e.bitWidth rhsWidth
    let prevOff := s.extend k e.ptrType e.offset e.bitWidth resWidth
    let off := prevOff.2.extend k e.ptrType offset rhsWidth resWidth
    let t := off.2.create k (getPtrOffsetType (m.types res) resWidth) fun accumulatedOff =>
      .addi accumulatedOff prevOff.1 off.1
    .success (t.finishPtr k res ⟨e.ptr, m.types res, resWidth, off.2.next⟩)

def processBitcast (m : Module) (s : State) (k : ℕ) (res src : Value) : Outcome :=
  if isPtrTypeLike (m.types res) then
    s.withOffset src fun e =>
      let resultElemPtrType : Ty := ⟨none, (m.types res).elt⟩
      if s.types e.ptr ≠ resultElemPtrType then
        let t := s.create k resultElemPtrType fun newBase => .bitcast newBase e.ptr
        .success (t.finishPtr k res ⟨s.next, m.types res, e.bitWidth, e.offset⟩)
      else .success (s.finishPtr k res ⟨e.ptr, m.types res, e.bitWidth, e.offset⟩)
  else .success s

def processShape (m : Module) (s : State) (k : ℕ) (name : ShapeName) (res src : Value) : Outcome :=
  if isPtrTypeLike (m.types res) then
    s.withOffset src fun e =>
      let t := s.create k (getPtrOffsetType (m.types res) e.bitWidth) fun clone =>
        .shape name none clone e.offset
      .success (t.finishPtr k res ⟨e.ptr, m.types res, e.bitWidth, s.next⟩)
  else .success s

/-- The region argument and the result take the type of the offset in place. -/
def processFor (s : State) (loop : Loop) (argIndex : ℕ) : Outcome :=
  match loop.inits[argIndex]?, loop.iterArgs[argIndex]?, loop.results[argIndex]? with
  | some init, some iterArg, some res =>
    s.withOffset init fun e =>
      let offsetType := getPtrOffsetType e.ptrType e.bitWidth
      let t := (s.setType iterArg offsetType).setType res offsetType
      let t := t.insert iterArg { e with offset := iterArg }
      let t := t.insert res { e with offset := res }
      .success ((t.push iterArg).push res)
  | _, _, _ => .crash

def ptrArgs (m : Module) : List Value := m.args.filter fun v => isPtrTypeLike (m.types v)

def pushUser (s : State) (k : ℕ) : Outcome := .success { s with ptrUsers := s.ptrUsers ++ [k] }

def process (m : Module) (s : State) (u : Use) : Outcome :=
  match m.ops[u.user]? with
  | none => .crash
  | some (.ptrToInt res src) => processPtrToInt m s u.user res src
  | some (.addptr res ptr offset inIf) => processAddPtr m s u.user res ptr offset inIf
  | some (.bitcast res src) => processBitcast m s u.user res src
  | some (.shape name _ res src) => processShape m s u.user name res src
  | some (.makeGatherScatterTensorPtr _ _ _) => .success s
  | some (.load _ _ _ _) => pushUser s u.user
  | some (.store _ _ _) => pushUser s u.user
  | some (.makeTensorPtr _ _ _ _) => pushUser s u.user
  | some (.ttsMakeTensorPtr _ base _ _) =>
    if base ∈ ptrArgs m then .success s else pushUser s u.user
  | some (.atomic _ _ _ _) => pushUser s u.user
  -- the bounds of a loop come before its inits
  | some (.forOp loop) => processFor s loop (u.operand - 3)
  | some (.yield _) => .success s
  | some (.cat _ _ _) => .failure s
  | some _ => .failure s

def walk (m : Module) : ℕ → State → Option Outcome
  | 0, _ => none
  | fuel + 1, s =>
    match s.pending, s.workList with
    | u :: rest, _ =>
      match process m { s with pending := rest } u with
      | .success t => walk m fuel t
      | .failure t => some (.failure t)
      | .crash => some .crash
    | [], v :: queue => walk m fuel { s with pending := m.uses v, workList := queue }
    | [], [] => some (.success s)

def emptyState (m : Module) : State where
  types := m.types
  entry := []
  before _ := []
  op k := m.ops[k]?
  next := m.next
  offsetMap _ := none
  workList := []
  pending := []
  toDelete := []
  ptrUsers := []

def startArg (defaultBitWidth : ℕ) (s : State) (arg : Value) : State :=
  let t : State :=
    { s.setType s.next ⟨none, .scalar (.int defaultBitWidth)⟩ with
      entry := s.entry ++ [.constant s.next (some 0)]
      next := s.next + 1 }
  (t.insert arg ⟨arg, s.types arg, defaultBitWidth, s.next⟩).push arg

/-- An offset of zero in front of a scalar `tt.int_to_ptr`. -/
def startIntToPtr (m : Module) (defaultBitWidth : ℕ) (s : State) (k : ℕ) : State :=
  match m.ops[k]? with
  | some (.intToPtr res _) =>
    if (m.types res).shape.isSome then s
    else
      let t := s.create k ⟨none, .scalar (.int defaultBitWidth)⟩ fun v => .constant v (some 0)
      (t.insert res ⟨res, m.types res, defaultBitWidth, s.next⟩).push res
  | _ => s

def start (m : Module) (defaultBitWidth : ℕ) : State :=
  (List.range m.ops.length).foldl (startIntToPtr m defaultBitWidth)
    ((ptrArgs m).foldl (startArg defaultBitWidth) (emptyState m))

/-! ## The accesses -/

def definingOp (m : Module) (v : Value) : Option Op := m.ops.find? fun o => v ∈ o.results

/-- The scalar a tensor repeats, and the casts between, the innermost first. A
chain of definitions is no longer than the module. -/
def scalarSource (m : Module) : ℕ → Value → List CastKind → Option ((Value ⊕ ℤ) × List CastKind)
  | 0, _, _ => none
  | fuel + 1, v, casts =>
    if (m.types v).shape.isNone then some (.inl v, casts)
    else
      match definingOp m v with
      | some (.constant _ (some value)) => some (.inr value, casts)
      | some (.shape .splat _ _ src) => scalarSource m fuel src casts
      | some (.cast .sitofp _ src) => scalarSource m fuel src (.sitofp :: casts)
      | some (.cast .truncf _ src) => scalarSource m fuel src (.truncf :: casts)
      | _ => none

/-- The type between two casts plays no part here, so each gets the last one. -/
def reconstructScalarValue (s : State) (k : ℕ) (t : Ty) : Value → List CastKind → Value × State
  | v, [] => (v, s)
  | v, kind :: casts =>
    reconstructScalarValue (s.create k t fun res => .cast kind res v) k t s.next casts

def getScalarValue (m : Module) (s : State) (k : ℕ) (operand : Value) : Option (Value × State) :=
  let t : Ty := ⟨none, (m.types operand).elt⟩
  (scalarSource m (m.ops.length + 1) operand []).map fun source =>
    match source.1 with
    | .inl v => reconstructScalarValue s k t v source.2
    | .inr value =>
      let c := s.create k t fun res => .constant res (some value)
      reconstructScalarValue c k t s.next source.2

/-- `tt.addptr` of base and offset again; a scalar base under a tensor of
offsets is splat first. -/
def materialize (s : State) (k : ℕ) (e : PtrOffset) (splatBase : Bool) : Value × State :=
  if splatBase ∧ e.ptrType.shape.isSome ∧ (s.types e.ptr).shape.isNone then
    let t := s.create k e.ptrType fun base => .shape .splat none base e.ptr
    (t.next, t.create k e.ptrType fun ptr => .addptr ptr s.next e.offset false)
  else (s.next, s.create k e.ptrType fun ptr => .addptr ptr e.ptr e.offset false)

def rewriteLoad (m : Module) (s : State) (k : ℕ) (res ptr : Value) (mask other : Option Value) :
    Outcome :=
  s.withOffset ptr fun e =>
    if (m.types res).shape.isNone then
      let ptr := materialize s k e false
      .success (ptr.2.setOp k (some (.load res ptr.1 mask other)))
    else
      match other with
      -- the gather's result takes the load's place in every use
      | none => .success (s.replace k (.gather res e.ptr e.offset mask none))
      | some other =>
        match getScalarValue m s k other with
        | none => .failure s
        | some scalar =>
          .success (scalar.2.replace k (.gather res e.ptr e.offset mask (some scalar.1)))

def rewriteStore (m : Module) (s : State) (k : ℕ) (ptr value : Value) (mask : Option Value) :
    Outcome :=
  s.withOffset ptr fun e =>
    if (m.types value).shape.isNone then
      let ptr := materialize s k e false
      .success (ptr.2.setOp k (some (.store ptr.1 value mask)))
    else .success (s.replace k (.scatter e.ptr e.offset value mask))

def rewriteAtomic (s : State) (k : ℕ) (kind : AtomicKind) (res ptr : Value) (args : List Value) :
    Outcome :=
  s.withOffset ptr fun e =>
    let ptr := materialize s k e true
    .success (ptr.2.setOp k (some (.atomic kind res ptr.1 args)))

/-- The offset of the base as the type of the first offset operand. -/
def castOffset (s : State) (k : ℕ) (baseOffset : Value) (currOffType : Ty) : Value × State :=
  if s.types baseOffset = currOffType then (baseOffset, s)
  else
    match currOffType.elt with
    | .index => (s.next, s.create k currOffType fun res => .cast .indexCast res baseOffset)
    | .scalar (.int width) =>
      if getBitWidth (s.types baseOffset) < width then
        (s.next, s.create k currOffType fun res => .cast .extsi res baseOffset)
      else (s.next, s.create k currOffType fun res => .cast .trunci res baseOffset)
    | _ => (baseOffset, s)

def rewriteMakeTensorPtr (s : State) (k : ℕ) (res base : Value) (offsets rest : List Value) :
    Outcome :=
  s.withOffset base fun e =>
    match offsets with
    | [] => .crash
    | currOffset :: others =>
      let baseOffset := castOffset s k e.offset (s.types currOffset)
      let t := baseOffset.2.create k (s.types currOffset) fun sum =>
        .addi sum baseOffset.1 currOffset
      .success (t.setOp k (some (.makeTensorPtr res e.ptr (baseOffset.2.next :: others) rest)))

def indexType : Ty := ⟨none, .index⟩

def addOFRs (s : State) (k : ℕ) (lhs : MixedOffset) (rhs : Value) : Value × State :=
  match lhs with
  | .attr 0 => (rhs, s)
  | .attr n =>
    let t := s.create k indexType fun res => .constant res (some n)
    (t.next, t.create k indexType fun res => .addi res s.next rhs)
  | .value v => (s.next, s.create k indexType fun res => .addi res v rhs)

def rewriteTtsMakeTensorPtr (s : State) (k : ℕ) (res base : Value) (offsets : List MixedOffset)
    (rest : List Value) : Outcome :=
  s.withOffset base fun e =>
    match offsets with
    | [] => .failure s
    | front :: others =>
      let t := s.create k indexType fun v => .cast .indexCast v e.offset
      let sum := addOFRs t k front s.next
      .success (sum.2.replace k (.ttsMakeTensorPtr res e.ptr (.value sum.1 :: others) rest))

def rewriteUser (m : Module) (s : State) (k : ℕ) : Outcome :=
  match s.op k with
  | some (.load res ptr mask other) => rewriteLoad m s k res ptr mask other
  | some (.store ptr value mask) => rewriteStore m s k ptr value mask
  | some (.atomic kind res ptr args) => rewriteAtomic s k kind res ptr args
  | some (.makeTensorPtr res base offsets rest) => rewriteMakeTensorPtr s k res base offsets rest
  | some (.ttsMakeTensorPtr res base offsets rest) =>
    rewriteTtsMakeTensorPtr s k res base offsets rest
  | some _ => .failure s
  | none => .crash

def rewriteUsers (m : Module) : List ℕ → State → Outcome
  | [], s => .success s
  | k :: ks, s =>
    match rewriteUser m s k with
    | .success t => rewriteUsers m ks t
    | .failure t => .failure t
    | .crash => .crash

/-- The pass up to the deletion of the pointer operations, which cannot fail. -/
def processUnstructuredPtrs (m : Module) (defaultBitWidth fuel : ℕ) : Option Outcome :=
  match walk m fuel (start m defaultBitWidth) with
  | some (.success s) => some (rewriteUsers m s.ptrUsers s)
  | outcome => outcome

/-! ## The finished program -/

end TritonCpu.TritonToUnstructured
