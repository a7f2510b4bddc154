import Mathlib.Data.Finset.Prod
import Mathlib.Data.Finset.Lattice.Fold
import TritonCpu.Interval

/-!
# The shared-memory barrier analysis

`BlockInfo` records the byte intervals read and written since the last
synchronisation, each with the operations that touch it. `update` is the
transfer function of one operation; it rewrites the block while the worklist
of `resolve` is still running, so the body of every block is part of the
state. `ModuleMembarAnalysis::run` resolves the functions in post-order.
-/

set_option autoImplicit false

namespace TritonCpu.Membar

abbrev OpId := ℕ
abbrev FuncId := ℕ

/-- Non-terminator operations. `effects` carries the intervals of the buffers
its memory effects name and, when the allocation gave it one, its scratch
buffer. A call owns a virtual buffer of the caller, at whose offset the
callee's shared memory starts. -/
inductive Op where
  | barrier
  | asyncWait
  | effects (id : OpId) (reads writes : List Interval) (scratch : Option Interval)
  | call (id : OpId) (callee : FuncId) (offset : ℕ)
  deriving DecidableEq, Repr

inductive Terminator (B : Type) where
  | branch (successors : List B)
  | ret
  deriving DecidableEq, Repr

/-- The blocks are listed in walk order; `blocks_complete` makes the graph
finite. -/
structure Function (B : Type) where
  blocks : List B
  blocks_complete : ∀ b, b ∈ blocks
  entry : B
  ops : B → List Op
  terminator : B → Terminator B

abbrev IntervalMap := Finset (Interval × OpId)

@[ext]
structure BlockInfo where
  syncReadIntervals : IntervalMap
  syncWriteIntervals : IntervalMap
  deriving DecidableEq

namespace BlockInfo

def empty : BlockInfo := ⟨∅, ∅⟩

def join (a b : BlockInfo) : BlockInfo :=
  ⟨a.syncReadIntervals ∪ b.syncReadIntervals, a.syncWriteIntervals ∪ b.syncWriteIntervals⟩

def sync (_ : BlockInfo) : BlockInfo := empty

end BlockInfo

abbrev MembarFilterFn := Option (OpId → OpId → Bool)

def mapsIntersected (filter : MembarFilterFn) (lhs rhs : IntervalMap) : Prop :=
  ∃ l ∈ lhs, ∃ r ∈ rhs, l.1.intersects r.1 = true ∧
    (filter.elim true fun f => !f l.2 r.2) = true

instance (filter : MembarFilterFn) (lhs rhs : IntervalMap) :
    Decidable (mapsIntersected filter lhs rhs) := by
  unfold mapsIntersected
  infer_instance

def BlockInfo.isIntersected (filter : MembarFilterFn) (a b : BlockInfo) : Prop :=
  mapsIntersected filter a.syncWriteIntervals b.syncReadIntervals ∨
  mapsIntersected filter a.syncReadIntervals b.syncWriteIntervals ∨
  mapsIntersected filter a.syncWriteIntervals b.syncWriteIntervals

instance (filter : MembarFilterFn) (a b : BlockInfo) :
    Decidable (a.isIntersected filter b) := by
  unfold BlockInfo.isIntersected
  infer_instance

def intervalMap (id : OpId) (intervals : List Interval) : IntervalMap :=
  (intervals.map fun i => (i, id)).toFinset

/-- A fatal error of the compiler, or a loop cut off before its end. -/
inductive Halt where
  | fatalError (text : String)
  | unfinished
  deriving DecidableEq, Repr

def scratchDependencies : Halt := .fatalError
  "scratch buffer operations should not have any shared memory dependencies"

section Update

variable (filter : MembarFilterFn) (funcBlockInfoMap : FuncId → BlockInfo)

/-- The operations of `curBlockInfo` before the scratch buffer is added. -/
def curBlockInfo : Op → BlockInfo
  | .effects id reads writes _ => ⟨intervalMap id reads, intervalMap id writes⟩
  | .call _ callee _ => funcBlockInfoMap callee
  | _ => BlockInfo.empty

def barrierIf (p : Prop) [Decidable p] (op : Op) : List Op :=
  if p then [.barrier, op] else [op]

/-- `update` returns the operations that stand for `op` after it and the new
block information. A barrier put after an `async_wait` is visited next and
synchronises an already empty `blockInfo`. -/
def update (op : Op) (next : Option Op) (blockInfo : BlockInfo) :
    Except Halt (List Op × BlockInfo) :=
  let cur := curBlockInfo funcBlockInfoMap op
  match op with
  | .barrier => .ok ([op], blockInfo.sync)
  | .asyncWait =>
    if next = some .barrier then .ok ([op], blockInfo)
    else .ok ([op, .barrier], blockInfo.sync)
  | .effects id _ _ (some interval) =>
    if cur.syncReadIntervals.Nonempty ∨ cur.syncWriteIntervals.Nonempty then
      .error scratchDependencies
    else
      let written : BlockInfo := ⟨∅, {(interval, id)}⟩
      .ok (barrierIf (blockInfo.isIntersected filter written) op,
        blockInfo.sync.join ⟨{(interval, id)}, {(interval, id)}⟩)
  | _ =>
    let blockInfo' := if blockInfo.isIntersected filter cur then blockInfo.sync else blockInfo
    .ok (barrierIf (blockInfo.isIntersected filter cur) op, blockInfo'.join cur)

def visitBlock : List Op → BlockInfo → Except Halt (List Op × BlockInfo)
  | [], info => .ok ([], info)
  | op :: rest, info => do
    let (ops, info) ← update filter funcBlockInfoMap op rest.head? info
    let (rest, info) ← visitBlock rest info
    return (ops ++ rest, info)

end Update

def Terminator.successors {B : Type} : Terminator B → List B
  | .branch successors => successors
  | .ret => []

structure ResolveState (B : Type) where
  ops : B → List Op
  inputBlockInfoMap : B → BlockInfo
  outputBlockInfoMap : B → Option BlockInfo
  blockList : List B

section Resolve

variable {B : Type} [DecidableEq B]
variable (filter : MembarFilterFn) (funcBlockInfoMap : FuncId → BlockInfo)

def initialState (f : Function B) : ResolveState B where
  ops := f.ops
  inputBlockInfoMap _ := BlockInfo.empty
  outputBlockInfoMap _ := none
  blockList := [f.entry]

def pushSuccessors (output : BlockInfo) (successors : List B) (s : ResolveState B) :
    ResolveState B :=
  successors.foldl (fun s successor =>
    { s with
      inputBlockInfoMap := Function.update s.inputBlockInfoMap successor
        ((s.inputBlockInfoMap successor).join output)
      blockList := s.blockList ++ [successor] }) s

def visit (f : Function B) (block : B) (s : ResolveState B) :
    Except Halt (ResolveState B) := do
  let (ops, info) ← visitBlock filter funcBlockInfoMap (s.ops block) (s.inputBlockInfoMap block)
  let s := { s with ops := Function.update s.ops block ops }
  if s.outputBlockInfoMap block = some info then
    return s
  else
    let output := ((s.outputBlockInfoMap block).getD BlockInfo.empty).join info
    let s := { s with outputBlockInfoMap :=
                        Function.update s.outputBlockInfoMap block (some output) }
    return pushSuccessors output (f.terminator block).successors s

def resolveLoop (f : Function B) : ℕ → ResolveState B → Except Halt (ResolveState B)
  | 0, s => if s.blockList = [] then .ok s else .error .unfinished
  | fuel + 1, s =>
    match s.blockList with
    | [] => .ok s
    | block :: rest => do
      let s ← visit filter funcBlockInfoMap f block { s with blockList := rest }
      resolveLoop f fuel s

def danglingInfo (f : Function B) (s : ResolveState B) : BlockInfo :=
  f.blocks.foldl (fun info block =>
    if f.terminator block = .ret then
      info.join ((s.outputBlockInfoMap block).getD BlockInfo.empty)
    else info) BlockInfo.empty

/-- `resolve` returns the function with its barriers and its summary. -/
def resolve (fuel : ℕ) (f : Function B) : Except Halt (Function B × BlockInfo) := do
  let s ← resolveLoop filter funcBlockInfoMap f fuel (initialState f)
  return ({ f with ops := s.ops }, danglingInfo f s)

end Resolve

/-! The call graph and its post-order walk. -/

def Op.callee : Op → Option FuncId
  | .call _ callee _ => some callee
  | _ => none

def Function.callees {B : Type} (f : Function B) : List FuncId :=
  f.blocks.flatMap fun b => (f.ops b).filterMap Op.callee

/-- A module with an acyclic call graph: every callee ranks below its
callers. -/
structure Module (B : Type) where
  functions : List FuncId
  body : FuncId → Function B
  rank : FuncId → ℕ
  rank_callee : ∀ f, ∀ callee ∈ (body f).callees, rank callee < rank f

def Module.roots {B : Type} (m : Module B) : List FuncId :=
  m.functions.filter fun f => m.functions.all fun g => !(m.body g).callees.contains f

structure ModuleState (B : Type) where
  body : FuncId → Function B
  funcMap : FuncId → Option BlockInfo

section Walk

variable {B : Type} [DecidableEq B] (filter : MembarFilterFn) (fuel : ℕ)

def ModuleState.lookup (s : ModuleState B) (f : FuncId) : BlockInfo :=
  (s.funcMap f).getD BlockInfo.empty

/-- The post-order node callback: a function is analysed once, after its
empty summary was emplaced. -/
def updateNode (f : FuncId) (s : ModuleState B) : Except Halt (ModuleState B) :=
  match s.funcMap f with
  | some _ => .ok s
  | none => do
    let s := { s with funcMap := Function.update s.funcMap f (some BlockInfo.empty) }
    let (body, summary) ← resolve filter s.lookup fuel (s.body f)
    return { body := Function.update s.body f body
             funcMap := Function.update s.funcMap f (some (BlockInfo.empty.join summary)) }

/-- `doWalk` with a bound on the depth of the recursion. -/
def doWalk (m : Module B) : ℕ → FuncId → ModuleState B → Except Halt (ModuleState B)
  | 0, _, _ => .error .unfinished
  | depth + 1, f, s => do
    let s ← (m.body f).callees.foldlM (fun s callee => doWalk m depth callee s) s
    updateNode filter fuel f s

/-- `ModuleMembarAnalysis::run`. -/
def run (depth : ℕ) (m : Module B) : Except Halt (ModuleState B) :=
  m.roots.foldlM (fun s root => doWalk filter fuel m depth root s)
    { body := m.body, funcMap := fun _ => none }

end Walk

end TritonCpu.Membar
