import Mathlib.Data.Int.Notation
import Mathlib.Data.List.Basic
import Mathlib.Data.List.Nodup
import Mathlib.Logic.Function.Basic

/-!
# Programs with unstructured pointers

The operations the pass distinguishes in the uses of a pointer. A module is the
list of its operations; regions matter only for the loops, whose terminator is
another operation of the list.
-/

set_option autoImplicit false

namespace TritonCpu.TritonToUnstructured

abbrev Value := ℕ

inductive Elem where
  | int (width : ℕ)
  | float (width : ℕ)
deriving DecidableEq

def Elem.bytes : Elem → ℕ
  | int width => (width + 7) / 8
  | float width => (width + 7) / 8

inductive Elt where
  | ptr (pointee : Elem)
  | scalar (elem : Elem)
  | index
deriving DecidableEq

/-- A scalar has no shape. -/
structure Ty where
  shape : Option (List ℕ)
  elt : Elt
deriving DecidableEq

def isPtrTypeLike (t : Ty) : Bool :=
  match t.elt with
  | .ptr _ => true
  | _ => false

def getPtrOffsetType (t : Ty) (bitWidth : ℕ) : Ty := { t with elt := .scalar (.int bitWidth) }

def getBitWidth (t : Ty) : ℕ :=
  match t.elt with
  | .scalar (.int width) => width
  | _ => 0

def Ty.bytes (t : Ty) : ℕ :=
  match t.elt with
  | .ptr pointee => pointee.bytes
  | _ => 0

inductive ShapeName where
  | splat
  | broadcast
  | expandDims
deriving DecidableEq

inductive CastKind where
  | extsi
  | trunci
  | indexCast
  | sitofp
  | truncf
deriving DecidableEq

inductive AtomicKind where
  | cas
  | rmw
deriving DecidableEq

inductive MixedOffset where
  | attr (n : ℤ)
  | value (v : Value)
deriving DecidableEq

/-- An `scf.for`: the lower bound, the upper bound and the step, the values it
carries, the positions of the operations of its region, and that of the
`scf.yield` that ends it. -/
structure Loop where
  bounds : List Value
  inits : List Value
  iterArgs : List Value
  results : List Value
  body : List ℕ
  terminator : ℕ

/-- `shape` is `tt.splat`, `tt.broadcast` or `tt.expand_dims`, the last with its
axis; a constant tensor that is no splat has no value here; `inIf` marks a
`tt.addptr` inside an `scf.if`. `compute` is any other operation. -/
inductive Op where
  | constant (res : Value) (value : Option ℤ)
  | cast (kind : CastKind) (res src : Value)
  | addi (res lhs rhs : Value)
  | addptr (res ptr offset : Value) (inIf : Bool)
  | bitcast (res src : Value)
  | shape (name : ShapeName) (axis : Option ℕ) (res src : Value)
  | ptrToInt (res src : Value)
  | intToPtr (res src : Value)
  | load (res ptr : Value) (mask other : Option Value)
  | store (ptr value : Value) (mask : Option Value)
  | gather (res ptr offset : Value) (mask other : Option Value)
  | scatter (ptr offset value : Value) (mask : Option Value)
  | atomic (kind : AtomicKind) (res ptr : Value) (args : List Value)
  | makeTensorPtr (res base : Value) (offsets rest : List Value)
  | ttsMakeTensorPtr (res base : Value) (offsets : List MixedOffset) (rest : List Value)
  | makeGatherScatterTensorPtr (res base : Value) (rest : List Value)
  | forOp (loop : Loop)
  | yield (operands : List Value)
  | cat (res lhs rhs : Value)
  | compute (results operands : List Value)

def MixedOffset.values : MixedOffset → List Value
  | attr _ => []
  | value v => [v]

namespace Op

def operands : Op → List Value
  | constant _ _ => []
  | cast _ _ src => [src]
  | addi _ lhs rhs => [lhs, rhs]
  | addptr _ ptr offset _ => [ptr, offset]
  | bitcast _ src => [src]
  | shape _ _ _ src => [src]
  | ptrToInt _ src => [src]
  | intToPtr _ src => [src]
  | load _ ptr mask other => ptr :: (mask.toList ++ other.toList)
  | store ptr value mask => ptr :: value :: mask.toList
  | gather _ ptr offset mask other => ptr :: offset :: (mask.toList ++ other.toList)
  | scatter ptr offset value mask => ptr :: offset :: value :: mask.toList
  | atomic _ _ ptr args => ptr :: args
  | makeTensorPtr _ base offsets rest => base :: (offsets ++ rest)
  | ttsMakeTensorPtr _ base offsets rest => base :: (offsets.flatMap MixedOffset.values ++ rest)
  | makeGatherScatterTensorPtr _ base rest => base :: rest
  | forOp loop => loop.bounds ++ loop.inits
  | yield operands => operands
  | cat _ lhs rhs => [lhs, rhs]
  | compute _ operands => operands

/-- The values an operation defines. A loop defines its region's arguments too. -/
def results : Op → List Value
  | constant res _ => [res]
  | cast _ res _ => [res]
  | addi res _ _ => [res]
  | addptr res _ _ _ => [res]
  | bitcast res _ => [res]
  | shape _ _ res _ => [res]
  | ptrToInt res _ => [res]
  | intToPtr res _ => [res]
  | load res _ _ _ => [res]
  | store _ _ _ => []
  | gather res _ _ _ _ => [res]
  | scatter _ _ _ _ => []
  | atomic _ res _ _ => [res]
  | makeTensorPtr res _ _ _ => [res]
  | ttsMakeTensorPtr res _ _ _ => [res]
  | makeGatherScatterTensorPtr res _ _ => [res]
  | forOp loop => loop.iterArgs ++ loop.results
  | yield _ => []
  | cat res _ _ => [res]
  | compute results _ => results

/-- Operations without an effect, dead when nothing takes their result. -/
def isPure : Op → Bool
  | constant _ _ => true
  | cast _ _ _ => true
  | addi _ _ _ => true
  | addptr _ _ _ _ => true
  | bitcast _ _ => true
  | shape _ _ _ _ => true
  | _ => false

end Op

/-- A use of a value: the position of the user and the number of the operand. -/
structure Use where
  user : ℕ
  operand : ℕ
deriving DecidableEq

/-- `args` are the arguments of the functions. Every value is below `next`. -/
structure Module where
  args : List Value
  ops : List Op
  types : Value → Ty
  uses : Value → List Use
  next : Value

/-- What the verifier and the static single assignment give: every value has one
definition, a loop's init, argument, result and yielded value have one type, and
what a loop's region defines is used in the region only. -/
structure Verified (m : Module) : Prop where
  args_nodup : m.args.Nodup
  args_below : ∀ v ∈ m.args, v < m.next
  results_below : ∀ o ∈ m.ops, ∀ v ∈ o.results, v < m.next
  operands_below : ∀ o ∈ m.ops, ∀ v ∈ o.operands, v < m.next
  results_nodup : ∀ o ∈ m.ops, o.results.Nodup
  defined_once : ∀ (k l : ℕ) (o o' : Op) (v : Value), m.ops[k]? = some o → m.ops[l]? = some o' →
    v ∈ o.results → v ∈ o'.results → k = l
  args_undefined : ∀ o ∈ m.ops, ∀ v ∈ o.results, v ∉ m.args
  uses_nodup : ∀ v, (m.uses v).Nodup
  mem_uses : ∀ (v : Value) (u : Use), u ∈ m.uses v ↔
    ∃ o, m.ops[u.user]? = some o ∧ o.operands[u.operand]? = some v
  loop_bounds : ∀ loop, .forOp loop ∈ m.ops →
    loop.bounds.length = 3 ∧ ∀ v ∈ loop.bounds, isPtrTypeLike (m.types v) = false
  loop_types : ∀ loop, .forOp loop ∈ m.ops →
    loop.iterArgs.map m.types = loop.inits.map m.types ∧
      loop.results.map m.types = loop.inits.map m.types ∧
        ∃ operands, m.ops[loop.terminator]? = some (.yield operands) ∧
          operands.map m.types = loop.inits.map m.types
  addptr_types : ∀ res ptr offset inIf, .addptr res ptr offset inIf ∈ m.ops →
    m.types res = m.types ptr ∧ isPtrTypeLike (m.types ptr) ∧
      ∃ width, m.types offset = getPtrOffsetType (m.types ptr) width
  int_to_ptr_types : ∀ res src, .intToPtr res src ∈ m.ops → isPtrTypeLike (m.types res)
  bitcast_types : ∀ res src, .bitcast res src ∈ m.ops →
    (m.types res).shape = (m.types src).shape
  shape_types : ∀ name axis res src, .shape name axis res src ∈ m.ops →
    (m.types res).elt = (m.types src).elt
  splat_shape : ∀ axis res src, .shape .splat axis res src ∈ m.ops → (m.types src).shape = none
  broadcast_shape : ∀ axis res src, .shape .broadcast axis res src ∈ m.ops →
    List.Forall₂ (fun d e => d = e ∨ d = 1) ((m.types src).shape.getD [])
      ((m.types res).shape.getD [])
  loop_outside : ∀ (k : ℕ) (loop : Loop), m.ops[k]? = some (.forOp loop) → k ∉ loop.body
  loop_region : ∀ loop, .forOp loop ∈ m.ops → ∀ (k : ℕ) (o : Op), m.ops[k]? = some o →
    k ∉ loop.body → ∀ v ∈ o.operands,
      v ∉ loop.iterArgs ∧ ∀ l ∈ loop.body, ∀ o', m.ops[l]? = some o' → v ∉ o'.results

/-- The values of a loop's slot have the type of its initial value. -/
theorem Verified.loop_values {m : Module} (hm : Verified m) {loop : Loop} {k init iterArg res : ℕ}
    (hmem : .forOp loop ∈ m.ops) (hinit : loop.inits[k]? = some init)
    (hiter : loop.iterArgs[k]? = some iterArg) (hres : loop.results[k]? = some res) :
    (iterArg ∈ (Op.forOp loop).results ∧ m.types iterArg = m.types init) ∧
      res ∈ (Op.forOp loop).results ∧ m.types res = m.types init := by
  obtain ⟨hiters, hresults, -⟩ := hm.loop_types _ hmem
  have hiterType := congrArg (fun l => l[k]?) hiters
  have hresType := congrArg (fun l => l[k]?) hresults
  simp only [List.getElem?_map, hinit, hiter, hres, Option.map_some, Option.some.injEq]
    at hiterType hresType
  simp [Op.results, List.mem_of_getElem? hiter, List.mem_of_getElem? hres, hiterType, hresType]

/-! ## Uses from operands -/

def usesOf (ops : List Op) (v : Value) : List Use :=
  ops.zipIdx.flatMap fun o => o.1.operands.zipIdx.filterMap fun x =>
    if x.1 = v then some ⟨o.2, x.2⟩ else none

theorem mem_usesOf {ops : List Op} {v : Value} {u : Use} : u ∈ usesOf ops v ↔
    ∃ o, ops[u.user]? = some o ∧ o.operands[u.operand]? = some v := by
  simp only [usesOf, List.mem_flatMap, List.mem_filterMap, Prod.exists, List.mem_zipIdx_iff_getElem?]
  constructor
  · rintro ⟨o, k, ho, x, j, hx, hu⟩
    split_ifs at hu with hv
    cases hu
    exact ⟨o, ho, hv ▸ hx⟩
  · rintro ⟨o, ho, hv⟩
    exact ⟨o, u.user, ho, v, u.operand, hv, by simp⟩

theorem nodup_zipIdx {α : Type} (l : List α) (k : ℕ) : (l.zipIdx k).Nodup := by
  refine List.Nodup.of_map Prod.snd ?_
  rw [List.zipIdx_map_snd]
  exact List.nodup_range'

theorem usesOf_nodup (ops : List Op) (v : Value) : (usesOf ops v).Nodup := by
  rw [usesOf, List.nodup_flatMap]
  constructor
  · rintro ⟨o, k⟩ -
    refine (nodup_zipIdx _ _).filterMap ?_
    rintro ⟨x, i⟩ ⟨y, j⟩ u hx hy
    simp only [Option.mem_def, Option.ite_none_right_eq_some, Option.some.injEq] at hx hy
    obtain ⟨rfl, rfl⟩ := hx
    obtain ⟨rfl, heq⟩ := hy
    cases heq
    rfl
  · refine List.Pairwise.imp_of_mem ?_ (nodup_zipIdx ops 0)
    rintro ⟨o, k⟩ ⟨o', l⟩ ho ho' hne
    rw [List.mem_zipIdx_iff_getElem?] at ho ho'
    simp only [Function.onFun, List.disjoint_left, List.mem_filterMap, not_exists, not_and]
    rintro u ⟨⟨x, i⟩, -, hx⟩ ⟨y, j⟩ - hy
    simp only [Option.ite_none_right_eq_some, Option.some.injEq] at hx hy
    obtain ⟨-, rfl⟩ := hx
    obtain ⟨-, heq⟩ := hy
    cases heq
    rw [ho] at ho'
    cases ho'
    exact hne rfl

theorem defined_once_of_nodup {ops : List Op} (h : (ops.flatMap Op.results).Nodup) {k l : ℕ}
    {o o' : Op} {v : Value} (hk : ops[k]? = some o) (hl : ops[l]? = some o') (hv : v ∈ o.results)
    (hv' : v ∈ o'.results) : k = l := by
  obtain ⟨hklt, rfl⟩ := List.getElem?_eq_some_iff.mp hk
  obtain ⟨hllt, rfl⟩ := List.getElem?_eq_some_iff.mp hl
  have hpair := List.pairwise_iff_getElem.mp (List.nodup_flatMap.mp h).2
  obtain hlt | heq | hlt := Nat.lt_trichotomy k l
  · exact absurd hv' (hpair k l hklt hllt hlt hv)
  · exact heq
  · exact absurd hv (hpair l k hllt hklt hlt hv')

end TritonCpu.TritonToUnstructured
