import Mathlib.Algebra.BigOperators.Group.List.Basic
import Mathlib.Data.BitVec
import Mathlib.Data.List.Forall2
import Mathlib.Logic.Function.Basic

/-!
# Operations on tensors over a ring

The operations the combine patterns look at, and any others, as they run one
after the other: each binds its results, which are read by the index of an
element. Floats are elements of a ring, integers and pointers are words.
-/

set_option autoImplicit false

namespace TritonCpu.Combine

inductive ElementType where
  | int (width : ℕ)
  | float (width : ℕ)
  /-- A pointer to elements of some bytes. -/
  | ptr (bytes : ℕ)
  deriving DecidableEq, Repr

namespace ElementType

def getIntOrFloatBitWidth : ElementType → ℕ
  | .int width => width
  | .float width => width
  | .ptr _ => 0

abbrev Carrier (R : Type) : ElementType → Type
  | .int width => BitVec width
  | .float _ => R
  | .ptr _ => BitVec 64

instance {R : Type} [CommRing R] : (t : ElementType) → CommRing (t.Carrier R)
  | .int width => inferInstanceAs (CommRing (BitVec width))
  | .float _ => inferInstanceAs (CommRing R)
  | .ptr _ => inferInstanceAs (CommRing (BitVec 64))

end ElementType

def extend {R : Type} [CommRing R] : (s t : ElementType) → s.Carrier R → t.Carrier R
  | .int _, .int width, x => x.signExtend width
  | .float _, .float _, x => x
  | .ptr _, .ptr _, x => x
  | _, _, _ => 0

@[simp] theorem extend_self {R : Type} [CommRing R] (t : ElementType) (x : t.Carrier R) :
    extend t t x = x := by
  cases t with
  | int width => exact BitVec.signExtend_eq x
  | float width => rfl
  | ptr bytes => rfl

theorem extend_extend {R : Type} [CommRing R] {s t : ElementType} (h : s = t) (u : ElementType)
    (x : s.Carrier R) : extend t u (extend s t x) = extend s u x := by
  subst h
  rw [extend_self]

theorem extend_add {R : Type} [CommRing R] {s t : ElementType} (h : s = t) (x y : s.Carrier R) :
    extend s t (x + y) = extend s t x + extend s t y := by
  subst h
  rw [extend_self, extend_self, extend_self]

structure Ty where
  shape : List ℕ
  elem : ElementType
  deriving DecidableEq, Repr

structure Value where
  id : ℕ
  ty : Ty
  deriving DecidableEq, Repr

inductive InputPrecision where
  | tf32
  | tf32x3
  | ieee
  deriving DecidableEq, Repr

inductive PaddingOption where
  | zero
  | nan
  deriving DecidableEq, Repr

inductive CacheModifier where
  | none | ca | cg | wb | cs | wt | cv
  deriving DecidableEq, Repr

inductive EvictionPolicy where
  | normal
  | evictFirst
  | evictLast
  deriving DecidableEq, Repr

structure LoadAttrs where
  boundaryCheck : List ℕ
  padding : Option PaddingOption
  cache : CacheModifier
  evict : EvictionPolicy
  isVolatile : Bool
  deriving DecidableEq, Repr

section Program

variable (R : Type)

/-- An element of some type. -/
abbrev Cell := Σ t : ElementType, t.Carrier R

/-- The elements of a value by index. A scalar has the index `[]`. -/
abbrev Env := (v : Value) → List ℕ → v.ty.elem.Carrier R

/-- What was stored at an address. -/
abbrev Memory := BitVec 64 → Cell R

/-- The volatile accesses say, for each index, the address that is read. -/
structure State where
  env : Env R
  mem : Memory R
  volatileAccesses : List (List ℕ → Option (BitVec 64))

/-- The value of a constant: one element, an element for all indices, or elements. -/
inductive Attribute where
  | scalar (element : Cell R)
  | splat (element : Cell R)
  | dense (elements : List ℕ → Cell R)

inductive CombineOp where
  | addf (ty : ElementType)
  | other

/-- The region of a reduction: its blocks, and what they make of two elements of
each operand. -/
structure CombineRegion where
  blocks : List (List CombineOp)
  apply : List (Cell R) → List (Cell R) → List (Cell R)

inductive Op where
  | constant (res : Value) (value : Attribute R)
  | splat (res src : Value)
  | expandDims (res src : Value) (axis : ℕ)
  | broadcast (res src : Value)
  | addptr (res ptr offset : Value)
  | addi (res lhs rhs : Value)
  | addf (res lhs rhs : Value)
  | mulf (res lhs rhs : Value)
  | dot (res a b c : Value) (inputPrecision : InputPrecision) (maxNumImpreciseAcc : ℕ)
  | reduce (results operands : List Value) (axis : ℕ) (combineOp : CombineRegion R)
  | select (res cond trueValue falseValue : Value)
  | load (res ptr : Value) (mask other : Option Value) (attrs : LoadAttrs)
  | store (ptr value : Value) (mask : Option Value)
  /-- Anything else that runs, with any effect on the memory. -/
  | anyOp (results operands : List Value) (values : State R → Env R)
      (effect : State R → Memory R × List (List ℕ → Option (BitVec 64)))

end Program

variable {R : Type}

def Op.results : Op R → List Value
  | .constant res _ | .splat res _ | .expandDims res _ _ | .broadcast res _ | .addptr res _ _
  | .addi res _ _ | .addf res _ _ | .mulf res _ _ | .dot res _ _ _ _ _ | .select res _ _ _
  | .load res _ _ _ _ => [res]
  | .reduce results _ _ _ => results
  | .store _ _ _ => []
  | .anyOp results _ _ _ => results

def Op.operands : Op R → List Value
  | .constant _ _ => []
  | .splat _ src | .expandDims _ src _ | .broadcast _ src => [src]
  | .addptr _ lhs rhs | .addi _ lhs rhs | .addf _ lhs rhs | .mulf _ lhs rhs => [lhs, rhs]
  | .dot _ a b c _ _ => [a, b, c]
  | .reduce _ operands _ _ => operands
  | .select _ cond trueValue falseValue => [cond, trueValue, falseValue]
  | .load _ ptr mask other _ => ptr :: mask.toList ++ other.toList
  | .store ptr value mask => ptr :: value :: mask.toList
  | .anyOp _ operands _ _ => operands

def Op.isPure : Op R → Bool
  | .load _ _ _ _ _ | .store _ _ _ | .anyOp _ _ _ _ => false
  | _ => true

instance [CommRing R] : Inhabited (State R) := ⟨fun _ _ => 0, fun _ => ⟨.ptr 0, 0#64⟩, []⟩

def InBounds (shape index : List ℕ) : Prop := List.Forall₂ (· < ·) index shape

section Semantics

variable [CommRing R]

def Attribute.element : Attribute R → List ℕ → Cell R
  | .scalar element, _ => element
  | .splat element, _ => element
  | .dense elements, index => elements index

def broadcastIndex (shape index : List ℕ) : List ℕ :=
  List.zipWith (fun size i => if size = 1 then 0 else i) shape index

/-- The row of `a` and the column of `b` at an index of the product, all in the last
two dimensions. -/
def rowIndex (index : List ℕ) (k : ℕ) : List ℕ := index.dropLast ++ [k]

def columnIndex (index : List ℕ) (k : ℕ) : List ℕ :=
  index.dropLast.dropLast ++ [k, index.getLastD 0]

def foldRows (combine : List (Cell R) → List (Cell R) → List (Cell R)) :
    List (List (Cell R)) → List (Cell R)
  | [] => []
  | row :: rows => rows.foldl combine row

def cellAt (cells : List (Cell R)) (i : ℕ) (t : ElementType) : t.Carrier R :=
  match cells[i]? with
  | some cell => extend cell.1 t cell.2
  | none => 0

def isTrue {t : ElementType} (x : t.Carrier R) : Bool :=
  decide (extend t (.int 1) x = (1 : BitVec 1))

def address {t : ElementType} (x : t.Carrier R) : BitVec 64 := extend t (.ptr 0) x

def Memory.read (mem : Memory R) (a : BitVec 64) (t : ElementType) : t.Carrier R :=
  extend (mem a).1 t (mem a).2

def pointeeBytes : ElementType → ℕ
  | .ptr bytes => bytes
  | _ => 0

def masked (env : Env R) (mask : Option Value) (index : List ℕ) : Bool :=
  match mask with
  | some mask => isTrue (env mask index)
  | none => true

/-- What an operation makes of its operands, for a result. A masked element of a
load without another value is 0. -/
def Op.compute (s : State R) : Op R → (v : Value) → List ℕ → v.ty.elem.Carrier R
  | .constant _ value, v, index => extend (value.element index).1 v.ty.elem (value.element index).2
  | .splat _ src, v, _ => extend src.ty.elem v.ty.elem (s.env src [])
  | .expandDims _ src axis, v, index =>
    extend src.ty.elem v.ty.elem (s.env src (index.eraseIdx axis))
  | .broadcast _ src, v, index =>
    extend src.ty.elem v.ty.elem (s.env src (broadcastIndex src.ty.shape index))
  | .addptr _ ptr offset, v, index =>
    extend (.ptr 0) v.ty.elem (address (s.env ptr index) +
      extend offset.ty.elem (.int 64) (s.env offset index) *
        BitVec.ofNat 64 (pointeeBytes ptr.ty.elem))
  | .addi _ lhs rhs, v, index | .addf _ lhs rhs, v, index =>
    extend lhs.ty.elem v.ty.elem (s.env lhs index) + extend rhs.ty.elem v.ty.elem (s.env rhs index)
  | .mulf _ lhs rhs, v, index =>
    extend lhs.ty.elem v.ty.elem (s.env lhs index) * extend rhs.ty.elem v.ty.elem (s.env rhs index)
  | .dot _ a b c _ _, v, index =>
    extend c.ty.elem v.ty.elem (s.env c index) +
      ((List.range (a.ty.shape.getLastD 0)).map fun k =>
        extend a.ty.elem v.ty.elem (s.env a (rowIndex index k)) *
          extend b.ty.elem v.ty.elem (s.env b (columnIndex index k))).sum
  | .reduce results operands axis combineOp, v, index =>
    let size := ((operands.head?.map fun src => src.ty.shape).getD [])[axis]?.getD 0
    cellAt (foldRows combineOp.apply ((List.range size).map fun k =>
      operands.map fun src => ⟨src.ty.elem, s.env src (index.insertIdx axis k)⟩))
        (results.idxOf v) v.ty.elem
  | .select _ cond trueValue falseValue, v, index =>
    if isTrue (s.env cond (if cond.ty.shape = [] then [] else index)) then
      extend trueValue.ty.elem v.ty.elem (s.env trueValue index)
    else extend falseValue.ty.elem v.ty.elem (s.env falseValue index)
  | .load _ ptr mask other _, v, index =>
    if masked s.env mask index then s.mem.read (address (s.env ptr index)) v.ty.elem
    else
      match other with
      | some other => extend other.ty.elem v.ty.elem (s.env other index)
      | none => 0
  | .store _ _ _, _, _ => 0
  | .anyOp _ _ values _, v, index => values s v index

def storeElements (s : State R) (ptr value : Value) (mask : Option Value) : List (List ℕ) → Memory R
  | [] => s.mem
  | index :: indices =>
    if masked s.env mask index then
      Function.update (storeElements s ptr value mask indices) (address (s.env ptr index))
        ⟨value.ty.elem, s.env value index⟩
    else storeElements s ptr value mask indices

def indices : List ℕ → List (List ℕ)
  | [] => [[]]
  | n :: shape => (List.range n).flatMap fun i => (indices shape).map (i :: ·)

def Op.step (op : Op R) (s : State R) : State R where
  env v := if v ∈ op.results then op.compute s v else s.env v
  mem :=
    match op with
    | .store ptr value mask => storeElements s ptr value mask (indices ptr.ty.shape)
    | .anyOp _ _ _ effect => (effect s).1
    | _ => s.mem
  volatileAccesses :=
    match op with
    | .load _ ptr mask _ attrs =>
      if attrs.isVolatile then
        s.volatileAccesses ++ [fun index =>
          if masked s.env mask index then some (address (s.env ptr index)) else none]
      else s.volatileAccesses
    | .anyOp _ _ _ effect => s.volatileAccesses ++ (effect s).2
    | _ => s.volatileAccesses

def run (ops : List (Op R)) (s : State R) : State R := ops.foldl (fun s op => op.step s) s

end Semantics

def Attribute.HasType : Attribute R → Ty → Prop
  | .scalar element, ty => element.1 = ty.elem ∧ ty.shape = []
  | .splat element, ty => element.1 = ty.elem
  | .dense elements, ty => ∀ index, (elements index).1 = ty.elem

def MaskType (mask : Option Value) (shape : List ℕ) : Prop :=
  ∀ v, mask = some v → v.ty = ⟨shape, .int 1⟩

/-- What the verifiers of the operations check, and that the shapes of a matrix
multiplication fit. -/
def Op.WellTyped : Op R → Prop
  | .constant res value => value.HasType res.ty
  | .splat res src => src.ty = ⟨[], res.ty.elem⟩
  | .expandDims res src axis => axis ≤ src.ty.shape.length ∧
      res.ty = ⟨src.ty.shape.insertIdx axis 1, src.ty.elem⟩
  | .broadcast res src => res.ty.elem = src.ty.elem ∧
      List.Forall₂ (fun size size' => size = 1 ∨ size = size') src.ty.shape res.ty.shape
  | .addptr res ptr offset => res.ty = ptr.ty ∧ offset.ty.shape = ptr.ty.shape ∧
      (∃ bytes, ptr.ty.elem = .ptr bytes) ∧ ∃ width, offset.ty.elem = .int width
  | .addi res lhs rhs => lhs.ty = res.ty ∧ rhs.ty = res.ty ∧ ∃ width, res.ty.elem = .int width
  | .addf res lhs rhs | .mulf res lhs rhs =>
      lhs.ty = res.ty ∧ rhs.ty = res.ty ∧ ∃ width, res.ty.elem = .float width
  | .dot res a b c _ _ => res.ty = c.ty ∧
      a.ty.elem.getIntOrFloatBitWidth = b.ty.elem.getIntOrFloatBitWidth ∧
      ∃ batch m n k, c.ty.shape = batch ++ [m, n] ∧ a.ty.shape = batch ++ [m, k] ∧
        b.ty.shape = batch ++ [k, n]
  | .reduce results operands axis _ => results.Nodup ∧
      List.Forall₂ (fun res src => axis < src.ty.shape.length ∧
        res.ty = ⟨src.ty.shape.eraseIdx axis, src.ty.elem⟩) results operands
  | .select res cond trueValue falseValue => trueValue.ty = res.ty ∧ falseValue.ty = res.ty ∧
      cond.ty.elem = .int 1 ∧ (cond.ty.shape = [] ∨ cond.ty.shape = res.ty.shape)
  | .load res ptr mask other _ => (∃ bytes, ptr.ty = ⟨res.ty.shape, .ptr bytes⟩) ∧
      MaskType mask res.ty.shape ∧ ∀ v, other = some v → v.ty = res.ty
  | .store ptr value mask => (∃ bytes, ptr.ty = ⟨value.ty.shape, .ptr bytes⟩) ∧
      MaskType mask value.ty.shape
  | .anyOp _ _ _ _ => True

def Ssa (ops : List (Op R)) : Prop :=
  (∀ op ∈ ops, ∀ v ∈ op.results, v ∉ op.operands) ∧
    ops.Pairwise fun early late => ∀ v ∈ late.results, v ∉ early.results ∧ v ∉ early.operands

namespace Ssa

variable {ops ops' : List (Op R)} {op : Op R}

theorem of_append_left (h : Ssa (ops ++ ops')) : Ssa ops :=
  ⟨fun op hop => h.1 op (List.mem_append_left _ hop), (List.pairwise_append.mp h.2).1⟩

theorem not_rebound {before after : List (Op R)} (h : Ssa (before ++ op :: after)) {v : Value}
    (hv : v ∈ op.results ∨ v ∈ op.operands) : ∀ late ∈ after, v ∉ late.results := by
  intro late hlate hbound
  have hpair := (List.pairwise_cons.mp (List.pairwise_append.mp h.2).2.1).1 late hlate v hbound
  rcases hv with hv | hv
  · exact hpair.1 hv
  · exact hpair.2 hv

end Ssa

section Run

variable [CommRing R] {ops : List (Op R)} {op : Op R} {s t : State R} {v : Value}

@[simp] theorem run_cons (op : Op R) (ops : List (Op R)) (s : State R) :
    run (op :: ops) s = run ops (op.step s) := rfl

theorem run_append (ops ops' : List (Op R)) (s : State R) :
    run (ops ++ ops') s = run ops' (run ops s) := List.foldl_append

theorem step_env_of_mem (h : v ∈ op.results) : (op.step s).env v = op.compute s v := if_pos h

theorem step_env_of_notMem (h : v ∉ op.results) : (op.step s).env v = s.env v := if_neg h

theorem run_env_of_notMem (h : ∀ op ∈ ops, v ∉ op.results) : (run ops s).env v = s.env v := by
  induction ops generalizing s with
  | nil => rfl
  | cons op ops ih =>
    rw [run_cons, ih fun op' hop' => h op' (List.mem_cons_of_mem _ hop')]
    exact step_env_of_notMem (h op List.mem_cons_self)

theorem compute_congr (hpure : op.isPure = true) (h : ∀ v ∈ op.operands, s.env v = t.env v) (v : Value) :
    op.compute s v = op.compute t v := by
  funext index
  cases op with
  | load | store | anyOp => cases hpure
  | constant => rfl
  | splat res src | expandDims res src axis | broadcast res src =>
    simp only [Op.compute, h src (by simp [Op.operands])]
  | addptr res lhs rhs | addi res lhs rhs | addf res lhs rhs | mulf res lhs rhs =>
    simp only [Op.compute, h lhs (by simp [Op.operands]), h rhs (by simp [Op.operands])]
  | dot res a b c =>
    simp only [Op.compute, h a (by simp [Op.operands]), h b (by simp [Op.operands]),
      h c (by simp [Op.operands])]
  | reduce results operands axis combineOp =>
    have hrow : ∀ k, (operands.map fun src =>
        (⟨src.ty.elem, s.env src (index.insertIdx axis k)⟩ : Cell R)) =
        operands.map fun src => ⟨src.ty.elem, t.env src (index.insertIdx axis k)⟩ := by
      intro k
      apply List.map_congr_left
      intro src hsrc
      rw [h src hsrc]
    simp only [Op.compute, hrow]
  | select res cond trueValue falseValue =>
    simp only [Op.compute, h cond (by simp [Op.operands]), h trueValue (by simp [Op.operands]),
      h falseValue (by simp [Op.operands])]

/-- The results of an operation are what it computes from the values in a state. -/
def Op.Holds (op : Op R) (s : State R) : Prop := ∀ v ∈ op.results, s.env v = op.compute s v

/-- After an operation without memory effects, whatever else runs, its results are what
it computes. -/
theorem run_holds (hssa : Ssa ops) (hop : op ∈ ops) (hpure : op.isPure = true) :
    op.Holds (run ops s) := by
  obtain ⟨before, after, rfl⟩ := List.append_of_mem hop
  have hself := hssa.1 op hop
  intro v hv
  rw [run_append, run_cons, run_env_of_notMem (hssa.not_rebound (Or.inl hv)), step_env_of_mem hv]
  apply compute_congr hpure
  intro e he
  rw [run_env_of_notMem (hssa.not_rebound (Or.inr he)), step_env_of_notMem]
  exact fun hbound => hself e hbound he

end Run

end TritonCpu.Combine
