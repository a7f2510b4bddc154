import TritonCpu.TritonIR
import Mathlib.Data.Nat.Bitwise

/-!
# Block tensors of the language

A block holds one integer for each multi-index of its shape. Every operation
checks the shape it makes: a block has at least one dimension, its extents are
powers of two and it has at most `TRITON_MAX_TENSOR_NUMEL` elements.
-/

set_option autoImplicit false

namespace TritonCpu.BlockTensor
open TritonIR

inductive LanguageError where
  | typeError (message : String)
  | valueError (message : String)
  | staticAssert (message : String)
  deriving DecidableEq, Repr

/-! The integer types and their conversions. -/

inductive IntType where
  | int1 | int8 | int16 | int32 | int64 | uint8 | uint16 | uint32 | uint64
  deriving DecidableEq, Repr

namespace IntType

/-- `int_bitwidth`. -/
def bits : IntType → ℕ
  | int1 => 1
  | int8 | uint8 => 8
  | int16 | uint16 => 16
  | int32 | uint32 => 32
  | int64 | uint64 => 64

/-- `is_int_signed`; a boolean is an unsigned type. -/
def isSigned : IntType → Bool
  | int8 | int16 | int32 | int64 => true
  | _ => false

/-- `get_int_dtype(bitwidth, signed=True)` at the width of the type. -/
def signedOfWidth : IntType → IntType
  | int1 => int1
  | int8 | uint8 => int8
  | int16 | uint16 => int16
  | int32 | uint32 => int32
  | int64 | uint64 => int64

theorem bits_signedOfWidth (ty : IntType) : ty.signedOfWidth.bits = ty.bits := by
  cases ty <;> rfl

end IntType

/-- `integer_promote_impl`. -/
def integerPromote (a b : IntType) : IntType :=
  if a.isSigned = b.isSigned then if a.bits > b.bits then a else b
  else if !a.isSigned then if a.bits ≥ b.bits then a else b
  else if b.bits ≥ a.bits then b else a

/-- The conversion of an integer; a boolean tells whether it is nonzero. -/
def cast (src dst : IntType) (x : BitVec src.bits) : BitVec dst.bits :=
  if dst = .int1 then (BitVec.ofBool (x != 0)).setWidth dst.bits
  else if src.isSigned then x.signExtend dst.bits
  else x.setWidth dst.bits

theorem cast_self (ty : IntType) (x : BitVec ty.bits) : cast ty ty x = x := by
  by_cases h : ty = .int1
  · subst h
    rw [cast, if_pos rfl]
    revert x
    decide
  · rw [cast, if_neg h]
    split
    · rw [BitVec.signExtend_eq]
    · rw [BitVec.setWidth_eq]

def greaterThan (ty : IntType) (x y : BitVec ty.bits) : Bool :=
  if ty.isSigned then y.slt x else y.ult x

/-! The shapes. -/

def tritonMaxTensorNumel : ℕ := 1048576

def isPowerOfTwo (x : ℕ) : Bool := x &&& (x - 1) == 0

def ValidBlockShape (shape : List ℕ) : Prop :=
  (∀ d ∈ shape, isPowerOfTwo d) ∧ shape.prod ≤ tritonMaxTensorNumel

instance (shape : List ℕ) : Decidable (ValidBlockShape shape) :=
  inferInstanceAs (Decidable (_ ∧ _))

def shapeError (shape : List ℕ) : LanguageError :=
  match shape.findIdx? (fun d => !isPowerOfTwo d) with
  | some i => .valueError s!"Shape element {i} must be a power of 2"
  | none => .valueError
    s!"numel ({shape.prod}) exceeds triton maximum tensor numel ({tritonMaxTensorNumel})"

/-- `validate_block_shape`; the result is the number of elements. -/
def validateBlockShape (shape : List ℕ) : Except LanguageError ℕ :=
  if ValidBlockShape shape then .ok shape.prod else .error (shapeError shape)

/-- A tensor; the shape of a scalar is empty. -/
structure Tensor (α : Type) where
  shape : List ℕ
  valid : ValidBlockShape shape
  get : List ℕ → α

namespace Tensor

variable {α β γ : Type}

def numel (x : Tensor α) : ℕ := x.shape.prod

end Tensor

variable {α β γ : Type}

/-- A tensor of a `block_type` of the shape. -/
def block (shape : List ℕ) (get : List ℕ → α) : Except LanguageError (Tensor α) :=
  if shape = [] then .error (.typeError "0d block_type is forbidden")
  else if h : ValidBlockShape shape then .ok ⟨shape, h, get⟩
  else .error (shapeError shape)

def scalar (value : α) : Tensor α := ⟨[], by decide, fun _ => value⟩

/-! The compile-time helpers of the standard library. -/

/-- `_log2`. -/
def log2 (i : ℕ) : ℕ := if 1 < i then log2 (i >>> 1) + 1 else 0
decreasing_by rw [Nat.shiftRight_eq_div_pow]; omega

theorem log2_two_pow (m : ℕ) : log2 (2 ^ m) = m := by
  induction m with
  | zero => rw [log2]; rfl
  | succ m ih =>
    have hlt : 1 < 2 ^ (m + 1) := Nat.one_lt_two_pow (Nat.succ_ne_zero m)
    rw [log2, if_pos hlt, Nat.shiftRight_eq_div_pow, Nat.pow_succ, Nat.pow_one,
      Nat.mul_div_cancel _ Nat.zero_lt_two, ih]

def staticAssert (cond : Bool) : Except LanguageError Unit :=
  if cond then .ok () else .error (.staticAssert "")

/-! The operations. -/

/-- `arange`; the elements are `int32`. -/
def arange (start stop : ℕ) : Except LanguageError (Tensor (BitVec IntType.int32.bits)) :=
  if stop ≤ start then
    .error (.valueError "arange's end argument must be greater than the start argument")
  else if !isPowerOfTwo (stop - start) then
    .error (.valueError "arange's range must be a power of 2")
  else block [stop - start] fun idx => BitVec.ofNat _ (start + idx.headD 0)

def reshape (x : Tensor α) (dst : List ℕ) : Except LanguageError (Tensor α) := do
  let numel ← validateBlockShape dst
  if x.numel ≠ numel then
    .error (.valueError "reshape() cannot change total number of elements in tensor")
  else block dst fun idx => x.get (unravel x.shape (ravel dst idx))

def expandDims (x : Tensor α) (axis : ℕ) : Except LanguageError (Tensor α) :=
  let ndim := x.shape.length + 1
  if ndim ≤ axis then
    .error (.valueError s!"invalid axis {axis}. Expected -{ndim} <= axis < {ndim}")
  else block (x.shape.insertIdx axis 1) fun idx => x.get (idx.eraseIdx axis)

/-- `broadcast_impl_shape`, after the shape has been checked. -/
def broadcastTo (x : Tensor α) (shape : List ℕ) : Except LanguageError (Tensor α) := do
  let _ ← validateBlockShape shape
  if x.shape = [] then block shape fun _ => x.get []
  else if x.shape.length ≠ shape.length then
    .error (.valueError s!"Cannot broadcast, rank mismatch: {x.shape}, {shape}")
  else if x.shape = shape then .ok x
  else
    match (x.shape.zip shape).findIdx? fun (item, size) => size ≠ item ∧ item ≠ 1 with
    | some i =>
      let size := shape.getD i 0
      let item := x.shape.getD i 0
      .error (.valueError (s!"Cannot broadcast, the expanded size of the tensor ({size})" ++
        s!" must match the existing size ({item}) at non-singleton dimension" ++
        s!" {i}: {x.shape}, {shape}"))
    | none => block shape fun idx => x.get (broadcastIndex x.shape idx)

/-- The axes `broadcast_impl_value` puts in front of the shorter shape. -/
def addAxes : ℕ → Tensor α → Except LanguageError (Tensor α)
  | 0, x => .ok x
  | n + 1, x => block (1 :: x.shape) (fun idx => x.get idx.tail) >>= addAxes n

def compatibleShape : ℕ → List ℕ → List ℕ → Except LanguageError (List ℕ)
  | i, left :: ls, right :: rs =>
    if left = 1 then (right :: ·) <$> compatibleShape (i + 1) ls rs
    else if right = 1 ∨ right = left then (left :: ·) <$> compatibleShape (i + 1) ls rs
    else .error (.valueError ("Cannot make_shape_compatible: incompatible dimensions " ++
      s!"at index {i}: {left} and {right}"))
  | _, _, _ => .ok []

/-- One of the two broadcasts that end `broadcast_impl_value`. -/
def expandTo (x : Tensor α) (shape : List ℕ) : Except LanguageError (Tensor α) :=
  if x.shape = shape then .ok x
  else block shape fun idx => x.get (broadcastIndex x.shape idx)

def broadcastImplValue (lhs : Tensor α) (rhs : Tensor β) :
    Except LanguageError (Tensor α × Tensor β) :=
  if lhs.shape ≠ [] ∧ rhs.shape = [] then
    (lhs, ·) <$> block lhs.shape fun _ => rhs.get []
  else if lhs.shape = [] ∧ rhs.shape ≠ [] then
    (·, rhs) <$> block rhs.shape fun _ => lhs.get []
  else do
    let lhs ← addAxes (rhs.shape.length - lhs.shape.length) lhs
    let rhs ← addAxes (lhs.shape.length - rhs.shape.length) rhs
    let shape ← compatibleShape 0 lhs.shape rhs.shape
    let lhs ← expandTo lhs shape
    let rhs ← expandTo rhs shape
    return (lhs, rhs)

def elementwise (f : α → β → γ) (lhs : Tensor α) (rhs : Tensor β) :
    Except LanguageError (Tensor γ) := do
  let (lhs, rhs) ← broadcastImplValue lhs rhs
  return ⟨lhs.shape, lhs.valid, fun idx => f (lhs.get idx) (rhs.get idx)⟩

/-- The element-wise operation on two integer tensors, at their promoted type. -/
def arithmetic (a b : IntType) {r : IntType} (_ : integerPromote a b = r)
    (op : BitVec r.bits → BitVec r.bits → γ)
    (lhs : Tensor (BitVec a.bits)) (rhs : Tensor (BitVec b.bits)) :
    Except LanguageError (Tensor γ) :=
  elementwise (fun u v => op (cast a r u) (cast b r v)) lhs rhs

def Tensor.map (f : α → β) (x : Tensor α) : Tensor β := ⟨x.shape, x.valid, fun idx => f (x.get idx)⟩

/-- The fold of a dimension of the given size, first element first. -/
def foldAxis (combine : α → α → α) (size : ℕ) (f : ℕ → α) : α :=
  (List.range (size - 1)).foldl (fun acc k => combine acc (f (k + 1))) (f 0)

/-- `reduce` along one axis without `keep_dims`. -/
def reduce (combine : α → α → α) (x : Tensor α) (axis : ℕ) : Except LanguageError (Tensor α) :=
  let ndim := x.shape.length
  if ndim ≤ axis then
    .error (.valueError s!"invalid axis {axis}. Expected -{ndim} <= axis < {ndim}")
  else
    let get := fun idx => foldAxis combine (x.shape.getD axis 0) fun k => x.get (idx.insertIdx axis k)
    if x.shape.eraseIdx axis = [] then .ok (scalar (get []))
    else block (x.shape.eraseIdx axis) get

end TritonCpu.BlockTensor
