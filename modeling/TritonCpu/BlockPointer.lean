import TritonCpu.CombineIR
import TritonCpu.StructuredCode

/-!
# Programs with block pointers, and with tensors of pointers

A block pointer is a tensor in memory and the offsets of a block of it. Loads and
stores through one check the bounds of some dimensions. In the rewritten program the
addresses and the masks are computed as tensors, which are read by the index of an
element.
-/

set_option autoImplicit false

namespace TritonCpu.TensorPointer

open TritonCpu.Structured
open TritonCpu.Combine (PaddingOption CacheModifier EvictionPolicy indices broadcastIndex)

structure Pointee where
  bytes : ℕ
  isIntOrIndex : Bool
  deriving DecidableEq, Repr

inductive Ty where
  | int (width : ℕ)
  | ptr (pointee : Pointee)
  | tensor (shape : List ℕ)
  | tensorPtr (tensorShape : List ℕ) (pointee : Pointee)
  deriving DecidableEq, Repr

structure Value where
  id : ℕ
  type : Ty
  deriving DecidableEq, Repr

def isTensorPointerType : Ty → Bool
  | .tensorPtr _ _ => true
  | _ => false

def Ty.tensorShape : Ty → List ℕ
  | .tensorPtr tensorShape _ => tensorShape
  | .tensor shape => shape
  | _ => []

def Ty.pointee : Ty → Pointee
  | .tensorPtr _ pointee => pointee
  | .ptr pointee => pointee
  | _ => ⟨1, true⟩

/-- The tensor that a block pointer points into, and the shape of the block. -/
structure Parent where
  base : BitVec 64
  shape : List (BitVec 64)
  strides : List (BitVec 64)
  tensorShape : List ℕ
  deriving DecidableEq, Repr

structure BlockPtr where
  parent : Parent
  offsets : List (BitVec 64)
  deriving DecidableEq, Repr

def BlockPtr.position (p : BlockPtr) (index : List ℕ) (k : ℕ) : BitVec 64 :=
  p.offsets.getD k 0 + BitVec.ofNat 64 (index.getD k 0)

def BlockPtr.address (p : BlockPtr) (bytes : ℕ) (index : List ℕ) : BitVec 64 :=
  p.parent.base + ((List.range p.parent.tensorShape.length).map fun k =>
    p.position index k * p.parent.strides.getD k 0 * BitVec.ofNat 64 bytes).sum

def BlockPtr.inBounds (p : BlockPtr) (index : List ℕ) (k : ℕ) : Bool :=
  decide (0 ≤ (p.position index k).toInt) &&
    decide ((p.position index k).toInt < (p.parent.shape.getD k 0).toInt)

section Semantics

variable (E : Type)

/-- Tensors have their elements in the order of their indices. -/
inductive Val where
  | int (width : ℕ) (n : BitVec width)
  | ptr (a : BitVec 64)
  | blockPtr (p : BlockPtr)
  | tensor (elements : List E)
  deriving DecidableEq

abbrev Memory := BitVec 64 → E

/-- What a load without padding yields out of bounds is some element. -/
structure Elements where
  zero : Pointee → E
  nan : Pointee → E
  undef : E

end Semantics

/-- The address of each element that is touched, in the order of their indices. -/
inductive Access where
  | load (addresses : List (Option (BitVec 64))) (cache : CacheModifier) (evict : EvictionPolicy)
      (isVolatile : Bool)
  | store (addresses : List (Option (BitVec 64))) (cache : CacheModifier) (evict : EvictionPolicy)
  deriving DecidableEq

structure World (E : Type) where
  mem : Memory E
  accesses : List Access

variable {E : Type}

def World.access (w : World E) (mem : Memory E) (access : Access) : World E :=
  ⟨mem, w.accesses ++ [access]⟩

instance : Inhabited (Val E) := ⟨.int 1 0⟩

namespace Val

def toWord : Val E → BitVec 64
  | .int _ n => n.signExtend 64
  | .ptr a => a
  | _ => 0

def toBlockPtr : Val E → BlockPtr
  | .blockPtr p => p
  | _ => ⟨⟨0, [], [], []⟩, []⟩

def elements : Val E → List E
  | .tensor elements => elements
  | _ => []

end Val

/-- The trip count of `scf.for`, whose bounds are signed. -/
def tripCount (lb ub step : Val E) : ℕ :=
  if 0 < step.toWord.toInt then
    ((ub.toWord.toInt - lb.toWord.toInt + (step.toWord.toInt - 1)) / step.toWord.toInt).toNat
  else 0

def ivAt (lb step : Val E) (k : ℕ) : Val E :=
  match lb with
  | .int width n => .int width (n + BitVec.ofNat width k * step.toWord.setWidth width)
  | _ => lb

def isTrue : Val E → Bool
  | .int _ n => n.toNat ≠ 0
  | _ => false

def control : Control (Val E) := ⟨tripCount, ivAt, isTrue⟩

def loadElements (mem : Memory E) (addresses : List (Option (BitVec 64))) (other : E) : List E :=
  addresses.map fun a => a.elim other mem

def storeElements (mem : Memory E) : List (Option (BitVec 64)) → List E → Memory E
  | some a :: addresses, e :: elements =>
    storeElements (Function.update mem a e) addresses elements
  | none :: addresses, _ :: elements => storeElements mem addresses elements
  | _, _ => mem

section Source

/-- Operations with block pointers, and any others. -/
inductive SourceOp (E : Type) where
  | makeTensorPtr (res base : Value) (shape strides offsets : List Value)
  | advance (res ptr : Value) (offsets : List Value)
  | load (res ptr : Value) (boundaryCheck : List ℕ) (padding : Option PaddingOption)
      (cache : CacheModifier) (evict : EvictionPolicy) (isVolatile : Bool)
  | store (ptr value : Value) (boundaryCheck : List ℕ) (cache : CacheModifier)
      (evict : EvictionPolicy)
  | anyOp (results operands : List Value)
      (apply : List (Val E) → Memory E → List (Val E) × Memory E)

namespace SourceOp

def results : SourceOp E → List Value
  | .makeTensorPtr res _ _ _ _ | .advance res _ _ | .load res _ _ _ _ _ _ => [res]
  | .store _ _ _ _ _ => []
  | .anyOp results _ _ => results

def operands : SourceOp E → List Value
  | .makeTensorPtr _ base shape strides offsets => base :: shape ++ strides ++ offsets
  | .advance _ ptr offsets => ptr :: offsets
  | .load _ ptr _ _ _ _ _ => [ptr]
  | .store ptr value _ _ _ => [ptr, value]
  | .anyOp _ operands _ => operands

def maxTensorNumElements : ℕ := 1048576

/-- What the verifiers check. Only `tt.make_tensor_ptr` and `tt.advance` create block
pointers. -/
def WellTyped : SourceOp E → Prop
  | .makeTensorPtr res base shape strides offsets =>
    isTensorPointerType res.type = true ∧ base.type = .ptr res.type.pointee ∧
      (∀ v ∈ shape ++ strides, v.type = .int 64) ∧ (∀ v ∈ offsets, v.type = .int 32)
  | .advance res ptr offsets =>
    isTensorPointerType res.type = true ∧ ptr.type = res.type ∧ ∀ v ∈ offsets, v.type = .int 32
  | .load res ptr _ _ _ _ _ =>
    isTensorPointerType ptr.type = true ∧ res.type = .tensor ptr.type.tensorShape ∧
      ptr.type.tensorShape.prod ≤ maxTensorNumElements
  | .store ptr value _ _ _ =>
    isTensorPointerType ptr.type = true ∧ value.type = .tensor ptr.type.tensorShape ∧
      ptr.type.tensorShape.prod ≤ maxTensorNumElements
  | .anyOp results _ _ => ∀ v ∈ results, isTensorPointerType v.type = false

end SourceOp

/-- The addresses of a block, without those that are out of bounds where that is checked. -/
def BlockPtr.touched (p : BlockPtr) (bytes : ℕ) (boundaryCheck : List ℕ) : List (Option (BitVec 64)) :=
  (indices p.parent.tensorShape).map fun index =>
    if boundaryCheck.all (p.inBounds index) then some (p.address bytes index) else none

def Elements.padding (el : Elements E) (pointee : Pointee) : Option PaddingOption → E
  | none => el.undef
  | some .zero => el.zero pointee
  | some .nan => el.nan pointee

abbrev SourceState (E : Type) := State Value (Val E) (World E)

def SourceOp.step (el : Elements E) : SourceOp E → SourceState E → SourceState E
  | .makeTensorPtr res base shape strides offsets, s =>
    s.bind [res] [.blockPtr ⟨⟨(s.env base).toWord, shape.map fun v => (s.env v).toWord,
      strides.map fun v => (s.env v).toWord, res.type.tensorShape⟩,
      offsets.map fun v => (s.env v).toWord⟩]
  | .advance res ptr offsets, s =>
    let p := (s.env ptr).toBlockPtr
    s.bind [res] [.blockPtr { p with
      offsets := p.offsets.zipWith (· + ·) (offsets.map fun v => (s.env v).toWord) }]
  | .load res ptr boundaryCheck padding cache evict isVolatile, s =>
    let addresses := (s.env ptr).toBlockPtr.touched ptr.type.pointee.bytes boundaryCheck
    let loaded := loadElements s.world.mem addresses (el.padding ptr.type.pointee padding)
    State.bind { s with world := s.world.access s.world.mem (.load addresses cache evict isVolatile) }
      [res] [.tensor loaded]
  | .store ptr value boundaryCheck cache evict, s =>
    let addresses := (s.env ptr).toBlockPtr.touched ptr.type.pointee.bytes boundaryCheck
    let mem := storeElements s.world.mem addresses (s.env value).elements
    { s with world := s.world.access mem (.store addresses cache evict) }
  | .anyOp results operands apply, s =>
    let r := apply (operands.map s.env) s.world.mem
    State.bind { s with world := { s.world with mem := r.2 } } results r.1

end Source

section Target

/-- A value of the program that stays, or one that takes the place of a block pointer:
its offset in a dimension, or what an offset is advanced by. -/
inductive Name where
  | old (v : Value)
  | offset (v : Value) (i : ℕ)
  | i64Offset (v : Value) (i : ℕ)
  deriving DecidableEq

inductive Elem where
  | i1 | i32 | i64 | ptr

abbrev Elem.Carrier : Elem → Type
  | .i1 => Bool
  | .i32 => BitVec 32
  | .i64 => BitVec 64
  | .ptr => BitVec 64

inductive CmpIPredicate where
  | sge
  | slt

inductive TensorExpr : Elem → Type where
  | splatPtr (shape : List ℕ) (src : Name) : TensorExpr .ptr
  | splat (shape : List ℕ) (src : Name) : TensorExpr .i64
  | splatConstant (shape : List ℕ) (n : BitVec 64) : TensorExpr .i64
  | makeRange (stop : ℕ) : TensorExpr .i32
  | extsi (e : TensorExpr .i32) : TensorExpr .i64
  | expandDims {t : Elem} (e : TensorExpr t) (axis : ℕ) : TensorExpr t
  | broadcast {t : Elem} (shape : List ℕ) (e : TensorExpr t) : TensorExpr t
  | addi (lhs rhs : TensorExpr .i64) : TensorExpr .i64
  | muli (lhs rhs : TensorExpr .i64) : TensorExpr .i64
  | cmpi (predicate : CmpIPredicate) (lhs rhs : TensorExpr .i64) : TensorExpr .i1
  | andi (lhs rhs : TensorExpr .i1) : TensorExpr .i1
  | addptr (bytes : ℕ) (ptr : TensorExpr .ptr) (offset : TensorExpr .i64) : TensorExpr .ptr

namespace TensorExpr

def shape : {t : Elem} → TensorExpr t → List ℕ
  | _, .splatPtr shape _ | _, .splat shape _ | _, .splatConstant shape _ => shape
  | _, .makeRange stop => [stop]
  | _, .extsi e => e.shape
  | _, .expandDims e axis => e.shape.insertIdx axis 1
  | _, .broadcast shape _ => shape
  | _, .addi lhs _ | _, .muli lhs _ | _, .cmpi _ lhs _ => lhs.shape
  | _, .andi lhs _ => lhs.shape
  | _, .addptr _ ptr _ => ptr.shape

def eval (env : Name → Val E) : {t : Elem} → TensorExpr t → List ℕ → t.Carrier
  | _, .splatPtr _ src, _ => (env src).toWord
  | _, .splat _ src, _ => (env src).toWord
  | _, .splatConstant _ n, _ => n
  | _, .makeRange _, index => BitVec.ofNat 32 (index.headI)
  | _, .extsi e, index => (e.eval env index).signExtend 64
  | _, .expandDims e axis, index => e.eval env (index.eraseIdx axis)
  | _, .broadcast _ e, index => e.eval env (broadcastIndex e.shape index)
  | _, .addi lhs rhs, index => lhs.eval env index + rhs.eval env index
  | _, .muli lhs rhs, index => lhs.eval env index * rhs.eval env index
  | _, .cmpi .sge lhs rhs, index => decide ((rhs.eval env index).toInt ≤ (lhs.eval env index).toInt)
  | _, .cmpi .slt lhs rhs, index => decide ((lhs.eval env index).toInt < (rhs.eval env index).toInt)
  | _, .andi lhs rhs, index => lhs.eval env index && rhs.eval env index
  | _, .addptr bytes ptr offset, index =>
    ptr.eval env index + offset.eval env index * BitVec.ofNat 64 bytes

end TensorExpr

structure Constant where
  pointee : Pointee
  isNaN : Bool

inductive TargetOp (E : Type) where
  | extsi (res src : Name)
  | addi (res lhs rhs : Name)
  | load (res : Name) (ptr : TensorExpr .ptr) (mask : Option (TensorExpr .i1))
      (other : Option Constant) (cache : CacheModifier) (evict : EvictionPolicy) (isVolatile : Bool)
  | store (ptr : TensorExpr .ptr) (value : Name) (mask : Option (TensorExpr .i1))
      (cache : CacheModifier) (evict : EvictionPolicy)
  | anyOp (results operands : List Name)
      (apply : List (Val E) → Memory E → List (Val E) × Memory E)

/-- The addresses of a tensor of pointers, without the masked ones. -/
def touched (env : Name → Val E) (ptr : TensorExpr .ptr) (mask : Option (TensorExpr .i1)) :
    List (Option (BitVec 64)) :=
  (indices ptr.shape).map fun index =>
    if mask.elim true fun m => m.eval env index then some (ptr.eval env index) else none

def Elements.constant (el : Elements E) : Option Constant → E
  | none => el.undef
  | some ⟨pointee, false⟩ => el.zero pointee
  | some ⟨pointee, true⟩ => el.nan pointee

abbrev TargetState (E : Type) := State Name (Val E) (World E)

def TargetOp.step (el : Elements E) : TargetOp E → TargetState E → TargetState E
  | .extsi res src, s => s.bind [res] [.int 64 (s.env src).toWord]
  | .addi res lhs rhs, s => s.bind [res] [.int 64 ((s.env lhs).toWord + (s.env rhs).toWord)]
  | .load res ptr mask other cache evict isVolatile, s =>
    let addresses := touched s.env ptr mask
    let loaded := loadElements s.world.mem addresses (el.constant other)
    State.bind { s with world := s.world.access s.world.mem (.load addresses cache evict isVolatile) }
      [res] [.tensor loaded]
  | .store ptr value mask cache evict, s =>
    let addresses := touched s.env ptr mask
    let mem := storeElements s.world.mem addresses (s.env value).elements
    { s with world := s.world.access mem (.store addresses cache evict) }
  | .anyOp results operands apply, s =>
    let r := apply (operands.map s.env) s.world.mem
    State.bind { s with world := { s.world with mem := r.2 } } results r.1

end Target

end TritonCpu.TensorPointer
