import Mathlib.Data.Int.Bitwise
import Mathlib.Data.List.Forall2
import Mathlib.Algebra.BigOperators.Group.List.Basic

/-!
# The values the analyses decode

An SSA value is the tree of the operations that define it, each with an
identifier, so that two values are equal exactly when they are one SSA value.
`eval` gives the element of a value at a multi-index. Values are taken over
the integers: no operation overflows. A true `i1` is `-1`.
-/

set_option autoImplicit false

namespace TritonCpu.TritonIR

inductive ElementType where
  | int (width : ℕ)
  | index
  | ptr
  deriving DecidableEq, Repr

/-- A ranked tensor with its shape, or a scalar. -/
structure Ty where
  shape : Option (List ℕ)
  elt : ElementType
  deriving DecidableEq, Repr

def Ty.index : Ty := ⟨none, .index⟩

inductive BinaryOp where
  | addi | subi | muli | remsi | minsi | maxsi | andi
  deriving DecidableEq, Repr

inductive CastOp where
  | indexCast | extSI | extUI | truncI
  deriving DecidableEq, Repr

inductive CmpIPredicate where
  | eq | ne | slt | sle | sgt | sge | ult | ule | ugt | uge
  deriving DecidableEq, Repr

/-- `blockArg` has no defining operation; `unknown` is defined by an operation
the analyses do not decode, `pointerOp` by one of those that make a base
pointer (`tt.int_to_ptr`, `tt.bitcast`, `scf.if`). A `constant` of tensor type
is a splat. `iterArg` and `forResult` are the values of loop number `loop`, and
`structuredState` is a result of `tts.get_structured_state`. -/
inductive Value where
  | blockArg (id : ℕ) (ty : Ty)
  | unknown (id : ℕ) (ty : Ty)
  | pointerOp (id : ℕ) (ty : Ty)
  | structuredState (id : ℕ) (original : Value) (ty : Ty)
  | iterArg (loop index : ℕ) (ty : Ty)
  | forResult (loop index : ℕ) (ty : Ty)
  | constant (id : ℕ) (ty : Ty) (value : ℤ)
  | makeRange (id start count : ℕ)
  | splat (id : ℕ) (src : Value) (shape : List ℕ)
  | expandDims (id : ℕ) (src : Value) (axis : ℕ)
  | broadcast (id : ℕ) (src : Value) (shape : List ℕ)
  | reshape (id : ℕ) (src : Value) (shape : List ℕ)
  | binary (id : ℕ) (op : BinaryOp) (lhs rhs : Value)
  | cast (id : ℕ) (op : CastOp) (src : Value) (elt : ElementType)
  | cmpi (id : ℕ) (pred : CmpIPredicate) (lhs rhs : Value)
  | select (id : ℕ) (cond trueValue falseValue : Value)
  | addptr (id : ℕ) (ptr offset : Value)
  deriving DecidableEq, Repr

namespace Value

def ty : Value → Ty
  | .blockArg _ ty | .unknown _ ty | .pointerOp _ ty | .structuredState _ _ ty => ty
  | .iterArg _ _ ty | .forResult _ _ ty => ty
  | .constant _ ty _ => ty
  | .makeRange _ _ count => ⟨some [count], .int 32⟩
  | .splat _ src shape | .broadcast _ src shape | .reshape _ src shape =>
    ⟨some shape, src.ty.elt⟩
  | .expandDims _ src axis => ⟨src.ty.shape.map (·.insertIdx axis 1), src.ty.elt⟩
  | .binary _ _ lhs _ => lhs.ty
  | .cast _ _ src elt => ⟨src.ty.shape, elt⟩
  | .cmpi _ _ lhs _ => ⟨lhs.ty.shape, .int 1⟩
  | .select _ _ trueValue _ => trueValue.ty
  | .addptr _ ptr _ => ptr.ty

def shape (v : Value) : List ℕ := v.ty.shape.getD []

end Value

def ravel : List ℕ → List ℕ → ℕ
  | _ :: ds, i :: is => i * ds.prod + ravel ds is
  | _, _ => 0

def unravel : List ℕ → ℕ → List ℕ
  | [], _ => []
  | _ :: ds, k => k / ds.prod :: unravel ds (k % ds.prod)

def broadcastIndex (srcShape idx : List ℕ) : List ℕ :=
  List.zipWith (fun d i => if d = 1 then 0 else i) srcShape idx

/-- What the values without a modelled definition hold. -/
structure Env where
  value : ℕ → List ℕ → ℤ
  iterArg : ℕ → ℕ → List ℕ → ℤ
  forResult : ℕ → ℕ → List ℕ → ℤ

def BinaryOp.eval : BinaryOp → ℤ → ℤ → ℤ
  | .addi, x, y => x + y
  | .subi, x, y => x - y
  | .muli, x, y => x * y
  | .remsi, x, y => x.tmod y
  | .minsi, x, y => min x y
  | .maxsi, x, y => max x y
  | .andi, x, y => Int.land x y

def ElementType.width : ElementType → ℕ
  | .int w => w
  | _ => 64

def ElementType.unsigned (elt : ElementType) (x : ℤ) : ℤ := x % 2 ^ elt.width

def CastOp.eval (op : CastOp) (src : ElementType) (x : ℤ) : ℤ :=
  match op with
  | .extUI => src.unsigned x
  | _ => x

/-- The unsigned order of two's-complement values: the negative ones are above
the others. -/
def unsignedLt (x y : ℤ) : Bool := if x < 0 ↔ y < 0 then x < y else y < 0

def CmpIPredicate.holds : CmpIPredicate → ℤ → ℤ → Bool
  | .eq, x, y => x = y
  | .ne, x, y => x ≠ y
  | .slt, x, y => x < y
  | .sle, x, y => x ≤ y
  | .sgt, x, y => x > y
  | .sge, x, y => x ≥ y
  | .ult, x, y => unsignedLt x y
  | .ule, x, y => !unsignedLt y x
  | .ugt, x, y => unsignedLt y x
  | .uge, x, y => !unsignedLt x y

namespace Value

/-- The element of a value at a multi-index; a scalar is read at `[]`. -/
def eval (ρ : Env) : Value → List ℕ → ℤ
  | .blockArg id _, idx | .unknown id _, idx => ρ.value id idx
  | .pointerOp id _, idx | .structuredState id _ _, idx => ρ.value id idx
  | .iterArg loop index _, idx => ρ.iterArg loop index idx
  | .forResult loop index _, idx => ρ.forResult loop index idx
  | .constant _ _ value, _ => value
  | .makeRange _ start _, idx => start + idx.headD 0
  | .splat _ src _, _ => src.eval ρ []
  | .expandDims _ src axis, idx => src.eval ρ (idx.eraseIdx axis)
  | .broadcast _ src _, idx => src.eval ρ (broadcastIndex src.shape idx)
  | .reshape _ src shape, idx => src.eval ρ (unravel src.shape (ravel shape idx))
  | .binary _ op lhs rhs, idx => op.eval (lhs.eval ρ idx) (rhs.eval ρ idx)
  | .cast _ op src _, idx => op.eval src.ty.elt (src.eval ρ idx)
  | .cmpi _ pred lhs rhs, idx =>
    if pred.holds (lhs.eval ρ idx) (rhs.eval ρ idx) then -1 else 0
  | .select _ cond trueValue falseValue, idx =>
    if cond.eval ρ idx ≠ 0 then trueValue.eval ρ idx else falseValue.eval ρ idx
  | .addptr _ ptr offset, idx => ptr.eval ρ idx + offset.eval ρ idx

/-- What the verifier of the dialects checks of the modelled operations. -/
def Verified : Value → Prop
  | .blockArg _ _ | .unknown _ _ | .pointerOp _ _ | .structuredState _ _ _ => True
  | .iterArg _ _ _ | .forResult _ _ _ => True
  | .constant _ _ _ | .makeRange _ _ _ => True
  | .splat _ src _ => src.Verified ∧ src.ty.shape = none
  | .expandDims _ src axis =>
    src.Verified ∧ ∃ s, src.ty.shape = some s ∧ axis ≤ s.length
  | .broadcast _ src shape =>
    src.Verified ∧ ∃ s, src.ty.shape = some s ∧ List.Forall₂ (fun d e => d = e ∨ d = 1) s shape
  | .reshape _ src shape => src.Verified ∧ src.shape.prod = shape.prod
  | .binary _ _ lhs rhs => lhs.Verified ∧ rhs.Verified ∧ lhs.ty = rhs.ty ∧ lhs.ty.elt ≠ .ptr
  | .cast _ _ src elt => src.Verified ∧ src.ty.elt ≠ .ptr ∧ elt ≠ .ptr
  | .cmpi _ _ lhs rhs => lhs.Verified ∧ rhs.Verified ∧ lhs.ty = rhs.ty
  | .select _ cond trueValue falseValue =>
    cond.Verified ∧ trueValue.Verified ∧ falseValue.Verified ∧ trueValue.ty = falseValue.ty
  | .addptr _ ptr offset =>
    ptr.Verified ∧ offset.Verified ∧ ptr.ty.shape = offset.ty.shape ∧ ptr.ty.elt = .ptr

end Value

theorem shape_of_ty {v : Value} {s : List ℕ} (h : v.ty.shape = some s) : v.shape = s := by
  simp [Value.shape, h]

def InBounds (shape idx : List ℕ) : Prop := List.Forall₂ (fun d i => i < d) shape idx

theorem ravel_unravel (shape : List ℕ) (k : ℕ) (h : k < shape.prod) :
    ravel shape (unravel shape k) = k := by
  induction shape generalizing k with
  | nil =>
    rw [List.prod_nil] at h
    simp [ravel]
    omega
  | cons d ds ih =>
    have hpos : 0 < ds.prod := by
      rcases Nat.eq_zero_or_pos ds.prod with hz | hp
      · simp [hz] at h
      · exact hp
    rw [unravel, ravel, ih _ (Nat.mod_lt _ hpos)]
    exact Nat.div_add_mod' k ds.prod

end TritonCpu.TritonIR
