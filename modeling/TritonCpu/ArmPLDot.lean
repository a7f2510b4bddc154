import TritonCpu.Blas
import TritonCpu.FlatTensor

/-!
# Dot products through BLAS

TritonDotToArmPLOp turns a dot into `tts.armpl_matmul`, or into
`tts.armpl_gemv` when the result is a row or a column; ArmPLOpToFunction copies
the operands to buffers and calls `gemm` or `gemv`. Elements are taken in a
commutative ring, in which the conversions between floating-point types keep
their value.
-/

set_option autoImplicit false

namespace TritonCpu.ArmPL

open Blas List
open TritonIR (ravel unravel)

inductive ElementType where
  | float8
  | f16
  | bf16
  | f32
  | f64
  | integer
  deriving DecidableEq

structure Tensor (R : Type) where
  elementType : ElementType
  shape : List ℕ
  get : List ℕ → R

/-- The attribute of an `arith.constant`. -/
inductive Attr (R : Type) where
  | float (value : R)
  | integer (value : R)

/-- The source of a `tt.splat`. -/
inductive Scalar (R : Type) where
  | constant (value : Attr R)
  | other (value : R)

def Scalar.value {R : Type} : Scalar R → R
  | .constant (.float value) => value
  | .constant (.integer value) => value
  | .other value => value

/-- DenseElementsAttr -/
inductive Dense (R : Type) where
  | splat (value : R)
  | elements (get : List ℕ → R)

def Dense.get {R : Type} : Dense R → List ℕ → R
  | .splat value => fun _ => value
  | .elements get => get

/-- A tensor with the operation that defines it. -/
inductive Value (R : Type) where
  | splat (elementType : ElementType) (shape : List ℕ) (src : Scalar R)
  | constant (elementType : ElementType) (shape : List ℕ) (value : Dense R)
  | trans (order : List ℕ) (src : Value R)
  | other (tensor : Tensor R)

namespace Value

variable {R : Type}

/-- The dimension `k` of a transposed tensor is the dimension `order[k]` of its source. -/
def tensor : Value R → Tensor R
  | splat elementType shape src => ⟨elementType, shape, fun _ => src.value⟩
  | constant elementType shape value => ⟨elementType, shape, value.get⟩
  | trans order src => ⟨src.tensor.elementType, order.map fun k => src.tensor.shape.getD k 0,
      fun idx => src.tensor.get ((List.range order.length).map fun k => idx.getD (order.idxOf k) 0)⟩
  | other tensor => tensor

/-- What the verifier of `tt.trans` checks. -/
def Verified : Value R → Prop
  | trans order src => order.Perm (List.range src.tensor.shape.length) ∧ src.Verified
  | _ => True

end Value

section Pattern

variable {R : Type} [CommRing R] [DecidableEq R]

def kCblasNoTrans : ℤ := 111
def kCblasTrans : ℤ := 112

def isZeroTensor : Value R → Bool
  | .splat _ _ (.constant (.float value)) => decide (value = 0)
  | .splat _ _ (.constant (.integer value)) => decide (value = 0)
  | .constant _ _ (.splat value) => decide (value = 0)
  | _ => false

def getTransposedSource : Value R → Option (Value R)
  | .trans order src => if order = [1, 0] then some src else none
  | _ => none

def upcastToF32IfNeeded (t : Tensor R) : Tensor R :=
  if t.elementType = .f16 ∨ t.elementType = .bf16 then { t with elementType := .f32 } else t

/-- A `tt.dot` of matrices, or of batches of them. Its elements are of one ring, so the three
operands have one type once the small ones are made larger. -/
structure DotOp (R : Type) [CommRing R] [DecidableEq R] where
  a : Value R
  b : Value R
  c : Value R
  batch : List ℕ
  M : ℕ
  N : ℕ
  K : ℕ
  a_shape : a.tensor.shape = batch ++ [M, K]
  b_shape : b.tensor.shape = batch ++ [K, N]
  c_shape : c.tensor.shape = batch ++ [M, N]
  M_pos : 0 < M
  N_pos : 0 < N
  K_pos : 0 < K
  a_size : a.tensor.shape.prod ≤ 1048576
  b_size : b.tensor.shape.prod ≤ 1048576
  c_size : c.tensor.shape.prod ≤ 1048576
  a_verified : a.Verified
  b_verified : b.Verified
  b_type : (upcastToF32IfNeeded b.tensor).elementType = (upcastToF32IfNeeded a.tensor).elementType
  c_type : (upcastToF32IfNeeded c.tensor).elementType = (upcastToF32IfNeeded a.tensor).elementType

/-- `tts.armpl_matmul` and `tts.armpl_gemv` -/
inductive ArmPLOp (R : Type) where
  | matmul (a b c : Tensor R) (transA transB : ℤ) (alpha beta : ℤ)
  | gemv (a x y : Tensor R) (transA : ℤ) (alpha beta : ℤ)

def kMinArmPLAccumulatedOutputElements : ℕ := 64 * 64

/-- Whether `TRITON_SHARED_ENABLE_ACL_OPT` is anything but `0`. -/
def aclOptEnabled (aclOpt : Option String) : Bool := decide (aclOpt ≠ some "0")

/-- An operand without its transposition, and the flag that stands for it. -/
def operand (v : Value R) : ℤ × Value R :=
  match getTransposedSource v with
  | some t => (kCblasTrans, t)
  | none => (kCblasNoTrans, v)

/-- ArmPLOpPattern; a dot that it declines stays. -/
def matchAndRewrite (aclOpt : Option String) (op : DotOp R) : Option (ArmPLOp R) :=
  let aType := op.a.tensor
  if aType.shape.length ≠ 2 then none
  else if aType.elementType = .integer ∨ aType.elementType = .float8 then none
  else
    let (transA, aSrc) := operand op.a
    let (transB, bSrc) := operand op.b
    let cType := op.c.tensor
    let M := cType.shape.getD 0 0
    let N := cType.shape.getD 1 0
    let alpha := 1
    let beta := if isZeroTensor op.c then 0 else 1
    if aclOptEnabled aclOpt ∧ beta ≠ 0 ∧
        cType.shape.prod < kMinArmPLAccumulatedOutputElements then none
    else
      let aF32 := upcastToF32IfNeeded aSrc.tensor
      let bF32 := upcastToF32IfNeeded bSrc.tensor
      let cF32 := upcastToF32IfNeeded cType
      if N = 1 then some (.gemv aF32 bF32 cF32 transA alpha beta)
      else if M = 1 then
        let gvT := if transB = kCblasNoTrans then kCblasTrans else kCblasNoTrans
        some (.gemv bF32 aF32 cF32 gvT alpha beta)
      else some (.matmul aF32 bF32 cF32 transA transB alpha beta)

end Pattern

namespace ArmPLOp

variable {R : Type} [CommRing R] [DecidableEq R]

def routineType (t : ElementType) : Bool := decide (t = .f32) || decide (t = .f64)

def verify : ArmPLOp R → Bool
  | matmul a b c _ _ _ _ =>
    decide (a.elementType = b.elementType) && decide (a.elementType = c.elementType) &&
      routineType a.elementType && decide (a.shape.length = 2) && decide (b.shape.length = 2) &&
      decide (c.shape.length = 2)
  | gemv a x y _ _ _ =>
    decide (a.elementType = x.elementType) && decide (a.elementType = y.elementType) &&
      routineType a.elementType && decide (a.shape.length = 2) && decide (x.shape.length = 1) &&
      decide (y.shape.length = 1)

end ArmPLOp

section Lowering

variable {R : Type} [CommRing R] [DecidableEq R]

/-- A fresh buffer; its elements lie in row-major order. -/
structure Buffer (R : Type) where
  elementType : ElementType
  shape : List ℕ
  memory : Memory R

def bufferizeTensor (t : Tensor R) : Buffer R :=
  ⟨t.elementType, t.shape, fun p => t.get (unravel t.shape p)⟩

def memrefToTensor (m : Buffer R) : Tensor R :=
  ⟨m.elementType, m.shape, fun idx => m.memory (ravel m.shape idx)⟩

/-- `arith.index_cast` to `i32` -/
def castToI32 (n : ℕ) : ℤ := (BitVec.ofNat 32 n).toInt

def getLeadingDimI32 (m : Buffer R) : ℤ := castToI32 (m.shape.drop 1).prod

def dimI32 (m : Buffer R) (k : ℕ) : ℤ := castToI32 (m.shape.getD k 0)

/-- ArmPLMatmulLowering and ArmPLGemvLowering: the result is what the routine leaves in the last
buffer, if it takes its arguments. -/
def ArmPLOp.lower : ArmPLOp R → Option (Tensor R)
  | .matmul a b c transA transB alpha beta =>
    let aMem := bufferizeTensor a
    let bMem := bufferizeTensor b
    let cMem := bufferizeTensor c
    let M := dimI32 cMem 0
    let N := dimI32 cMem 1
    let K := dimI32 aMem (if transA = 112 then 0 else 1)
    (Blas.gemm 101 transA transB M N K (alpha : R) aMem.memory (getLeadingDimI32 aMem) bMem.memory
      (getLeadingDimI32 bMem) (beta : R) cMem.memory (getLeadingDimI32 cMem)).map fun memory =>
        memrefToTensor { cMem with memory := memory }
  | .gemv a x y transA alpha beta =>
    let aMem := bufferizeTensor a
    let xMem := bufferizeTensor x
    let yMem := bufferizeTensor y
    let M := dimI32 aMem 0
    let N := dimI32 aMem 1
    (Blas.gemv 101 transA M N (alpha : R) aMem.memory (getLeadingDimI32 aMem) xMem.memory 1 (beta : R)
      yMem.memory 1).map fun memory => memrefToTensor { yMem with memory := memory }

def dotToArmPL (aclOpt : Option String) (op : DotOp R) : Option (Tensor R) := do
  let armpl ← matchAndRewrite aclOpt op
  if armpl.verify then armpl.lower else none

end Lowering

/-- The result of a dot: every element of the operands is read at its own index. -/
structure DotOp.Computes {R : Type} [CommRing R] [DecidableEq R] (op : DotOp R) (out : Tensor R) :
    Prop where
  shape : out.shape = [op.M, op.N]
  get : ∀ i < op.M, ∀ j < op.N, out.get [i, j] =
    ∑ l ∈ Finset.range op.K, op.a.tensor.get [i, l] * op.b.tensor.get [l, j] +
      op.c.tensor.get [i, j]

section Operands

variable {R : Type}

theorem castToI32_eq {n : ℕ} (h : n ≤ 1048576) : castToI32 n = n := by
  have hnat : (BitVec.ofNat 32 n).toNat = n := by
    rw [BitVec.toNat_ofNat]
    exact Nat.mod_eq_of_lt (by omega)
  rw [castToI32, BitVec.toInt_eq_toNat_of_lt (by omega), hnat]

theorem operand_eq [CommRing R] [DecidableEq R] {v : Value R} (hv : v.Verified) {r c : ℕ}
    (hshape : v.tensor.shape = [r, c]) :
    ((operand v).1 = noTrans ∨ (operand v).1 = trans) ∧
      (operand v).2.tensor.elementType = v.tensor.elementType ∧
      (operand v).2.tensor.shape = (if (operand v).1 = noTrans then [r, c] else [c, r]) ∧
      ∀ i j, (operand v).2.tensor.get (if (operand v).1 = noTrans then [i, j] else [j, i]) =
        v.tensor.get [i, j] := by
  unfold operand
  cases h : getTransposedSource v with
  | none => exact ⟨.inl rfl, rfl, hshape, fun i j => rfl⟩
  | some src =>
    obtain ⟨order, rfl, rfl⟩ : ∃ order, v = .trans order src ∧ order = [1, 0] := by
      unfold getTransposedSource at h
      split at h
      · split_ifs at h with horder
        exact ⟨_, by rw [Option.some.inj h], horder⟩
      · cases h
    refine ⟨.inr rfl, rfl, ?_, fun i j => rfl⟩
    have hlength := hv.1.length_eq
    rw [length_range] at hlength
    change src.tensor.shape = [c, r]
    cases hs : src.tensor.shape with
    | nil => simp [hs] at hlength
    | cons d ds =>
      cases ds with
      | nil => simp [hs] at hlength
      | cons d' ds =>
        cases ds with
        | nil => simpa [Value.tensor, hs, and_comm] using hshape
        | cons _ _ => simp [hs] at hlength

theorem bufferizeTensor_memory {t : Tensor R} {r c : ℕ} (hshape : t.shape = [r, c]) {i j : ℕ}
    (hj : j < c) : (bufferizeTensor t).memory (i * c + j) = t.get [i, j] := by
  have hpos : 0 < c := Nat.zero_lt_of_lt hj
  change t.get (unravel t.shape (i * c + j)) = _
  rw [hshape]
  simp only [unravel, prod_cons, prod_nil, mul_one, Nat.div_one]
  rw [Nat.mul_comm, Nat.mul_add_div hpos, Nat.mul_add_mod, Nat.div_eq_of_lt hj,
    Nat.mod_eq_of_lt hj, Nat.add_zero]

@[simp] theorem upcast_shape (t : Tensor R) : (upcastToF32IfNeeded t).shape = t.shape := by
  unfold upcastToF32IfNeeded
  split_ifs <;> rfl

@[simp] theorem upcast_get (t : Tensor R) : (upcastToF32IfNeeded t).get = t.get := by
  unfold upcastToF32IfNeeded
  split_ifs <;> rfl

theorem isZeroTensor_get [CommRing R] [DecidableEq R] {v : Value R} (h : isZeroTensor v = true)
    (idx : List ℕ) : v.tensor.get idx = 0 := by
  unfold isZeroTensor at h
  split at h
  · exact of_decide_eq_true h
  · exact of_decide_eq_true h
  · exact of_decide_eq_true h
  · cases h

end Operands

section Buffers

variable {R : Type}

theorem buffer_dims {t : Tensor R} {r c : ℕ} (hshape : t.shape = [r, c]) (hr : 0 < r) (hc : 0 < c)
    (hsize : r * c ≤ 1048576) :
    dimI32 (bufferizeTensor t) 0 = r ∧ dimI32 (bufferizeTensor t) 1 = c ∧
      getLeadingDimI32 (bufferizeTensor t) = c := by
  have hrle : r ≤ 1048576 := (Nat.le_mul_of_pos_right r hc).trans hsize
  have hcle : c ≤ 1048576 := (Nat.le_mul_of_pos_left c hr).trans hsize
  have hbuffer : (bufferizeTensor t).shape = [r, c] := hshape
  unfold dimI32 getLeadingDimI32
  rw [hbuffer]
  refine ⟨castToI32_eq hrle, castToI32_eq hcle, ?_⟩
  rw [drop_one, tail_cons, prod_singleton]
  exact castToI32_eq hcle

variable [CommRing R] [DecidableEq R]

/-- The buffer of an operand, as the routine reads it with the flag of the operand. -/
structure Reads (v : Value R) (r c : ℕ) (flag : ℤ) (m : Buffer R) : Prop where
  known : flag = noTrans ∨ flag = trans
  rows : dimI32 m 0 = ((if flag = noTrans then r else c : ℕ) : ℤ)
  cols : dimI32 m 1 = ((if flag = noTrans then c else r : ℕ) : ℤ)
  ld : getLeadingDimI32 m = ((if flag = noTrans then c else r : ℕ) : ℤ)
  memory : ∀ i < r, ∀ j < c, m.memory (element (decide (flag = noTrans))
    (if flag = noTrans then c else r) i j) = v.tensor.get [i, j]

theorem operand_reads {v : Value R} (hv : v.Verified) {r c : ℕ} (hshape : v.tensor.shape = [r, c])
    (hr : 0 < r) (hc : 0 < c) (hsize : r * c ≤ 1048576) : Reads v r c (operand v).1
      (bufferizeTensor (upcastToF32IfNeeded (operand v).2.tensor)) := by
  obtain ⟨hflag, -, hsrc, hget⟩ := operand_eq hv hshape
  rw [← upcast_shape] at hsrc
  by_cases h : (operand v).1 = noTrans
  · rw [if_pos h] at hsrc
    obtain ⟨hrows, hcols, hld⟩ := buffer_dims hsrc hr hc hsize
    refine ⟨hflag, ?_, ?_, ?_, fun i hi j hj => ?_⟩
    · rw [hrows, if_pos h]
    · rw [hcols, if_pos h]
    · rw [hld, if_pos h]
    · have hij := hget i j
      rw [if_pos h] at hij
      rw [if_pos h, decide_eq_true h, element, if_pos rfl, bufferizeTensor_memory hsrc hj,
        upcast_get, hij]
  · rw [if_neg h] at hsrc
    obtain ⟨hrows, hcols, hld⟩ := buffer_dims hsrc hc hr (by rwa [Nat.mul_comm])
    refine ⟨hflag, ?_, ?_, ?_, fun i hi j hj => ?_⟩
    · rw [hrows, if_neg h]
    · rw [hcols, if_neg h]
    · rw [hld, if_neg h]
    · have hij := hget i j
      rw [if_neg h] at hij
      rw [if_neg h, decide_eq_false h, element, if_neg Bool.false_ne_true,
        bufferizeTensor_memory hsrc hi, upcast_get, hij]

theorem update_beta {v : Value R} (idx : List ℕ) (product : R) :
    update (((1 : ℤ) : R)) product ((if isZeroTensor v then 0 else 1 : ℤ) : R)
      (v.tensor.get idx) = product + v.tensor.get idx := by
  unfold update
  split_ifs with h hzero hzero
  · rw [isZeroTensor_get h]
    simp
  · simp at hzero
  · have hone : (1 : R) = 0 := by simpa using hzero
    have hall (x : R) : x = 0 := by rw [← mul_one x, hone, mul_zero]
    rw [hall (v.tensor.get idx)]
    simp
  · simp

end Buffers

section Dot

variable {R : Type} [CommRing R] [DecidableEq R] {op : DotOp R}

/-- The flag of an operand that is to be read the other way round. -/
def flipped (flag : ℤ) : ℤ := if flag = kCblasNoTrans then kCblasTrans else kCblasNoTrans

def routineOperand (v : Value R) : Tensor R := upcastToF32IfNeeded (operand v).2.tensor

theorem matchAndRewrite_cases {aclOpt : Option String} {armpl : ArmPLOp R}
    (h : matchAndRewrite aclOpt op = some armpl) :
    op.batch = [] ∧ op.a.tensor.elementType ≠ .integer ∧ op.a.tensor.elementType ≠ .float8 ∧
      ((op.N = 1 ∧ armpl = .gemv (routineOperand op.a) (routineOperand op.b)
          (upcastToF32IfNeeded op.c.tensor) (operand op.a).1 1 (if isZeroTensor op.c then 0 else 1)) ∨
        (op.N ≠ 1 ∧ op.M = 1 ∧ armpl = .gemv (routineOperand op.b) (routineOperand op.a)
          (upcastToF32IfNeeded op.c.tensor) (flipped (operand op.b).1) 1
          (if isZeroTensor op.c then 0 else 1)) ∨
        (op.N ≠ 1 ∧ op.M ≠ 1 ∧ armpl = .matmul (routineOperand op.a) (routineOperand op.b)
          (upcastToF32IfNeeded op.c.tensor) (operand op.a).1 (operand op.b).1 1
          (if isZeroTensor op.c then 0 else 1))) := by
  have hc := op.c_shape
  simp only [matchAndRewrite] at h
  by_cases hrank : op.a.tensor.shape.length ≠ 2
  · rw [if_pos hrank] at h
    cases h
  have hbatch : op.batch = [] := by
    rw [op.a_shape] at hrank
    simpa using hrank
  rw [hbatch, nil_append] at hc
  rw [if_neg hrank, hc] at h
  by_cases htype : op.a.tensor.elementType = .integer ∨ op.a.tensor.elementType = .float8
  · rw [if_pos htype] at h
    cases h
  rw [if_neg htype] at h
  obtain ⟨hint, hfloat8⟩ := not_or.mp htype
  refine ⟨hbatch, hint, hfloat8, ?_⟩
  by_cases hsmall : aclOptEnabled aclOpt ∧ (if isZeroTensor op.c then (0 : ℤ) else 1) ≠ 0 ∧
      [op.M, op.N].prod < kMinArmPLAccumulatedOutputElements
  · rw [if_pos hsmall] at h
    cases h
  rw [if_neg hsmall] at h
  change (if op.N = 1 then _ else if op.M = 1 then _ else _) = some armpl at h
  by_cases hN : op.N = 1
  · rw [if_pos hN] at h
    exact .inl ⟨hN, (Option.some.inj h).symm⟩
  · rw [if_neg hN] at h
    by_cases hM : op.M = 1
    · rw [if_pos hM] at h
      exact .inr (.inl ⟨hN, hM, (Option.some.inj h).symm⟩)
    · rw [if_neg hM] at h
      exact .inr (.inr ⟨hN, hM, (Option.some.inj h).symm⟩)

/-- The operands of a dot of matrices, in their buffers. -/
structure Buffers (op : DotOp R) (a b c : Tensor R) : Prop where
  a_reads : Reads op.a op.M op.K (operand op.a).1 (bufferizeTensor a)
  b_reads : Reads op.b op.K op.N (operand op.b).1 (bufferizeTensor b)
  c_shape : c.shape = [op.M, op.N]
  c_get : c.get = op.c.tensor.get
  c_size : op.M * op.N ≤ 1048576

theorem buffers_of_batch (h : op.batch = []) :
    Buffers op (routineOperand op.a) (routineOperand op.b) (upcastToF32IfNeeded op.c.tensor) := by
  have ha := op.a_shape
  have hb := op.b_shape
  have hc := op.c_shape
  have hasize := op.a_size
  have hbsize := op.b_size
  have hcsize := op.c_size
  rw [h, nil_append] at ha hb hc
  rw [ha, prod_cons, prod_singleton] at hasize
  rw [hb, prod_cons, prod_singleton] at hbsize
  rw [hc, prod_cons, prod_singleton] at hcsize
  exact ⟨operand_reads op.a_verified ha op.M_pos op.K_pos hasize,
    operand_reads op.b_verified hb op.K_pos op.N_pos hbsize,
    by rw [upcast_shape, hc], upcast_get _, hcsize⟩

variable {a b c : Tensor R}

theorem lower_matmul (h : Buffers op a b c) : ∃ out,
    (ArmPLOp.matmul a b c (operand op.a).1 (operand op.b).1 1
      (if isZeroTensor op.c then 0 else 1)).lower = some out ∧ op.Computes out := by
  obtain ⟨hM, hN, hldc⟩ := buffer_dims h.c_shape op.M_pos op.N_pos h.c_size
  have hK : dimI32 (bufferizeTensor a) (if (operand op.a).1 = 112 then 0 else 1) = op.K := by
    rcases h.a_reads.known with hflag | hflag
    · have hne : ¬ (operand op.a).1 = 112 := by
        rw [hflag]
        decide
      rw [if_neg hne, h.a_reads.cols, if_pos hflag]
    · have hne : ¬ (operand op.a).1 = noTrans := by
        rw [hflag]
        decide
      rw [if_pos (show (operand op.a).1 = 112 from hflag), h.a_reads.rows, if_neg hne]
  obtain ⟨memory, hcall, hmemory⟩ := gemm_rowMajor h.a_reads.known h.b_reads.known op.M_pos
    op.N_pos op.K_pos le_rfl le_rfl le_rfl ((1 : ℤ) : R)
    ((if isZeroTensor op.c then 0 else 1 : ℤ) : R) (bufferizeTensor a).memory
    (bufferizeTensor b).memory (bufferizeTensor c).memory
  refine ⟨memrefToTensor { bufferizeTensor c with memory := memory }, ?_, ?_⟩
  · rw [ArmPLOp.lower]
    simp only [hM, hN, hK, hldc, h.a_reads.ld, h.b_reads.ld]
    rw [show (101 : ℤ) = rowMajor from rfl, hcall]
    rfl
  · refine ⟨h.c_shape, fun i hi j hj => ?_⟩
    have hplace : (memrefToTensor { bufferizeTensor c with memory := memory }).get [i, j] =
        memory (i * op.N + j) := by
      change memory (ravel c.shape [i, j]) = _
      rw [h.c_shape]
      simp [ravel]
    rw [hplace, hmemory i hi j hj, bufferizeTensor_memory h.c_shape hj, h.c_get, update_beta]
    congr 1
    refine Finset.sum_congr rfl fun l hl => ?_
    rw [Finset.mem_range] at hl
    rw [h.a_reads.memory i hi l hl, h.b_reads.memory l hl j hj]

omit [CommRing R] [DecidableEq R] in
theorem Reads.column {v : Value R} {r : ℕ} {flag : ℤ} {m : Buffer R} (h : Reads v r 1 flag m)
    {i : ℕ} (hi : i < r) : m.memory i = v.tensor.get [i, 0] := by
  have hmemory := h.memory i hi 0 Nat.one_pos
  unfold element at hmemory
  by_cases hflag : flag = noTrans
  · simpa [hflag] using hmemory
  · simpa [hflag] using hmemory

omit [CommRing R] [DecidableEq R] in
theorem Reads.row {v : Value R} {c : ℕ} {flag : ℤ} {m : Buffer R} (h : Reads v 1 c flag m)
    {j : ℕ} (hj : j < c) : m.memory j = v.tensor.get [0, j] := by
  have hmemory := h.memory 0 Nat.one_pos j hj
  unfold element at hmemory
  by_cases hflag : flag = noTrans
  · simpa [hflag] using hmemory
  · simpa [hflag] using hmemory

theorem lower_gemv_column (h : Buffers op a b c) (hN : op.N = 1) : ∃ out,
    (ArmPLOp.gemv a b c (operand op.a).1 1 (if isZeroTensor op.c then 0 else 1)).lower = some out ∧
      op.Computes out := by
  have hb := h.b_reads
  have hshape := h.c_shape
  rw [hN] at hb hshape
  have hrows : 0 < if (operand op.a).1 = noTrans then op.M else op.K := by
    split_ifs
    · exact op.M_pos
    · exact op.K_pos
  have hcols : 0 < if (operand op.a).1 = noTrans then op.K else op.M := by
    split_ifs
    · exact op.K_pos
    · exact op.M_pos
  obtain ⟨memory, hcall, hmemory⟩ := gemv_rowMajor h.a_reads.known hrows hcols le_rfl
    ((1 : ℤ) : R) ((if isZeroTensor op.c then 0 else 1 : ℤ) : R) (bufferizeTensor a).memory
    (bufferizeTensor b).memory (bufferizeTensor c).memory
  have hlen : (if (operand op.a).1 = noTrans then
      (if (operand op.a).1 = noTrans then op.M else op.K) else
      (if (operand op.a).1 = noTrans then op.K else op.M)) = op.M ∧
      (if (operand op.a).1 = noTrans then
      (if (operand op.a).1 = noTrans then op.K else op.M) else
      (if (operand op.a).1 = noTrans then op.M else op.K)) = op.K := by
    split_ifs <;> exact ⟨rfl, rfl⟩
  rw [hlen.1, hlen.2] at hmemory
  refine ⟨memrefToTensor { bufferizeTensor c with memory := memory }, ?_, ?_⟩
  · rw [ArmPLOp.lower]
    simp only [h.a_reads.rows, h.a_reads.cols, h.a_reads.ld]
    rw [show (101 : ℤ) = rowMajor from rfl, hcall]
    rfl
  · refine ⟨h.c_shape, fun i hi j hj => ?_⟩
    have hj0 : j = 0 := by omega
    subst hj0
    have hplace : (memrefToTensor { bufferizeTensor c with memory := memory }).get [i, 0] =
        memory i := by
      change memory (ravel c.shape [i, 0]) = _
      rw [hshape]
      simp [ravel]
    have hold : (bufferizeTensor c).memory i = op.c.tensor.get [i, 0] := by
      have hbuffer := bufferizeTensor_memory hshape (i := i) Nat.one_pos
      rw [Nat.mul_one, Nat.add_zero] at hbuffer
      rw [hbuffer, h.c_get]
    rw [hplace, hmemory i hi, hold, update_beta]
    congr 1
    refine Finset.sum_congr rfl fun l hl => ?_
    rw [Finset.mem_range] at hl
    rw [h.a_reads.memory i hi l hl, hb.column hl]

theorem flipped_known (flag : ℤ) : flipped flag = noTrans ∨ flipped flag = trans := by
  unfold flipped
  split_ifs
  · exact .inr rfl
  · exact .inl rfl

theorem flipped_eq_noTrans (flag : ℤ) : flipped flag = noTrans ↔ ¬ flag = noTrans := by
  unfold flipped
  split_ifs with h
  · exact iff_of_false (by decide) (not_not_intro h)
  · exact iff_of_true rfl h

theorem element_flipped (flag : ℤ) (ld i j : ℕ) :
    element (decide (flipped flag = noTrans)) ld i j = element (decide (flag = noTrans)) ld j i := by
  unfold element
  by_cases h : flag = noTrans
  · rw [decide_eq_true h, decide_eq_false (fun hf => (flipped_eq_noTrans flag).mp hf h)]
    simp
  · rw [decide_eq_false h, decide_eq_true ((flipped_eq_noTrans flag).mpr h)]
    simp

theorem lower_gemv_row (h : Buffers op a b c) (hM : op.M = 1) : ∃ out,
    (ArmPLOp.gemv b a c (flipped (operand op.b).1) 1
      (if isZeroTensor op.c then 0 else 1)).lower = some out ∧ op.Computes out := by
  have ha := h.a_reads
  have hshape := h.c_shape
  rw [hM] at ha hshape
  have hrows : 0 < if (operand op.b).1 = noTrans then op.K else op.N := by
    split_ifs
    · exact op.K_pos
    · exact op.N_pos
  have hcols : 0 < if (operand op.b).1 = noTrans then op.N else op.K := by
    split_ifs
    · exact op.N_pos
    · exact op.K_pos
  obtain ⟨memory, hcall, hmemory⟩ := gemv_rowMajor (flipped_known (operand op.b).1) hrows hcols
    le_rfl ((1 : ℤ) : R) ((if isZeroTensor op.c then 0 else 1 : ℤ) : R) (bufferizeTensor b).memory
    (bufferizeTensor a).memory (bufferizeTensor c).memory
  have hlen : (if flipped (operand op.b).1 = noTrans then
      (if (operand op.b).1 = noTrans then op.K else op.N) else
      (if (operand op.b).1 = noTrans then op.N else op.K)) = op.N ∧
      (if flipped (operand op.b).1 = noTrans then
      (if (operand op.b).1 = noTrans then op.N else op.K) else
      (if (operand op.b).1 = noTrans then op.K else op.N)) = op.K := by
    simp only [flipped_eq_noTrans]
    split_ifs <;> exact ⟨rfl, rfl⟩
  rw [hlen.1, hlen.2] at hmemory
  refine ⟨memrefToTensor { bufferizeTensor c with memory := memory }, ?_, ?_⟩
  · rw [ArmPLOp.lower]
    simp only [h.b_reads.rows, h.b_reads.cols, h.b_reads.ld]
    rw [show (101 : ℤ) = rowMajor from rfl, hcall]
    rfl
  · refine ⟨h.c_shape, fun i hi j hj => ?_⟩
    have hi0 : i = 0 := by omega
    subst hi0
    have hplace : (memrefToTensor { bufferizeTensor c with memory := memory }).get [0, j] =
        memory j := by
      change memory (ravel c.shape [0, j]) = _
      rw [hshape]
      simp [ravel]
    have hold : (bufferizeTensor c).memory j = op.c.tensor.get [0, j] := by
      have hbuffer := bufferizeTensor_memory hshape (i := 0) hj
      rw [Nat.zero_mul, Nat.zero_add] at hbuffer
      rw [hbuffer, h.c_get]
    rw [hplace, hmemory j hj, hold, update_beta]
    congr 1
    refine Finset.sum_congr rfl fun l hl => ?_
    rw [Finset.mem_range] at hl
    rw [element_flipped, h.b_reads.memory l hl j hj, ha.row hl, mul_comm]

theorem lower_computes {aclOpt : Option String} {armpl : ArmPLOp R}
    (h : matchAndRewrite aclOpt op = some armpl) :
    ∃ out, armpl.lower = some out ∧ op.Computes out := by
  obtain ⟨hbatch, -, -, hcases⟩ := matchAndRewrite_cases h
  have hbuffers := buffers_of_batch hbatch
  rcases hcases with ⟨hN, rfl⟩ | ⟨-, hM, rfl⟩ | ⟨-, -, rfl⟩
  · exact lower_gemv_column hbuffers hN
  · exact lower_gemv_row hbuffers hM
  · exact lower_matmul hbuffers

omit [CommRing R] [DecidableEq R] in
theorem upcast_elementType {t u : Tensor R} (h : t.elementType = u.elementType) :
    (upcastToF32IfNeeded t).elementType = (upcastToF32IfNeeded u).elementType := by
  unfold upcastToF32IfNeeded
  rw [h]
  split_ifs
  · rfl
  · exact h

/-- The verifier takes the matrix operation. It takes no `tts.armpl_gemv` of the pattern, whose
vectors are matrices with one row or one column. -/
theorem verify_iff {aclOpt : Option String} {armpl : ArmPLOp R}
    (h : matchAndRewrite aclOpt op = some armpl) :
    armpl.verify = true ↔ op.M ≠ 1 ∧ op.N ≠ 1 := by
  obtain ⟨hbatch, hint, hfloat8, hcases⟩ := matchAndRewrite_cases h
  have ha := op.a_shape
  have hb := op.b_shape
  have hc := op.c_shape
  rw [hbatch, nil_append] at ha hb hc
  obtain ⟨-, hatype, hashape, -⟩ := operand_eq op.a_verified ha
  obtain ⟨-, hbtype, hbshape, -⟩ := operand_eq op.b_verified hb
  have hcrank : ¬ (upcastToF32IfNeeded op.c.tensor).shape.length = 1 := by
    rw [upcast_shape, hc]
    simp
  rcases hcases with ⟨hN, rfl⟩ | ⟨-, hM, rfl⟩ | ⟨hN, hM, rfl⟩
  · refine iff_of_false ?_ fun hne => hne.2 hN
    rw [ArmPLOp.verify, decide_eq_false hcrank, Bool.and_false]
    exact Bool.false_ne_true
  · refine iff_of_false ?_ fun hne => hne.1 hM
    rw [ArmPLOp.verify, decide_eq_false hcrank, Bool.and_false]
    exact Bool.false_ne_true
  · refine iff_of_true ?_ ⟨hM, hN⟩
    have hab : (routineOperand op.a).elementType = (routineOperand op.b).elementType :=
      (upcast_elementType hatype).trans (op.b_type.symm.trans (upcast_elementType hbtype).symm)
    have hac : (routineOperand op.a).elementType =
        (upcastToF32IfNeeded op.c.tensor).elementType :=
      (upcast_elementType hatype).trans op.c_type.symm
    have harank : (routineOperand op.a).shape.length = 2 := by
      rw [routineOperand, upcast_shape, hashape]
      split_ifs <;> rfl
    have hbrank : (routineOperand op.b).shape.length = 2 := by
      rw [routineOperand, upcast_shape, hbshape]
      split_ifs <;> rfl
    have hcrank2 : (upcastToF32IfNeeded op.c.tensor).shape.length = 2 := by
      rw [upcast_shape, hc]
      rfl
    have hroutine : ArmPLOp.routineType (routineOperand op.a).elementType = true := by
      rw [routineOperand, upcast_elementType hatype]
      unfold upcastToF32IfNeeded ArmPLOp.routineType
      cases htype : op.a.tensor.elementType <;> simp_all
    rw [ArmPLOp.verify, decide_eq_true hab, decide_eq_true hac, hroutine, decide_eq_true harank,
      decide_eq_true hbrank, decide_eq_true hcrank2]
    rfl

/-- A dot that the pattern converts: the routine that its operation is lowered to leaves the dot
in the accumulator, and the passes call it when neither side of the result is `1`. -/
theorem dotToArmPL_computes_iff (aclOpt : Option String) (op : DotOp R) {armpl : ArmPLOp R}
    (h : matchAndRewrite aclOpt op = some armpl) :
    (∃ out, armpl.lower = some out ∧ op.Computes out) ∧
      ((∃ out, dotToArmPL aclOpt op = some out ∧ op.Computes out) ↔ op.M ≠ 1 ∧ op.N ≠ 1) := by
  refine ⟨lower_computes h, ?_⟩
  rw [← verify_iff h]
  unfold dotToArmPL
  rw [h]
  change (∃ out, (if armpl.verify = true then armpl.lower else none) = some out ∧ _) ↔ _
  constructor
  · rintro ⟨out, hout, -⟩
    by_contra hverify
    rw [if_neg hverify] at hout
    cases hout
  · intro hverify
    rw [if_pos hverify]
    exact lower_computes h

end Dot

/-- A product of `M × 2` and `2 × N` integers with a zero accumulator; the first operand is
transposed. -/
def sampleDot (M N : ℕ) (hM : 0 < M ∧ M ≤ 2) (hN : 0 < N ∧ N ≤ 2) : DotOp ℤ where
  a := .trans [1, 0] (.other ⟨.f32, [2, M], fun idx => idx.getD 0 0 + 3 * idx.getD 1 0⟩)
  b := .other ⟨.f32, [2, N], fun idx => 5 * idx.getD 0 0 + idx.getD 1 0⟩
  c := .constant .f32 [M, N] (.splat 0)
  batch := []
  M := M
  N := N
  K := 2
  a_shape := rfl
  b_shape := rfl
  c_shape := rfl
  M_pos := hM.1
  N_pos := hN.1
  K_pos := Nat.two_pos
  a_size := by simp [Value.tensor]; omega
  b_size := by simp [Value.tensor]; omega
  c_size := by
    have hprod := Nat.mul_le_mul hM.2 hN.2
    simp [Value.tensor]
    omega
  a_verified := ⟨List.Perm.swap 0 1 [], trivial⟩
  b_verified := trivial
  b_type := rfl
  c_type := rfl

theorem dotToArmPL_computes_sample :
    ∃ out, dotToArmPL none (sampleDot 2 2 (by decide) (by decide)) = some out ∧
      (sampleDot 2 2 (by decide) (by decide)).Computes out :=
  (dotToArmPL_computes_iff none (sampleDot 2 2 (by decide) (by decide)) rfl).2.mpr
    ⟨by decide, by decide⟩

/-- A result with one column: the pattern makes a `tts.armpl_gemv` that is refused. -/
theorem column_dot_not_called :
    (matchAndRewrite none (sampleDot 2 1 (by decide) (by decide))).isSome = true ∧
      ¬ ∃ out, dotToArmPL none (sampleDot 2 1 (by decide) (by decide)) = some out ∧
        (sampleDot 2 1 (by decide) (by decide)).Computes out := by
  refine ⟨rfl, ?_⟩
  rintro ⟨out, hout, -⟩
  cases hout

end TritonCpu.ArmPL
