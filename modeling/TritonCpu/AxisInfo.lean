import TritonCpu.PowerOfTwo
import TritonCpu.AlignedGroups
import TritonCpu.TritonIR

/-!
# Axis info

What the analysis knows of a tensor along each dimension, and the visitors that
compute it for the result of an operation. The entries are powers of two; a
known constant is an `int64_t`. Where the source's own arithmetic is undefined
(a shift by too much, a division by zero) a visitor returns nothing.
-/

set_option autoImplicit false

namespace TritonCpu.AxisAnalysis
open PowerOfTwo TritonIR

/-- The sizes of a tensor: a tensor has a power of two of elements. -/
abbrev Shape (rank : ℕ) := Fin rank → Pow2

structure AxisInfo (rank : ℕ) where
  contiguity : Fin rank → Pow2
  divisibility : Fin rank → Pow2
  constancy : Fin rank → Pow2
  constantValue : Option (BitVec 64)

def gcdImpl (a b : ℕ) : ℕ := if a = 0 then b else gcdImpl (b % a) a
termination_by a
decreasing_by exact Nat.mod_lt b (Nat.pos_of_ne_zero ‹_›)

theorem gcdImpl_eq (a b : ℕ) : gcdImpl a b = Nat.gcd a b := by
  induction a, b using gcdImpl.induct with
  | case1 b =>
    rw [gcdImpl, if_pos rfl, Nat.gcd_zero_left]
  | case2 a b h ih =>
    rw [gcdImpl, if_neg h, ih]
    exact (Nat.gcd_rec a b).symm

def gcd (a b : Pow2) : Pow2 where
  val := gcdImpl a.val b.val
  isPow := by
    rw [gcdImpl_eq]
    exact (Pow2.gcd a b).isPow

theorem gcd_dvd_left (a b : Pow2) : (gcd a b).val ∣ a.val := by
  show gcdImpl a.val b.val ∣ a.val
  rw [gcdImpl_eq]
  exact Nat.gcd_dvd_left _ _

theorem gcd_dvd_right (a b : Pow2) : (gcd a b).val ∣ b.val := by
  show gcdImpl a.val b.val ∣ b.val
  rw [gcdImpl_eq]
  exact Nat.gcd_dvd_right _ _

def maxDivisor : Pow2 := .ofExponent 62

def intMin : BitVec 64 := BitVec.intMin 64

def lowestSetBit (n : BitVec 64) : BitVec 64 := n &&& ~~~(n - 1)

theorem getLsbD_lowestSetBit (n : BitVec 64) (i : ℕ) : (lowestSetBit n).getLsbD i =
    (n.getLsbD i && !decide (∃ j < i, n.getLsbD j = true)) := by
  have hneg : ~~~(n - 1) = -n := by bv_omega
  rw [lowestSetBit, hneg, BitVec.getLsbD_and, BitVec.getLsbD_neg]
  by_cases hi : i < 64
  · cases n.getLsbD i <;> simp [hi]
  · simp [BitVec.getLsbD_of_ge n i (Nat.le_of_not_lt hi)]

theorem lowestSetBit_eq {n : BitVec 64} (h : n ≠ 0) :
    ∃ k, (lowestSetBit n).toNat = 2 ^ k ∧ 2 ^ k ∣ n.toNat := by
  have hset : ∃ k, n.getLsbD k = true := by
    by_contra hnone
    apply h
    apply BitVec.eq_of_getLsbD_eq
    intro i _
    show n.getLsbD i = (0#64).getLsbD i
    rw [BitVec.getLsbD_zero]
    by_contra hi
    exact hnone ⟨i, by simpa using hi⟩
  refine ⟨Nat.find hset, ?_, ?_⟩
  · have hlt : Nat.find hset < 64 := BitVec.lt_of_getLsbD (Nat.find_spec hset)
    have htwo : lowestSetBit n = BitVec.twoPow 64 (Nat.find hset) := by
      apply BitVec.eq_of_getLsbD_eq
      intro i hi
      rw [getLsbD_lowestSetBit, BitVec.getLsbD_twoPow]
      rcases Nat.lt_trichotomy i (Nat.find hset) with hlow | heq | hhigh
      · have hbit : n.getLsbD i = false := by simpa using Nat.find_min hset hlow
        have hne : Nat.find hset ≠ i := Nat.ne_of_gt hlow
        simp [hbit, hne]
      · subst heq
        have hno : decide (∃ j < Nat.find hset, n.getLsbD j = true) = false := by
          rw [decide_eq_false_iff_not]
          rintro ⟨j, hj, hbit⟩
          exact Nat.find_min hset hj hbit
        rw [hno, Nat.find_spec hset]
        simpa using hlt
      · have hyes : ∃ j < i, n.getLsbD j = true := ⟨_, hhigh, Nat.find_spec hset⟩
        have hne : Nat.find hset ≠ i := Nat.ne_of_lt hhigh
        simp [hyes, hne]
    rw [htwo, BitVec.toNat_twoPow, Nat.mod_eq_of_lt (Nat.pow_lt_pow_right (by decide) hlt)]
  · apply (multiple_ofExponent_iff _ n).mpr
    intro j hj
    simpa using Nat.find_min hset hj

/-- The highest power of two that divides a number; the largest divisor for 0
and for the least number, whose own is out of range. -/
def highestPowOf2Divisor (n : BitVec 64) : Pow2 :=
  if h : n = 0 ∨ n = intMin then maxDivisor
  else ⟨(lowestSetBit n).toNat, by
    obtain ⟨k, hk, -⟩ := lowestSetBit_eq (fun h0 => h (Or.inl h0))
    exact ⟨k, hk⟩⟩

def multiplyDivisor (lhs rhs : Pow2) : Pow2 :=
  if lhs.val > maxDivisor.val / rhs.val then maxDivisor else lhs.mul rhs

def isContiguousDim {rank : ℕ} (info : AxisInfo rank) (shape : Shape rank) (dim : Fin rank) : Bool :=
  info.contiguity dim = shape dim

def isConstantDim {rank : ℕ} (info : AxisInfo rank) (shape : Shape rank) (dim : Fin rank) : Bool :=
  info.constancy dim = shape dim

/-- What a visitor of a binary operation overrides. -/
structure BinaryOpVisitorImpl (rank : ℕ) where
  getContiguity : AxisInfo rank → AxisInfo rank → Fin rank → Pow2 := fun _ _ _ => 1
  getDivisibility : AxisInfo rank → AxisInfo rank → Fin rank → Pow2 := fun _ _ _ => 1
  getConstancy : AxisInfo rank → AxisInfo rank → Fin rank → Pow2 := fun _ _ _ => 1
  getConstantValue : AxisInfo rank → AxisInfo rank → Option (BitVec 64) := fun _ _ => none

def BinaryOpVisitorImpl.getAxisInfo {rank : ℕ} (visitor : BinaryOpVisitorImpl rank)
    (lhs rhs : AxisInfo rank) : AxisInfo rank :=
  match visitor.getConstantValue lhs rhs with
  | some value =>
    { contiguity := fun _ => 1
      divisibility := fun _ => highestPowOf2Divisor value
      constancy := fun d => Pow2.max (lhs.constancy d) (rhs.constancy d)
      constantValue := some value }
  | none =>
    { contiguity := visitor.getContiguity lhs rhs
      divisibility := visitor.getDivisibility lhs rhs
      constancy := visitor.getConstancy lhs rhs
      constantValue := none }

def foldConstants {rank : ℕ} (op : BitVec 64 → BitVec 64 → BitVec 64) (lhs rhs : AxisInfo rank) :
    Option (BitVec 64) :=
  match lhs.constantValue, rhs.constantValue with
  | some l, some r => some (op l r)
  | _, _ => none

section Visitors

variable {rank : ℕ}

/-- The element types a pointer can point to. -/
inductive PointeeType where
  | i1 | i4 | i8 | i16 | i32 | i64
  | f8E4M3FN | f8E4M3FNUZ | f8E5M2 | f16 | bf16 | f32 | f64
  deriving DecidableEq, Repr

def PointeeType.getIntOrFloatBitWidth : PointeeType → ℕ
  | .i1 => 1
  | .i4 => 4
  | .i8 | .f8E4M3FN | .f8E4M3FNUZ | .f8E5M2 => 8
  | .i16 | .f16 | .bf16 => 16
  | .i32 | .f32 => 32
  | .i64 | .f64 => 64

def PointeeType.elemSize (ty : PointeeType) : Pow2 where
  val := Nat.max 1 (ty.getIntOrFloatBitWidth / 8)
  isPow := by
    cases ty <;> first | exact ⟨0, rfl⟩ | exact ⟨1, rfl⟩ | exact ⟨2, rfl⟩ | exact ⟨3, rfl⟩

/-- `llvm.add` is visited like `arith.addi`. -/
inductive AddSubOp where
  | addi
  | subi
  | addptr (pointee : PointeeType)
  deriving DecidableEq, Repr

def AddSubOp.getConstantValue : AddSubOp → AxisInfo rank → AxisInfo rank → Option (BitVec 64)
  | .addi => foldConstants (· + ·)
  | .subi => foldConstants (· - ·)
  | .addptr pointee => foldConstants fun l r => l + r * BitVec.ofNat 64 pointee.elemSize.val

def AddSubOp.getContiguity (op : AddSubOp) (lhs rhs : AxisInfo rank) (dim : Fin rank) : Pow2 :=
  match op with
  | .subi => gcd (lhs.contiguity dim) (rhs.constancy dim)
  | _ => Pow2.max (gcd (lhs.constancy dim) (rhs.contiguity dim))
      (gcd (lhs.contiguity dim) (rhs.constancy dim))

def AddSubOp.getDivisibility (op : AddSubOp) (lhs rhs : AxisInfo rank) (dim : Fin rank) : Pow2 :=
  let rhsDivisibility := match op with
    | .addptr pointee => multiplyDivisor (rhs.divisibility dim) pointee.elemSize
    | _ => rhs.divisibility dim
  gcd (lhs.divisibility dim) rhsDivisibility

def AddSubOp.visitor (op : AddSubOp) : BinaryOpVisitorImpl rank where
  getContiguity := op.getContiguity
  getDivisibility := op.getDivisibility
  getConstancy lhs rhs dim := gcd (lhs.constancy dim) (rhs.constancy dim)
  getConstantValue := op.getConstantValue

/-- A contiguous operand has the divisibility 1 once its groups are gone. -/
def dropDivisibility (info : AxisInfo rank) (keep : Bool) (dim : Fin rank) : Pow2 :=
  if (info.contiguity dim).val > 1 ∧ keep = false then 1 else info.divisibility dim

def isKnown (info : AxisInfo rank) (value : BitVec 64) : Bool := info.constantValue = some value

def mulIVisitor : BinaryOpVisitorImpl rank where
  getContiguity lhs rhs dim :=
    let lhsContiguity := if isKnown rhs 1 then lhs.contiguity dim else 1
    let rhsContiguity := if isKnown lhs 1 then rhs.contiguity dim else 1
    Pow2.max lhsContiguity rhsContiguity
  getConstancy lhs rhs dim := gcd (lhs.constancy dim) (rhs.constancy dim)
  getDivisibility lhs rhs dim :=
    multiplyDivisor (dropDivisibility lhs (isKnown rhs 1) dim) (dropDivisibility rhs (isKnown lhs 1) dim)
  getConstantValue := foldConstants (· * ·)

def shLIVisitor : BinaryOpVisitorImpl rank where
  getContiguity lhs rhs dim := if isKnown rhs 0 then lhs.contiguity dim else 1
  getDivisibility lhs rhs dim :=
    let shift := rhs.constantValue.getD 0
    multiplyDivisor (dropDivisibility lhs (shift = 0) dim) (.ofExponent shift.toNat)
  getConstancy lhs rhs dim := gcd (lhs.constancy dim) (rhs.constancy dim)
  getConstantValue := foldConstants fun l r => l <<< r.toNat

/-- The shift of a 64-bit host integer by the known amount is defined. -/
def shLIAxisInfo (lhs rhs : AxisInfo rank) : Option (AxisInfo rank) :=
  if (rhs.constantValue.getD 0).toNat < 64 then some (shLIVisitor.getAxisInfo lhs rhs) else none

/-- `1 << 31` is negative, which leaves the divisibility 1. -/
def shRVisitor : BinaryOpVisitorImpl rank where
  getContiguity lhs rhs dim := if isKnown rhs 0 then lhs.contiguity dim else 1
  getDivisibility lhs rhs dim :=
    match rhs.constantValue with
    | none => 1
    | some shift =>
      if shift.toNat < 31 then
        (dropDivisibility lhs (shift = 0) dim).quotient (.ofExponent shift.toNat)
      else 1
  getConstancy lhs rhs dim := gcd (lhs.constancy dim) (rhs.constancy dim)
  getConstantValue := foldConstants fun l r => l.sshiftRight r.toNat

/-- Two known constants are shifted as 64-bit integers. Otherwise the known
amount shifts the `int` 1, once for every dimension. -/
def shRAxisInfo (lhs rhs : AxisInfo rank) : Option (AxisInfo rank) :=
  let bound := if lhs.constantValue.isSome ∨ rank = 0 then 64 else 32
  if (rhs.constantValue.getD 0).toNat < bound then some (shRVisitor.getAxisInfo lhs rhs) else none

/-- The division of two known constants as signed 64-bit integers is defined. -/
def divisionDefined (lhs rhs : AxisInfo rank) : Bool :=
  match lhs.constantValue, rhs.constantValue with
  | some l, some r => r ≠ 0 ∧ ¬ (l = intMin ∧ r = -1)
  | _, _ => true

/-- The group length at which a contiguous line meets a constant one. -/
def groupLength (lhs rhs : AxisInfo rank) (dim : Fin rank) : Pow2 :=
  gcd (lhs.contiguity dim) (gcd (lhs.divisibility dim) (rhs.divisibility dim))

/-- `resTy` is the shape of the result, if it is a tensor. -/
def divVisitor (resTy : Option (Shape rank)) : BinaryOpVisitorImpl rank where
  getContiguity lhs rhs dim := if isKnown rhs 1 then lhs.contiguity dim else 1
  getConstancy lhs rhs dim :=
    match resTy with
    | none => 1
    | some shape =>
      let constancy := gcd (lhs.constancy dim) (rhs.constancy dim)
      if isContiguousDim lhs shape dim && isConstantDim rhs shape dim then
        Pow2.max constancy (groupLength lhs rhs dim)
      else constancy
  getDivisibility lhs rhs dim :=
    if isKnown lhs 0 then lhs.divisibility dim
    else if isKnown rhs 1 then lhs.divisibility dim
    else 1
  getConstantValue := foldConstants BitVec.sdiv

def divAxisInfo (resTy : Option (Shape rank)) (lhs rhs : AxisInfo rank) : Option (AxisInfo rank) :=
  if divisionDefined lhs rhs then some ((divVisitor resTy).getAxisInfo lhs rhs) else none

def remVisitor (resTy : Option (Shape rank)) : BinaryOpVisitorImpl rank where
  getContiguity lhs rhs dim :=
    match resTy with
    | none => 1
    | some shape =>
      if isContiguousDim lhs shape dim && isConstantDim rhs shape dim then
        Pow2.max 1 (groupLength lhs rhs dim)
      else 1
  getDivisibility lhs rhs dim := gcd (lhs.divisibility dim) (rhs.divisibility dim)
  getConstancy lhs rhs dim :=
    match resTy with
    | none => 1
    | some shape =>
      if isKnown rhs 1 then shape dim else gcd (lhs.constancy dim) (rhs.constancy dim)
  getConstantValue lhs rhs :=
    match lhs.constantValue, rhs.constantValue with
    | some l, some r => some (l.srem r)
    | _, _ => if isKnown rhs 1 then some 0 else none

def remAxisInfo (resTy : Option (Shape rank)) (lhs rhs : AxisInfo rank) : Option (AxisInfo rank) :=
  if divisionDefined lhs rhs then some ((remVisitor resTy).getAxisInfo lhs rhs) else none

def gtPredicate (predicate : CmpIPredicate) : Bool := predicate = .sgt ∨ predicate = .ugt
def gePredicate (predicate : CmpIPredicate) : Bool := predicate = .sge ∨ predicate = .uge
def ltPredicate (predicate : CmpIPredicate) : Bool := predicate = .slt ∨ predicate = .ult
def lePredicate (predicate : CmpIPredicate) : Bool := predicate = .sle ∨ predicate = .ule

def compare : CmpIPredicate → BitVec 64 → BitVec 64 → Bool
  | .eq, lhs, rhs => lhs = rhs
  | .ne, lhs, rhs => lhs ≠ rhs
  | .slt, lhs, rhs => lhs.slt rhs
  | .sle, lhs, rhs => lhs.sle rhs
  | .sgt, lhs, rhs => rhs.slt lhs
  | .sge, lhs, rhs => rhs.sle lhs
  | .ult, lhs, rhs => lhs.ult rhs
  | .ule, lhs, rhs => lhs.ule rhs
  | .ugt, lhs, rhs => rhs.ult lhs
  | .uge, lhs, rhs => rhs.ule lhs

/-- The groups on which a comparison with unknown constants is constant. -/
def cmpConstHint (predicate : CmpIPredicate) (shape : Shape rank) (lhs rhs : AxisInfo rank)
    (d : Fin rank) : Pow2 :=
  let constHint := gcd (lhs.constancy d) (rhs.constancy d)
  if (gtPredicate predicate || lePredicate predicate) && isConstantDim lhs shape d then
    Pow2.max constHint
      (gcd (rhs.contiguity d) (gcd (lhs.divisibility d) (rhs.divisibility d)))
  else if (ltPredicate predicate || gePredicate predicate) && isConstantDim rhs shape d then
    Pow2.max constHint
      (gcd (lhs.contiguity d) (gcd (lhs.divisibility d) (rhs.divisibility d)))
  else constHint

/-- `AxisInfo()` of a scalar comparison has rank 0, so it is not computed here. -/
def cmpAxisInfo (predicate : CmpIPredicate) (shape : Shape rank) (lhs rhs : AxisInfo rank) :
    AxisInfo rank :=
  match lhs.constantValue, rhs.constantValue with
  | some l, some r =>
    { contiguity := fun _ => 1
      divisibility := fun _ => 1
      constancy := lhs.constancy
      constantValue :=
        if rank = 0 then none else some (if compare predicate l r then 1 else 0) }
  | _, _ =>
    { contiguity := fun _ => 1
      divisibility := fun _ => 1
      constancy := cmpConstHint predicate shape lhs rhs
      constantValue := none }

/-- The condition of a select: one `i1`, or one for each element. -/
def selectAxisInfo (i1Cond : Bool) (condInfo lhs rhs : AxisInfo rank) : AxisInfo rank :=
  match condInfo.constantValue with
  | some cond => if cond = 0 then rhs else lhs
  | none =>
    let condConstancy := condInfo.constancy
    let contiguity := fun d =>
      if i1Cond then Pow2.min (lhs.contiguity d) (rhs.contiguity d)
      else Pow2.min (gcd (lhs.contiguity d) (condConstancy d)) (gcd (rhs.contiguity d) (condConstancy d))
    { contiguity
      divisibility := fun d =>
        if i1Cond then Pow2.min (lhs.divisibility d) (rhs.divisibility d)
        else if contiguity d = lhs.contiguity d ∧ contiguity d = rhs.contiguity d then
          gcd (lhs.divisibility d) (rhs.divisibility d)
        else Pow2.min (gcd (lhs.divisibility d) (contiguity d)) (gcd (rhs.divisibility d) (contiguity d))
      constancy := fun d =>
        if i1Cond then Pow2.min (lhs.constancy d) (rhs.constancy d)
        else Pow2.min (gcd (lhs.constancy d) (condConstancy d)) (gcd (rhs.constancy d) (condConstancy d))
      constantValue :=
        if lhs.constantValue.isSome ∧ lhs.constantValue = rhs.constantValue then lhs.constantValue
        else none }

inductive MaxMinOp where
  | maxsi | maxui | minsi | minui
  deriving DecidableEq, Repr

def MaxMinOp.fold : MaxMinOp → BitVec 64 → BitVec 64 → BitVec 64
  | .maxsi, l, r | .maxui, l, r => if l.slt r then r else l
  | .minsi, l, r | .minui, l, r => if r.slt l then r else l

def maxMinAxisInfo (op : MaxMinOp) (lhs rhs : AxisInfo rank) : AxisInfo rank :=
  match foldConstants op.fold lhs rhs with
  | some value =>
    { contiguity := fun _ => 1
      divisibility := fun _ => 1
      constancy := fun _ => 1
      constantValue := some value }
  | none =>
    { contiguity := fun d => Pow2.min (lhs.contiguity d) (rhs.contiguity d)
      divisibility := fun d => Pow2.min (lhs.divisibility d) (rhs.divisibility d)
      constancy := fun d => Pow2.min (lhs.constancy d) (rhs.constancy d)
      constantValue := none }

inductive LogicalOp where
  | andi | ori | xori
  deriving DecidableEq, Repr

def LogicalOp.fold : LogicalOp → BitVec 64 → BitVec 64 → BitVec 64
  | .andi, l, r => l &&& r
  | .ori, l, r => l ||| r
  | .xori, l, r => l ^^^ r

def LogicalOp.visitor (op : LogicalOp) : BinaryOpVisitorImpl rank where
  getConstancy lhs rhs dim := gcd (lhs.constancy dim) (rhs.constancy dim)
  getConstantValue := foldConstants op.fold

end Visitors

end TritonCpu.AxisAnalysis
