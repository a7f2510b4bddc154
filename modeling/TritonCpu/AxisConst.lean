import TritonCpu.AxisAdd
import TritonCpu.AxisMul
import TritonCpu.AxisDiv
import TritonCpu.AxisSelect
import TritonCpu.AxisCmp

/-!
# Known constants

A known constant is kept in 64 bits: a literal zero-extended, a cast unchanged,
and the result of an operation as the signed host operation leaves it. Its low
bits are those of the value as long as each operation that looks at more than
the low bits of its operands finds there the extension that it assumes.
-/

set_option autoImplicit false

namespace TritonCpu.AxisAnalysis
open PowerOfTwo WordDivision TritonIR

section Stored

variable {w : ℕ}

def SignedStored (w : ℕ) (c : BitVec 64) : Prop := c.toInt = (c.setWidth w).toInt

/-- The stored constant is, as a signed number, the unsigned value. -/
def UnsignedStored (w : ℕ) (c : BitVec 64) : Prop := c.toInt = (c.setWidth w).toNat

def ZeroStored (w : ℕ) (c : BitVec 64) : Prop := c.toNat = (c.setWidth w).toNat

instance (w : ℕ) (c : BitVec 64) : Decidable (SignedStored w c) :=
  inferInstanceAs (Decidable (c.toInt = (c.setWidth w).toInt))

def AmountStored (w : ℕ) (c : BitVec 64) : Prop := c.toNat < 64 ∧ ZeroStored w c

theorem setWidth_intCast (hw : w ≤ 64) (z : ℤ) : (z : BitVec 64).setWidth w = (z : BitVec w) := by
  apply BitVec.eq_of_toNat_eq
  show ((BitVec.ofInt 64 z).setWidth w).toNat = (BitVec.ofInt w z).toNat
  have hdvd : ((2 ^ w : ℕ) : ℤ) ∣ ((2 ^ 64 : ℕ) : ℤ) :=
    Int.natCast_dvd_natCast.mpr (Nat.pow_dvd_pow 2 hw)
  have hpos : ∀ k : ℕ, (0 : ℤ) ≤ z % ((2 ^ k : ℕ) : ℤ) := fun k =>
    Int.emod_nonneg z (by exact_mod_cast (Nat.two_pow_pos k).ne')
  rw [BitVec.toNat_setWidth, BitVec.toNat_ofInt, BitVec.toNat_ofInt]
  apply Int.ofNat.inj
  show (((z % ((2 ^ 64 : ℕ) : ℤ)).toNat % 2 ^ w : ℕ) : ℤ) = ((z % ((2 ^ w : ℕ) : ℤ)).toNat : ℤ)
  rw [Int.natCast_mod, Int.toNat_of_nonneg (hpos 64), Int.toNat_of_nonneg (hpos w)]
  exact Int.emod_emod_of_dvd z hdvd

theorem natCast_toNat (x : BitVec w) : (((x.toNat : ℕ) : ℤ) : BitVec w) = x := by
  rw [Int.cast_natCast]
  simp

theorem setWidth_of_toInt (hw : w ≤ 64) {v : BitVec 64} {x : BitVec w} {z : ℤ}
    (hv : v = (z : BitVec 64)) (hx : x = (z : BitVec w)) : v.setWidth w = x := by
  rw [hv, hx, setWidth_intCast hw]

theorem udiv_eq_intCast (x y : BitVec w) :
    x / y = (((x.toNat : ℤ).tdiv (y.toNat : ℤ) : ℤ) : BitVec w) := by
  rw [← Int.ofNat_tdiv, ← BitVec.toNat_udiv, natCast_toNat]

theorem umod_eq_intCast (x y : BitVec w) :
    x % y = (((x.toNat : ℤ).tmod (y.toNat : ℤ) : ℤ) : BitVec w) := by
  rw [← Int.ofNat_tmod, ← BitVec.toNat_umod, natCast_toNat]

theorem sshiftRight_eq_intCast (x : BitVec w) (s : ℕ) :
    x.sshiftRight s = ((x.toInt >>> s : ℤ) : BitVec w) := by
  rw [← BitVec.toInt_sshiftRight]
  exact BitVec.ofInt_toInt.symm

theorem ushiftRight_eq_intCast (x : BitVec w) (s : ℕ) :
    x >>> s = (((x.toNat : ℤ) >>> s : ℤ) : BitVec w) := by
  have hcast : ((x.toNat : ℤ) >>> s) = ((x.toNat >>> s : ℕ) : ℤ) := rfl
  rw [hcast, ← BitVec.toNat_ushiftRight, natCast_toNat]

end Stored

/-- The operations of two integers of one width. -/
inductive ConstOp where
  | addi
  | subi
  | mulShift (op : MulShiftOp)
  | divRem (op : DivRemOp)
  | logical (op : LogicalOp)
  | maxMin (op : MaxMinOp)
  deriving DecidableEq, Repr

def LogicalOp.apply {w : ℕ} : LogicalOp → BitVec w → BitVec w → BitVec w
  | .andi, x, y => x &&& y
  | .ori, x, y => x ||| y
  | .xori, x, y => x ^^^ y

namespace ConstOp

def apply {w : ℕ} : ConstOp → BitVec w → BitVec w → BitVec w
  | .addi => AddSubOp.addi.apply
  | .subi => AddSubOp.subi.apply
  | .mulShift op => op.apply
  | .divRem op => op.apply
  | .logical op => op.apply
  | .maxMin op => op.apply

def getAxisInfo {rank : ℕ} (op : ConstOp) (resTy : Option (Shape rank)) (lhs rhs : AxisInfo rank) :
    Option (AxisInfo rank) :=
  match op with
  | .addi => some (AddSubOp.addi.visitor.getAxisInfo lhs rhs)
  | .subi => some (AddSubOp.subi.visitor.getAxisInfo lhs rhs)
  | .mulShift op => op.getAxisInfo lhs rhs
  | .divRem op => op.getAxisInfo resTy lhs rhs
  | .logical op => some (op.visitor.getAxisInfo lhs rhs)
  | .maxMin op => some (maxMinAxisInfo op lhs rhs)

def fold : ConstOp → BitVec 64 → BitVec 64 → BitVec 64
  | .addi, l, r => l + r
  | .subi, l, r => l - r
  | .mulShift .muli, l, r => l * r
  | .mulShift .shli, l, r => l <<< r.toNat
  | .mulShift .shrui, l, r | .mulShift .shrsi, l, r => l.sshiftRight r.toNat
  | .divRem .divsi, l, r | .divRem .divui, l, r => l.sdiv r
  | .divRem .remsi, l, r | .divRem .remui, l, r => l.srem r
  | .logical op, l, r => op.fold l r
  | .maxMin op, l, r => op.fold l r

/-- The operation finds the extension of its operands that the host operation
assumes, and that operation is defined. -/
def Reads (op : ConstOp) (w : ℕ) (l r : BitVec 64) : Prop :=
  match op with
  | .addi | .subi | .mulShift .muli | .logical _ => True
  | .mulShift .shli => AmountStored w r
  | .mulShift .shrui => UnsignedStored w l ∧ AmountStored w r
  | .mulShift .shrsi => SignedStored w l ∧ AmountStored w r
  | .divRem .divsi | .divRem .remsi =>
    SignedStored w l ∧ SignedStored w r ∧ r ≠ 0 ∧ ¬ (l = intMin ∧ r = -1)
  | .divRem .divui | .divRem .remui => UnsignedStored w l ∧ UnsignedStored w r ∧ r ≠ 0
  | .maxMin .maxsi | .maxMin .minsi => SignedStored w l ∧ SignedStored w r
  | .maxMin .maxui | .maxMin .minui => UnsignedStored w l ∧ UnsignedStored w r

variable {w : ℕ} {l r : BitVec 64}

theorem slt_of_signed (hl : SignedStored w l) (hr : SignedStored w r) :
    l.slt r = (l.setWidth w).slt (r.setWidth w) := by
  unfold SignedStored at hl hr
  rw [BitVec.slt_eq_decide, BitVec.slt_eq_decide, hl, hr]

theorem slt_of_unsigned (hl : UnsignedStored w l) (hr : UnsignedStored w r) :
    l.slt r = (l.setWidth w).ult (r.setWidth w) := by
  unfold UnsignedStored at hl hr
  rw [BitVec.slt_eq_decide, hl, hr, BitVec.ult, decide_eq_decide]
  exact Int.ofNat_lt

/-- `std::min` takes the first operand unless the second is smaller, the
operation the second unless the first is smaller. -/
theorem min_comm_of_injective {v : BitVec w → ℤ} (hv : ∀ x y, v x = v y → x = y) (x y : BitVec w) :
    (if v y < v x then y else x) = if v x < v y then x else y := by
  rcases Int.lt_trichotomy (v x) (v y) with h | h | h
  · rw [if_neg (Int.not_lt.mpr (Int.le_of_lt h)), if_pos h]
  · rw [if_neg (by omega), if_neg (by omega), hv x y h]
  · rw [if_pos h, if_neg (Int.not_lt.mpr (Int.le_of_lt h))]

theorem fold_setWidth (hw : w ≤ 64) (op : ConstOp) (h : op.Reads w l r) :
    (op.fold l r).setWidth w = op.apply (l.setWidth w) (r.setWidth w) := by
  match op with
  | .addi => exact BitVec.setWidth_add l r hw
  | .subi =>
    show (l - r).setWidth w = l.setWidth w - r.setWidth w
    rw [BitVec.sub_eq_add_neg l r, BitVec.setWidth_add _ _ hw, BitVec.setWidth_neg_of_le hw]
    exact (BitVec.sub_eq_add_neg _ _).symm
  | .mulShift .muli => exact BitVec.setWidth_mul l r hw
  | .mulShift .shli =>
    show (l <<< r.toNat).setWidth w = l.setWidth w <<< (r.setWidth w).toNat
    rw [setWidth_shiftLeft hw, h.2.symm]
  | .mulShift .shrui =>
    obtain ⟨hl, -, hr⟩ := h
    show (l.sshiftRight r.toNat).setWidth w = l.setWidth w >>> (r.setWidth w).toNat
    rw [← hr]
    apply setWidth_of_toInt hw (sshiftRight_eq_intCast l _)
    rw [ushiftRight_eq_intCast, show l.toInt = _ from hl]
  | .mulShift .shrsi =>
    obtain ⟨hl, -, hr⟩ := h
    show (l.sshiftRight r.toNat).setWidth w = (l.setWidth w).sshiftRight (r.setWidth w).toNat
    rw [← hr]
    apply setWidth_of_toInt hw (sshiftRight_eq_intCast l _)
    rw [sshiftRight_eq_intCast, show l.toInt = _ from hl]
  | .divRem .divsi =>
    obtain ⟨hl, hr, -⟩ := h
    apply setWidth_of_toInt hw (sdiv_eq_intCast l r)
    rw [show l.toInt = _ from hl, show r.toInt = _ from hr]
    exact sdiv_eq_intCast _ _
  | .divRem .remsi =>
    obtain ⟨hl, hr, -⟩ := h
    apply setWidth_of_toInt hw (srem_eq_intCast l r)
    rw [show l.toInt = _ from hl, show r.toInt = _ from hr]
    exact srem_eq_intCast _ _
  | .divRem .divui =>
    obtain ⟨hl, hr, -⟩ := h
    apply setWidth_of_toInt hw (sdiv_eq_intCast l r)
    rw [show l.toInt = _ from hl, show r.toInt = _ from hr]
    exact udiv_eq_intCast _ _
  | .divRem .remui =>
    obtain ⟨hl, hr, -⟩ := h
    apply setWidth_of_toInt hw (srem_eq_intCast l r)
    rw [show l.toInt = _ from hl, show r.toInt = _ from hr]
    exact umod_eq_intCast _ _
  | .logical .andi => exact BitVec.setWidth_and
  | .logical .ori => exact BitVec.setWidth_or
  | .logical .xori => exact BitVec.setWidth_xor
  | .maxMin .maxsi =>
    show (if l.slt r then r else l).setWidth w = _
    rw [slt_of_signed h.1 h.2]
    exact apply_ite (BitVec.setWidth w) _ _ _
  | .maxMin .maxui =>
    show (if l.slt r then r else l).setWidth w = _
    rw [slt_of_unsigned h.1 h.2]
    exact apply_ite (BitVec.setWidth w) _ _ _
  | .maxMin .minsi =>
    show (if r.slt l then r else l).setWidth w =
      if (l.setWidth w).slt (r.setWidth w) then l.setWidth w else r.setWidth w
    rw [slt_of_signed h.2 h.1, apply_ite (BitVec.setWidth w), BitVec.slt_eq_decide,
      BitVec.slt_eq_decide]
    simp only [decide_eq_true_eq]
    exact min_comm_of_injective (fun _ _ => BitVec.eq_of_toInt_eq) _ _
  | .maxMin .minui =>
    show (if r.slt l then r else l).setWidth w =
      if (l.setWidth w).ult (r.setWidth w) then l.setWidth w else r.setWidth w
    have hult : ∀ x y : BitVec w, x.ult y = decide ((x.toNat : ℤ) < y.toNat) := fun x y => by
      rw [BitVec.ult, decide_eq_decide]
      exact Int.ofNat_lt.symm
    rw [slt_of_unsigned h.2 h.1, apply_ite (BitVec.setWidth w), hult, hult]
    simp only [decide_eq_true_eq]
    exact min_comm_of_injective (fun _ _ heq => BitVec.eq_of_toNat_eq (Int.ofNat.inj heq)) _ _

theorem divisionDefined_of_reads {rank : ℕ} {lhs rhs : AxisInfo rank} {op : DivRemOp}
    (hl : lhs.constantValue = some l) (hr : rhs.constantValue = some r)
    (h : (ConstOp.divRem op).Reads w l r) : divisionDefined lhs rhs = true := by
  have hcond : r ≠ 0 ∧ ¬ (l = intMin ∧ r = -1) := by
    have hunsigned : UnsignedStored w l → ¬ (l = intMin ∧ r = -1) := by
      rintro hu ⟨rfl, -⟩
      have hmin : intMin.toInt < 0 := by decide
      rw [show intMin.toInt = _ from hu] at hmin
      omega
    cases op with
    | divsi => exact h.2.2
    | remsi => exact h.2.2
    | divui => exact ⟨h.2.2, hunsigned h.1⟩
    | remui => exact ⟨h.2.2, hunsigned h.1⟩
  rw [divisionDefined, hl, hr]
  exact decide_eq_true hcond

theorem getAxisInfo_constants {rank : ℕ} (resTy : Option (Shape rank)) {lhs rhs : AxisInfo rank}
    (op : ConstOp) (hl : lhs.constantValue = some l) (hr : rhs.constantValue = some r)
    (h : op.Reads w l r) :
    ∃ info, op.getAxisInfo resTy lhs rhs = some info ∧ info.constantValue = some (op.fold l r) := by
  have hvisitor : ∀ (visitor : BinaryOpVisitorImpl rank) {v : BitVec 64},
      visitor.getConstantValue lhs rhs = some v →
      (visitor.getAxisInfo lhs rhs).constantValue = some v := by
    intro visitor v hv
    rw [getAxisInfo_known hv]
  have hfold : ∀ f, foldConstants f lhs rhs = some (f l r) := fun f => foldConstants_of_some hl hr
  have hshr : r.toNat < 64 →
      shRAxisInfo lhs rhs = some (shRVisitor.getAxisInfo lhs rhs) := by
    intro hlt
    unfold shRAxisInfo
    rw [hl, hr]
    exact if_pos hlt
  have hrem : ∀ resTy : Option (Shape rank),
      (remVisitor resTy).getConstantValue lhs rhs = some (l.srem r) := fun resTy => by
    simp [remVisitor, hl, hr]
  cases op with
  | addi => exact ⟨_, rfl, hvisitor _ (hfold (· + ·))⟩
  | subi => exact ⟨_, rfl, hvisitor _ (hfold (· - ·))⟩
  | mulShift op =>
    cases op with
    | muli => exact ⟨_, rfl, hvisitor mulIVisitor (hfold (· * ·))⟩
    | shli =>
      refine ⟨_, if_pos ?_, hvisitor shLIVisitor (hfold fun l r => l <<< r.toNat)⟩
      rw [hr]
      exact h.1
    | shrui | shrsi =>
      exact ⟨_, hshr h.2.1, hvisitor shRVisitor (hfold fun l r => l.sshiftRight r.toNat)⟩
  | divRem op =>
    cases op with
    | divsi | divui =>
      exact ⟨_, if_pos (divisionDefined_of_reads hl hr h), hvisitor _ (hfold BitVec.sdiv)⟩
    | remsi | remui =>
      exact ⟨_, if_pos (divisionDefined_of_reads hl hr h), hvisitor _ (hrem _)⟩
  | logical op => exact ⟨_, rfl, hvisitor op.visitor (hfold op.fold)⟩
  | maxMin op =>
    refine ⟨_, rfl, ?_⟩
    unfold maxMinAxisInfo
    rw [hfold op.fold]
    rfl

end ConstOp

/-- A chain of operations on constants, of the widths 1 to 64. -/
inductive ConstExpr : ℕ → Type where
  | constant {w : ℕ} (hw : 0 < w ∧ w ≤ 64) (value : BitVec w) : ConstExpr w
  | extsi {v w : ℕ} (hv : v < w) (hw : w ≤ 64) (src : ConstExpr v) : ConstExpr w
  | extui {v w : ℕ} (hv : v < w) (hw : w ≤ 64) (src : ConstExpr v) : ConstExpr w
  | trunci {v w : ℕ} (hw : 0 < w ∧ w < v) (src : ConstExpr v) : ConstExpr w
  | binary {w : ℕ} (op : ConstOp) (lhs rhs : ConstExpr w) : ConstExpr w
  | cmpi {w : ℕ} (predicate : CmpIPredicate) (lhs rhs : ConstExpr w) : ConstExpr 1

def constantAxisInfo {rank w : ℕ} (shape : Option (Shape rank)) (value : BitVec w) :
    AxisInfo rank where
  contiguity := fun _ => 1
  divisibility := fun _ => highestPowOf2Divisor (value.setWidth 64)
  constancy := fun d => match shape with
    | none => 1
    | some shape => shape d
  constantValue := some (value.setWidth 64)

def entryAxisInfo (rank : ℕ) : AxisInfo rank where
  contiguity := fun _ => 1
  divisibility := fun _ => 1
  constancy := fun _ => 1
  constantValue := none

def CmpReads (predicate : CmpIPredicate) (w : ℕ) (l r : BitVec 64) : Prop :=
  match predicate with
  | .eq | .ne => l.setWidth w = r.setWidth w → l = r
  | .slt | .sle | .sgt | .sge => SignedStored w l ∧ SignedStored w r
  | .ult | .ule | .ugt | .uge => ZeroStored w l ∧ ZeroStored w r

theorem compare_eq {w : ℕ} {predicate : CmpIPredicate} {l r : BitVec 64}
    (h : CmpReads predicate w l r) :
    compare predicate l r = cmpi predicate (l.setWidth w) (r.setWidth w) := by
  have heq : (l.setWidth w = r.setWidth w → l = r) → (l = r ↔ l.setWidth w = r.setWidth w) :=
    fun hinj => ⟨congrArg _, hinj⟩
  have hnat : ∀ {a b : BitVec 64}, ZeroStored w a → ZeroStored w b →
      a.ult b = (a.setWidth w).ult (b.setWidth w) ∧
        a.ule b = (a.setWidth w).ule (b.setWidth w) := by
    intro a b ha hb
    unfold ZeroStored at ha hb
    simp only [BitVec.ult, BitVec.ule, ← ha, ← hb]
    exact ⟨trivial, trivial⟩
  have hint : ∀ {a b : BitVec 64}, SignedStored w a → SignedStored w b →
      a.slt b = (a.setWidth w).slt (b.setWidth w) ∧
        a.sle b = (a.setWidth w).sle (b.setWidth w) := by
    intro a b ha hb
    unfold SignedStored at ha hb
    simp only [BitVec.slt_eq_decide, BitVec.sle_eq_decide, ← ha, ← hb]
    exact ⟨trivial, trivial⟩
  cases predicate with
  | eq => exact decide_eq_decide.mpr (heq h)
  | ne => exact decide_eq_decide.mpr (not_congr (heq h))
  | slt => exact (hint h.1 h.2).1
  | sle => exact (hint h.1 h.2).2
  | sgt => exact (hint h.2 h.1).1
  | sge => exact (hint h.2 h.1).2
  | ult => exact (hnat h.1 h.2).1
  | ule => exact (hnat h.1 h.2).2
  | ugt => exact (hnat h.2 h.1).1
  | uge => exact (hnat h.2 h.1).2

namespace ConstExpr

def value : {w : ℕ} → ConstExpr w → BitVec w
  | _, .constant _ value => value
  | w, .extsi _ _ src => src.value.signExtend w
  | w, .extui _ _ src => src.value.setWidth w
  | w, .trunci _ src => src.value.setWidth w
  | _, .binary op lhs rhs => op.apply lhs.value rhs.value
  | _, .cmpi predicate lhs rhs => if TritonCpu.AxisAnalysis.cmpi predicate lhs.value rhs.value then 1 else 0

/-- The visitors along the chain. The casts hand the info of their operand on,
and the comparison of two scalars knows nothing. -/
def axisInfo {rank : ℕ} (shape : Option (Shape rank)) : {w : ℕ} → ConstExpr w → Option (AxisInfo rank)
  | _, .constant _ value => some (constantAxisInfo shape value)
  | _, .extsi _ _ src | _, .extui _ _ src | _, .trunci _ src => src.axisInfo shape
  | _, .binary op lhs rhs => do
    let lhsInfo ← lhs.axisInfo shape
    let rhsInfo ← rhs.axisInfo shape
    op.getAxisInfo shape lhsInfo rhsInfo
  | _, .cmpi predicate lhs rhs => do
    let lhsInfo ← lhs.axisInfo shape
    let rhsInfo ← rhs.axisInfo shape
    match shape with
    | none => some (entryAxisInfo rank)
    | some shape => some (cmpAxisInfo predicate shape lhsInfo rhsInfo)

def stored {rank : ℕ} (shape : Option (Shape rank)) {w : ℕ} (e : ConstExpr w) : Option (BitVec 64) :=
  (e.axisInfo shape).bind (·.constantValue)

/-- Every operation of the chain has known operands and finds the extension of
their values that the visitor assumes. -/
def Meets {rank : ℕ} (shape : Option (Shape rank)) : {w : ℕ} → ConstExpr w → Prop
  | _, .constant _ _ => True
  | w, .extsi (v := v) _ _ src => src.Meets shape ∧ ∃ c, src.stored shape = some c ∧
      ∀ i, v ≤ i → i < w → c.getLsbD i = c.getLsbD (v - 1)
  | w, .extui (v := v) _ _ src => src.Meets shape ∧ ∃ c, src.stored shape = some c ∧
      ∀ i, v ≤ i → i < w → c.getLsbD i = false
  | _, .trunci _ src => src.Meets shape ∧ ∃ c, src.stored shape = some c
  | w, .binary op lhs rhs => lhs.Meets shape ∧ rhs.Meets shape ∧
      ∃ l r, lhs.stored shape = some l ∧ rhs.stored shape = some r ∧ op.Reads w l r
  | _, .cmpi (w := w) predicate lhs rhs => lhs.Meets shape ∧ rhs.Meets shape ∧
      ∃ l r, lhs.stored shape = some l ∧ rhs.stored shape = some r ∧ CmpReads predicate w l r

def isCmpi : {w : ℕ} → ConstExpr w → Bool
  | _, .cmpi _ _ _ => true
  | _, _ => false

theorem width_bounds {w : ℕ} (e : ConstExpr w) : 0 < w ∧ w ≤ 64 := by
  induction e with
  | constant hw _ => exact hw
  | extsi hv hw _ _ => exact ⟨Nat.zero_lt_of_lt hv, hw⟩
  | extui hv hw _ _ => exact ⟨Nat.zero_lt_of_lt hv, hw⟩
  | trunci hw _ ih => exact ⟨hw.1, Nat.le_trans (Nat.le_of_lt hw.2) ih.2⟩
  | binary _ _ _ ih _ => exact ih
  | cmpi _ _ _ _ _ => decide

variable {rank : ℕ} {shape : Option (Shape rank)}

theorem stored_eq {w : ℕ} {e : ConstExpr w} {c : BitVec 64} (h : e.stored shape = some c) :
    ∃ info, e.axisInfo shape = some info ∧ info.constantValue = some c :=
  Option.bind_eq_some_iff.mp h

theorem setWidth_signExtend {v w : ℕ} {c : BitVec 64} (hv : 0 < v)
    (h : ∀ i, v ≤ i → i < w → c.getLsbD i = c.getLsbD (v - 1)) :
    c.setWidth w = (c.setWidth v).signExtend w := by
  apply BitVec.eq_of_getLsbD_eq
  intro i hi
  rw [BitVec.getLsbD_setWidth, BitVec.getLsbD_signExtend, BitVec.msb_eq_getLsbD_last,
    BitVec.getLsbD_setWidth, BitVec.getLsbD_setWidth]
  by_cases hiv : i < v
  · simp [hi, hiv]
  · rw [if_neg hiv, h i (Nat.le_of_not_lt hiv) hi]
    have hv1 : v - 1 < v := Nat.sub_lt hv (by decide)
    simp [hi, hv1]

theorem setWidth_zeroExtend {v w : ℕ} {c : BitVec 64}
    (h : ∀ i, v ≤ i → i < w → c.getLsbD i = false) :
    c.setWidth w = (c.setWidth v).setWidth w := by
  apply BitVec.eq_of_getLsbD_eq
  intro i hi
  rw [BitVec.getLsbD_setWidth, BitVec.getLsbD_setWidth, BitVec.getLsbD_setWidth]
  by_cases hiv : i < v
  · simp [hi, hiv]
  · rw [h i (Nat.le_of_not_lt hiv) hi]
    simp

theorem cmpi_stored {w : ℕ} (predicate : CmpIPredicate) {lhs rhs : ConstExpr w} {l r : BitVec 64}
    (hl : lhs.stored shape = some l) (hr : rhs.stored shape = some r) :
    (ConstExpr.cmpi predicate lhs rhs).stored shape = if shape.isSome = true ∧ 0 < rank then
      some (if compare predicate l r then 1 else 0) else none := by
  obtain ⟨lhsInfo, hlinfo, hlc⟩ := stored_eq hl
  obtain ⟨rhsInfo, hrinfo, hrc⟩ := stored_eq hr
  rw [stored, axisInfo, hlinfo, hrinfo]
  cases shape with
  | none => rfl
  | some s =>
    show (cmpAxisInfo predicate s lhsInfo rhsInfo).constantValue = _
    unfold cmpAxisInfo
    rw [hlc, hrc]
    rcases Nat.eq_zero_or_pos rank with h | h
    · rw [if_neg (by omega)]
      exact if_pos h
    · rw [if_pos ⟨rfl, h⟩]
      exact if_neg (by omega)

end ConstExpr

/-- Along every chain whose operations meet the condition, and so at each of its
operations, the visitors compute a constant, unless it is a comparison of
scalars, and its low bits are the value. -/
theorem constants_denote {rank : ℕ} (shape : Option (Shape rank)) {w : ℕ} (e : ConstExpr w)
    (h : e.Meets shape) :
    (∀ c, e.stored shape = some c → c.setWidth w = e.value) ∧
      ((e.isCmpi = true → shape.isSome = true ∧ 0 < rank) → (e.stored shape).isSome = true) := by
  induction e with
  | constant hw value =>
    constructor
    · intro c hc
      cases hc
      exact BitVec.setWidth_setWidth_of_le value hw.2 ▸ BitVec.setWidth_eq value
    · intro _
      rfl
  | @extsi v w hv hw src ih =>
    obtain ⟨hsrc, c, hc, hbits⟩ := h
    have hden := (ih hsrc).1 c hc
    have hstored : (ConstExpr.extsi hv hw src).stored shape = some c := hc
    rw [hstored]
    constructor
    · intro c' hc'
      cases hc'
      rw [ConstExpr.setWidth_signExtend src.width_bounds.1 hbits, hden]
      rfl
    · intro _
      rfl
  | @extui v w hv hw src ih =>
    obtain ⟨hsrc, c, hc, hbits⟩ := h
    have hden := (ih hsrc).1 c hc
    have hstored : (ConstExpr.extui hv hw src).stored shape = some c := hc
    rw [hstored]
    constructor
    · intro c' hc'
      cases hc'
      rw [ConstExpr.setWidth_zeroExtend hbits, hden]
      rfl
    · intro _
      rfl
  | @trunci v w hw src ih =>
    obtain ⟨hsrc, c, hc⟩ := h
    have hden := (ih hsrc).1 c hc
    have hstored : (ConstExpr.trunci hw src).stored shape = some c := hc
    rw [hstored]
    constructor
    · intro c' hc'
      cases hc'
      show c.setWidth w = src.value.setWidth w
      rw [← hden, BitVec.setWidth_setWidth_of_le c (Nat.le_of_lt hw.2)]
    · intro _
      rfl
  | @binary w op lhs rhs ihl ihr =>
    obtain ⟨hlhs, hrhs, l, r, hl, hr, hreads⟩ := h
    obtain ⟨lhsInfo, hlinfo, hlc⟩ := ConstExpr.stored_eq hl
    obtain ⟨rhsInfo, hrinfo, hrc⟩ := ConstExpr.stored_eq hr
    obtain ⟨info, hinfo, hc⟩ := op.getAxisInfo_constants shape hlc hrc hreads
    have haxis : (ConstExpr.binary op lhs rhs).axisInfo shape = some info := by
      simp only [ConstExpr.axisInfo, hlinfo, hrinfo, Option.bind_eq_bind, Option.bind_some, hinfo]
    have hstored : (ConstExpr.binary op lhs rhs).stored shape = some (op.fold l r) := by
      rw [ConstExpr.stored, haxis]
      exact hc
    rw [hstored]
    constructor
    · intro c' hc'
      cases hc'
      rw [op.fold_setWidth lhs.width_bounds.2 hreads, (ihl hlhs).1 l hl, (ihr hrhs).1 r hr]
      rfl
    · intro _
      rfl
  | @cmpi w predicate lhs rhs ihl ihr =>
    obtain ⟨hlhs, hrhs, l, r, hl, hr, hreads⟩ := h
    have hvalue : (ConstExpr.cmpi predicate lhs rhs).value =
        if compare predicate l r then (1 : BitVec 1) else 0 := by
      rw [compare_eq hreads, (ihl hlhs).1 l hl, (ihr hrhs).1 r hr]
      rfl
    rw [ConstExpr.cmpi_stored predicate hl hr, hvalue]
    constructor
    · intro c hc
      split_ifs at hc with hknown hcmp
      · cases hc
        rw [if_pos hcmp]
        rfl
      · cases hc
        rw [if_neg hcmp]
        rfl
    · intro hknown
      rw [if_pos (hknown rfl)]
      rfl

/-- `12 / 5 < 3` in tensors of `i32`. -/
theorem constants_denote_quotient :
    let e : ConstExpr 1 := .cmpi .slt (.binary (.divRem .divsi)
      (.constant (by decide) (12 : BitVec 32)) (.constant (by decide) (5 : BitVec 32)))
      (.constant (by decide) (3 : BitVec 32))
    (∀ c, e.stored (some fun _ : Fin 1 => .ofExponent 2) = some c → c.setWidth 1 = e.value) ∧
      ((e.isCmpi = true → (some fun _ : Fin 1 => Pow2.ofExponent 2).isSome = true ∧ 0 < 1) →
        (e.stored (some fun _ : Fin 1 => .ofExponent 2)).isSome = true) :=
  constants_denote (some fun _ : Fin 1 => .ofExponent 2) _
    ⟨⟨trivial, trivial, 12, 5, rfl, rfl, by decide, by decide, by decide, by decide⟩, trivial,
      2, 3, by decide, rfl, by decide, by decide⟩

/-- The literal -1 of `i8` is stored as 255, and so is its sign extension to
`i32`. -8 divided by 4 in `i32` is stored as 1073741822. -1 is not below 0. -/
theorem constants_wrong :
    let minusOne : ConstExpr 8 := .constant (by decide) (-1)
    let extended : ConstExpr 32 := .extsi (by decide) (by decide) minusOne
    let quotient : ConstExpr 32 := .binary (.divRem .divsi) (.constant (by decide) (-8))
      (.constant (by decide) 4)
    let below : ConstExpr 1 := .cmpi .slt minusOne (.constant (by decide) 0)
    let shape : Option (Shape 1) := some fun _ => .ofExponent 2
    (extended.stored shape = some 255 ∧ (255 : BitVec 64).setWidth 32 ≠ extended.value) ∧
      (quotient.stored shape = some 1073741822 ∧
        (1073741822 : BitVec 64).setWidth 32 ≠ quotient.value) ∧
      below.stored shape = some 0 ∧ (0 : BitVec 64).setWidth 1 ≠ below.value := by
  decide

end TritonCpu.AxisAnalysis
