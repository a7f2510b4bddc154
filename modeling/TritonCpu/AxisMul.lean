import TritonCpu.AxisCorrect

/-!
# Products and shifts

The visitor of a product drops the divisibility of a contiguous operand as soon
as the groups of the result shrink. That of a left shift by an unknown amount
keeps it, and that of a right shift computes the divisor in an `int`.
-/

set_option autoImplicit false

namespace TritonCpu.AxisAnalysis
open PowerOfTwo AlignedGroups TritonIR

section Lines

variable {rank w : ℕ} {lhs rhs info : AxisInfo rank} {d : Fin rank} {f g : ℕ → BitVec w} {n p : ℕ}

theorem multiple_dropDivisibility {keep : Bool} (h : IntLine info d f n) (hp : p < n)
    (hkeep : keep = true → (info.contiguity d).val ∣ p) :
    Multiple (dropDivisibility info keep d) (f p) := by
  unfold dropDivisibility
  split_ifs with hdrop
  · exact multiple_one (f p)
  · by_cases hk : keep = true
    · exact h.divisibility p hp (hkeep hk)
    · have hone : (info.contiguity d).val = 1 := by
        have hpos := (info.contiguity d).pos
        have hle : ¬ (info.contiguity d).val > 1 := fun hgt =>
          hdrop ⟨hgt, Bool.eq_false_of_not_eq_true hk⟩
        omega
      apply h.divisibility p hp
      rw [hone]
      exact Nat.one_dvd p

theorem line_mul (hf : IntLine lhs d f n) (hg : IntLine rhs d g n)
    (hl : isKnown lhs 1 = true → ∀ p < n, f p = 1) (hr : isKnown rhs 1 = true → ∀ p < n, g p = 1)
    (hunknown : ¬ (isKnown lhs 1 = true ∧ isKnown rhs 1 = true)) :
    LineCorrect 1 (mulIVisitor.getContiguity lhs rhs d) (mulIVisitor.getDivisibility lhs rhs d)
      (mulIVisitor.getConstancy lhs rhs d) (fun p => f p * g p) n := by
  have hconst := constancy_gcd (fun a b => a * b) hf hg
  have hmultiple : ∀ p < n, (isKnown rhs 1 = true → (lhs.contiguity d).val ∣ p) →
      (isKnown lhs 1 = true → (rhs.contiguity d).val ∣ p) →
      Multiple (mulIVisitor.getDivisibility lhs rhs d) (f p * g p) := fun p hp hkl hkr =>
    multiple_multiplyDivisor (multiple_dropDivisibility hf hp hkl)
      (multiple_dropDivisibility hg hp hkr)
  cases hr1 : isKnown rhs 1 with
  | true =>
    have hl1 : isKnown lhs 1 = false := Bool.eq_false_of_not_eq_true fun h => hunknown ⟨h, hr1⟩
    have hcontiguity : mulIVisitor.getContiguity lhs rhs d = lhs.contiguity d := by
      show Pow2.max (if isKnown rhs 1 then _ else 1) (if isKnown lhs 1 then _ else 1) = _
      rw [hr1, hl1]
      exact Pow2.max_one_right _
    constructor
    · rw [hcontiguity]
      exact hf.contiguity.congr fun p hp => by rw [hr hr1 p hp, mul_one]
    · intro p hp hdvd
      rw [hcontiguity] at hdvd
      exact hmultiple p hp (fun _ => hdvd) (fun h => absurd (hl1.symm.trans h) Bool.false_ne_true)
    · exact hconst
  | false =>
    cases hl1 : isKnown lhs 1 with
    | true =>
      have hcontiguity : mulIVisitor.getContiguity lhs rhs d = rhs.contiguity d := by
        show Pow2.max (if isKnown rhs 1 then _ else 1) (if isKnown lhs 1 then _ else 1) = _
        rw [hr1, hl1]
        exact Pow2.max_one_left _
      constructor
      · rw [hcontiguity]
        exact hg.contiguity.congr fun p hp => by rw [hl hl1 p hp, one_mul]
      · intro p hp hdvd
        rw [hcontiguity] at hdvd
        exact hmultiple p hp (fun h => absurd (hr1.symm.trans h) Bool.false_ne_true) (fun _ => hdvd)
      · exact hconst
    | false =>
      have hcontiguity : mulIVisitor.getContiguity lhs rhs d = 1 := by
        show Pow2.max (if isKnown rhs 1 then _ else 1) (if isKnown lhs 1 then _ else 1) = _
        rw [hr1, hl1]
        rfl
      constructor
      · rw [hcontiguity]
        exact contiguous_one _ _ _
      · intro p hp _
        exact hmultiple p hp (fun h => absurd (hr1.symm.trans h) Bool.false_ne_true)
          (fun h => absurd (hl1.symm.trans h) Bool.false_ne_true)
      · exact hconst

theorem shiftLeft_eq_mul (x : BitVec w) (s : ℕ) : x <<< s = x * ((2 ^ s : ℕ) : BitVec w) := by
  apply BitVec.eq_of_toNat_eq
  rw [BitVec.toNat_shiftLeft, Nat.shiftLeft_eq, BitVec.toNat_mul]
  show _ = x.toNat * (BitVec.ofNat w (2 ^ s)).toNat % 2 ^ w
  rw [BitVec.toNat_ofNat, Nat.mul_mod_mod]

theorem multiple_shiftLeft {a : Pow2} {x : BitVec w} (s : ℕ) (h : Multiple a x) :
    Multiple (multiplyDivisor a (.ofExponent s)) (x <<< s) := by
  rw [shiftLeft_eq_mul]
  exact multiple_multiplyDivisor h (multiple_natCast _ _ dvd_rfl)

theorem line_shl_known {c : BitVec 64} (hc : rhs.constantValue = some c) (hcw : c.toNat < w)
    (hf : IntLine lhs d f n) (hg : IntLine rhs d g n) (hgc : ∀ p < n, g p = c.setWidth w) :
    LineCorrect 1 (shLIVisitor.getContiguity lhs rhs d) (shLIVisitor.getDivisibility lhs rhs d)
      (shLIVisitor.getConstancy lhs rhs d) (fun p => f p <<< (g p).toNat) n := by
  have hamount : ∀ p < n, (g p).toNat = c.toNat := by
    intro p hp
    rw [hgc p hp, BitVec.toNat_setWidth]
    exact Nat.mod_eq_of_lt (Nat.lt_trans hcw Nat.lt_two_pow_self)
  have hdiv : shLIVisitor.getDivisibility lhs rhs d =
      multiplyDivisor (dropDivisibility lhs (c = 0) d) (.ofExponent c.toNat) := by
    show multiplyDivisor (dropDivisibility lhs (decide (rhs.constantValue.getD 0 = 0)) d)
      (.ofExponent (rhs.constantValue.getD 0).toNat) = _
    rw [hc]
    rfl
  have hcontiguity : shLIVisitor.getContiguity lhs rhs d =
      if c = 0 then lhs.contiguity d else 1 := by
    show (if isKnown rhs 0 then lhs.contiguity d else 1) = _
    simp [isKnown, hc]
  constructor
  · rw [hcontiguity]
    split_ifs with hzero
    · apply hf.contiguity.congr
      intro p hp
      rw [hamount p hp, hzero]
      exact BitVec.shiftLeft_zero (f p)
    · exact contiguous_one _ _ _
  · intro p hp hdvd
    rw [hcontiguity] at hdvd
    show Multiple _ (f p <<< (g p).toNat)
    rw [hdiv, hamount p hp]
    apply multiple_shiftLeft
    apply multiple_dropDivisibility hf hp
    intro hzero
    rwa [if_pos (of_decide_eq_true hzero)] at hdvd
  · exact constancy_gcd (fun a b => a <<< b.toNat) hf hg

theorem line_shl_unknown (hr : rhs.constantValue = none) (hf : IntLine lhs d f n)
    (hg : IntLine rhs d g n) :
    LineCorrect 1 (shLIVisitor.getContiguity lhs rhs d) (shLIVisitor.getDivisibility lhs rhs d)
        (shLIVisitor.getConstancy lhs rhs d) (fun p => f p <<< (g p).toNat) n ↔
      ∀ p < n, Multiple (multiplyDivisor (lhs.divisibility d) 1)
        (((p % (lhs.contiguity d).val : ℕ) : BitVec w) <<< (g p).toNat) := by
  have hdiv : shLIVisitor.getDivisibility lhs rhs d = multiplyDivisor (lhs.divisibility d) 1 := by
    show multiplyDivisor (dropDivisibility lhs (decide (rhs.constantValue.getD 0 = 0)) d)
      (.ofExponent (rhs.constantValue.getD 0).toNat) = _
    rw [hr]
    unfold dropDivisibility
    rw [if_neg (by simp)]
    rfl
  have hcontiguity : shLIVisitor.getContiguity lhs rhs d = 1 := by
    show (if isKnown rhs 0 then lhs.contiguity d else 1) = 1
    simp [isKnown, hr]
  have hoffset : ∀ p < n, Multiple (multiplyDivisor (lhs.divisibility d) 1) (f p <<< (g p).toNat) ↔
      Multiple (multiplyDivisor (lhs.divisibility d) 1)
        (((p % (lhs.contiguity d).val : ℕ) : BitVec w) <<< (g p).toNat) := by
    intro p hp
    have hhead : Multiple (multiplyDivisor (lhs.divisibility d) 1)
        (f (groupStart (lhs.contiguity d).val p) * ((2 ^ (g p).toNat : ℕ) : BitVec w)) :=
      multiple_multiplyDivisor (hf.head hp) (multiple_one _)
    rw [shiftLeft_eq_mul, shiftLeft_eq_mul, hf.value hp, one_mul, add_mul, multiple_add_iff hhead]
  constructor
  · intro h p hp
    rw [← hoffset p hp, ← hdiv]
    apply h.divisibility p hp
    rw [hcontiguity]
    exact Nat.one_dvd p
  · intro h
    constructor
    · rw [hcontiguity]
      exact contiguous_one _ _ _
    · intro p hp _
      rw [hdiv]
      exact (hoffset p hp).mpr (h p hp)
    · exact constancy_gcd (fun a b => a <<< b.toNat) hf hg

def IsShiftRight (s : ℕ) (x y : BitVec w) : Prop :=
  ∀ i, (s + i < w → y.getLsbD i = x.getLsbD (s + i)) ∧
    (w ≤ s + i → y.getLsbD i = true → i < w ∧ x.getLsbD (w - 1) = true)

theorem isShiftRight_ushiftRight (x : BitVec w) (s : ℕ) : IsShiftRight s x (x >>> s) := by
  intro i
  constructor
  · intro _
    rw [BitVec.getLsbD_ushiftRight]
  · intro hle hbit
    rw [BitVec.getLsbD_ushiftRight, BitVec.getLsbD_of_ge x _ hle] at hbit
    cases hbit

theorem isShiftRight_sshiftRight (x : BitVec w) (s : ℕ) : IsShiftRight s x (x.sshiftRight s) := by
  intro i
  constructor
  · intro hlt
    have hi : ¬ w ≤ i := by omega
    rw [BitVec.getLsbD_sshiftRight]
    simp [hlt, hi]
  · intro hle hbit
    rw [BitVec.getLsbD_sshiftRight, if_neg (by omega), Bool.and_eq_true,
      BitVec.msb_eq_getLsbD_last] at hbit
    refine ⟨?_, hbit.2⟩
    simpa using hbit.1

theorem multiple_shiftRight {j s : ℕ} {x y : BitVec w} (h : IsShiftRight s x y)
    (hx : Multiple (.ofExponent j) x) : Multiple (.ofExponent (j - s)) y := by
  rw [multiple_ofExponent_iff] at hx ⊢
  intro i hi
  rcases Nat.lt_or_ge (s + i) w with hlt | hge
  · rw [(h i).1 hlt]
    exact hx _ (by omega)
  · by_contra hbit
    obtain ⟨hiw, htop⟩ := (h i).2 hge (by simpa using hbit)
    have hlow := hx (w - 1) (by omega)
    rw [htop] at hlow
    cases hlow

theorem multiple_shiftRight_known {l : BitVec 64} {s : ℕ} {y : BitVec w} (hw : w ≤ 64) (hs : s < w)
    (h : IsShiftRight s (l.setWidth w) y) :
    Multiple (highestPowOf2Divisor (l.sshiftRight s)) y := by
  obtain ⟨k, hk⟩ := (highestPowOf2Divisor (l.sshiftRight s)).eq_ofExponent
  have hlow : Multiple (.ofExponent k) (l.sshiftRight s) := by
    rw [← hk]
    exact highestPowOf2Divisor_dvd _
  rw [hk, multiple_ofExponent_iff]
  rw [multiple_ofExponent_iff] at hlow
  have hbits : ∀ i, s + i < w → i < k → l.getLsbD (s + i) = false := by
    intro i hi hik
    have hbit := hlow i hik
    have h64 : ¬ 64 ≤ i := by omega
    rw [BitVec.getLsbD_sshiftRight, if_pos (by omega)] at hbit
    simpa [h64] using hbit
  intro i hi
  rcases Nat.lt_or_ge (s + i) w with hlt | hge
  · rw [(h i).1 hlt, BitVec.getLsbD_setWidth, hbits i hlt hi, Bool.and_false]
  · by_contra hbit
    obtain ⟨hiw, htop⟩ := (h i).2 hge (by simpa using hbit)
    have hzero := hbits (w - 1 - s) (by omega) (by omega)
    rw [show s + (w - 1 - s) = w - 1 by omega] at hzero
    rw [BitVec.getLsbD_setWidth, hzero, Bool.and_false] at htop
    cases htop

theorem line_shr {op : BitVec w → ℕ → BitVec w} (hop : ∀ x s, IsShiftRight s x (op x s))
    (hzero : ∀ x, op x 0 = x) (hknown : ∀ c, rhs.constantValue = some c →
      c.toNat < w ∧ ∀ p < n, g p = c.setWidth w) (hf : IntLine lhs d f n) (hg : IntLine rhs d g n) :
    LineCorrect 1 (shRVisitor.getContiguity lhs rhs d) (shRVisitor.getDivisibility lhs rhs d)
      (shRVisitor.getConstancy lhs rhs d) (fun p => op (f p) (g p).toNat) n := by
  have hconst := constancy_gcd (fun a b => op a b.toNat) hf hg
  cases hr : rhs.constantValue with
  | none =>
    have hcontiguity : shRVisitor.getContiguity lhs rhs d = 1 := by
      show (if isKnown rhs 0 then lhs.contiguity d else 1) = 1
      simp [isKnown, hr]
    have hdiv : shRVisitor.getDivisibility lhs rhs d = 1 := by simp [shRVisitor, hr]
    constructor
    · rw [hcontiguity]
      exact contiguous_one _ _ _
    · intro p _ _
      rw [hdiv]
      exact multiple_one _
    · exact hconst
  | some c =>
    obtain ⟨hcw, hgc⟩ := hknown c hr
    have hamount : ∀ p < n, (g p).toNat = c.toNat := by
      intro p hp
      rw [hgc p hp, BitVec.toNat_setWidth]
      exact Nat.mod_eq_of_lt (Nat.lt_trans hcw Nat.lt_two_pow_self)
    have hcontiguity : shRVisitor.getContiguity lhs rhs d =
        if c = 0 then lhs.contiguity d else 1 := by
      show (if isKnown rhs 0 then lhs.contiguity d else 1) = _
      simp [isKnown, hr]
    have hdiv : shRVisitor.getDivisibility lhs rhs d = if c.toNat < 31 then
        (dropDivisibility lhs (c = 0) d).quotient (.ofExponent c.toNat) else 1 := by
      simp [shRVisitor, hr]
    constructor
    · rw [hcontiguity]
      split_ifs with hc0
      · apply hf.contiguity.congr
        intro p hp
        rw [hamount p hp, hc0]
        exact hzero (f p)
      · exact contiguous_one _ _ _
    · intro p hp hdvd
      show Multiple _ (op (f p) (g p).toNat)
      rw [hdiv, hamount p hp]
      rw [hcontiguity] at hdvd
      split_ifs with h31
      · have hdrop : Multiple (dropDivisibility lhs (decide (c = 0)) d) (f p) := by
          apply multiple_dropDivisibility hf hp
          intro hc0
          rwa [if_pos (of_decide_eq_true hc0)] at hdvd
        obtain ⟨j, hj⟩ := (dropDivisibility lhs (decide (c = 0)) d).eq_ofExponent
        rw [hj] at hdrop ⊢
        rw [Pow2.quotient_ofExponent]
        exact multiple_shiftRight (hop _ _) hdrop
      · exact multiple_one _
    · exact hconst

end Lines

inductive MulShiftOp where
  | muli
  | shli
  | shrui
  | shrsi
  deriving DecidableEq, Repr

namespace MulShiftOp

variable {rank w : ℕ}

def apply : MulShiftOp → BitVec w → BitVec w → BitVec w
  | .muli, x, y => x * y
  | .shli, x, y => x <<< y.toNat
  | .shrui, x, y => x >>> y.toNat
  | .shrsi, x, y => x.sshiftRight y.toNat

def getAxisInfo : MulShiftOp → AxisInfo rank → AxisInfo rank → Option (AxisInfo rank)
  | .muli, lhs, rhs => some (mulIVisitor.getAxisInfo lhs rhs)
  | .shli, lhs, rhs => shLIAxisInfo lhs rhs
  | .shrui, lhs, rhs | .shrsi, lhs, rhs => shRAxisInfo lhs rhs

def InRange (op : MulShiftOp) (w : ℕ) (rhs : AxisInfo rank) : Prop :=
  op = .muli ∨ ∀ c, rhs.constantValue = some c → c.toNat < w

/-- A left shift by an unknown amount needs shifted offsets that keep the
divisibility, and a right shift an amount below the width of an `int`. -/
def Meets (op : MulShiftOp) (shape : Shape rank) (y : Tensor rank w) (lhs rhs : AxisInfo rank) :
    Prop :=
  match op with
  | .muli => True
  | .shli => rhs.constantValue.isSome ∨ ∀ i, InBounds shape i → ∀ d, ∀ p < (shape d).val,
      Multiple (multiplyDivisor (lhs.divisibility d) 1)
        (((p % (lhs.contiguity d).val : ℕ) : BitVec w) <<< (line y i d p).toNat)
  | .shrui | .shrsi => lhs.constantValue.isSome ∨ rank = 0 ∨
      ∀ c, rhs.constantValue = some c → c.toNat < 32

end MulShiftOp

section Tensors

variable {rank w : ℕ} {shape : Shape rank} {x y : Tensor rank w} {lhs rhs : AxisInfo rank}

theorem axes_mul (hw : w ≤ 64) (hx : Correct shape 1 x lhs) (hy : Correct shape 1 y rhs) :
    AxesCorrect shape 1 (fun i => x i * y i) (mulIVisitor.getAxisInfo lhs rhs) := by
  cases hc : foldConstants (· * ·) lhs rhs with
  | some c =>
    obtain ⟨l, r, hl, hr, rfl⟩ := foldConstants_eq_some hc
    apply axes_known hc
    intro i hi
    rw [hx.constant l hl i hi, hy.constant r hr i hi, ← BitVec.setWidth_mul l r hw]
  | none =>
    have hone : ∀ {z : Tensor rank w} {info : AxisInfo rank}, Correct shape 1 z info →
        isKnown info 1 = true → ∀ i, InBounds shape i → ∀ d, ∀ p < (shape d).val,
          line z i d p = 1 := by
      intro z info hz hk i hi d p hp
      rw [hz.line_constant (isKnown_iff.mp hk) hi d p hp]
      exact BitVec.setWidth_ofNat_of_le hw 1
    rw [getAxisInfo_unknown hc]
    intro i hi d
    apply line_mul (hx.axes i hi d) (hy.axes i hi d) (fun hk => hone hx hk i hi d)
      (fun hk => hone hy hk i hi d)
    rintro ⟨hl, hr⟩
    rw [isKnown_iff] at hl hr
    rw [foldConstants_of_some hl hr] at hc
    cases hc

theorem setWidth_shiftLeft (hw : w ≤ 64) (l : BitVec 64) (s : ℕ) :
    (l <<< s).setWidth w = l.setWidth w <<< s := by
  rw [shiftLeft_eq_mul, shiftLeft_eq_mul, BitVec.setWidth_mul _ _ hw]
  congr 1
  exact BitVec.setWidth_ofNat_of_le hw _

theorem toNat_amount {c : BitVec 64} (hc : c.toNat < w) : (c.setWidth w).toNat = c.toNat := by
  rw [BitVec.toNat_setWidth]
  exact Nat.mod_eq_of_lt (Nat.lt_trans hc Nat.lt_two_pow_self)

theorem axes_shl_known (hw : w ≤ 64) (hx : Correct shape 1 x lhs) (hy : Correct shape 1 y rhs)
    {c : BitVec 64} (hr : rhs.constantValue = some c) (hcw : c.toNat < w) :
    AxesCorrect shape 1 (fun i => x i <<< (y i).toNat) (shLIVisitor.getAxisInfo lhs rhs) := by
  cases hc : foldConstants (fun l r => l <<< r.toNat) lhs rhs with
  | some v =>
    obtain ⟨l, r, hl, hr', rfl⟩ := foldConstants_eq_some hc
    rw [hr, Option.some.injEq] at hr'
    subst hr'
    apply axes_known hc
    intro i hi
    rw [hx.constant l hl i hi, hy.constant c hr i hi, toNat_amount hcw, setWidth_shiftLeft hw]
  | none =>
    rw [getAxisInfo_unknown hc]
    intro i hi d
    exact line_shl_known hr hcw (hx.axes i hi d) (hy.axes i hi d) (hy.line_constant hr hi d)

theorem axes_shl_unknown (hx : Correct shape 1 x lhs) (hy : Correct shape 1 y rhs)
    (hr : rhs.constantValue = none) :
    AxesCorrect shape 1 (fun i => x i <<< (y i).toNat) (shLIVisitor.getAxisInfo lhs rhs) ↔
      ∀ i, InBounds shape i → ∀ d, ∀ p < (shape d).val,
        Multiple (multiplyDivisor (lhs.divisibility d) 1)
          (((p % (lhs.contiguity d).val : ℕ) : BitVec w) <<< (line y i d p).toNat) := by
  have hc : foldConstants (fun l r => l <<< r.toNat) lhs rhs = none := by
    rw [foldConstants, hr]
    cases lhs.constantValue <;> rfl
  rw [getAxisInfo_unknown hc]
  refine forall_congr' fun i => forall_congr' fun hi => forall_congr' fun d => ?_
  exact line_shl_unknown hr (hx.axes i hi d) (hy.axes i hi d)

theorem axes_shr (hw : w ≤ 64) {op : BitVec w → ℕ → BitVec w}
    (hop : ∀ x s, IsShiftRight s x (op x s)) (hzero : ∀ x, op x 0 = x)
    (hx : Correct shape 1 x lhs) (hy : Correct shape 1 y rhs)
    (hrange : ∀ c, rhs.constantValue = some c → c.toNat < w) :
    AxesCorrect shape 1 (fun i => op (x i) (y i).toNat) (shRVisitor.getAxisInfo lhs rhs) := by
  cases hc : foldConstants (fun l r => l.sshiftRight r.toNat) lhs rhs with
  | some v =>
    obtain ⟨l, r, hl, hr, rfl⟩ := foldConstants_eq_some hc
    rw [getAxisInfo_known hc]
    intro i hi d
    apply lineCorrect_equal (a := op (l.setWidth w) r.toNat)
    · intro p hp
      have hl' := hx.line_constant hl hi d p hp
      have hr' := hy.line_constant hr hi d p hp
      show op (line x i d p) (line y i d p).toNat = _
      rw [hl', hr', toNat_amount (hrange r hr)]
    · exact multiple_shiftRight_known hw (hrange r hr) (hop _ _)
  | none =>
    rw [getAxisInfo_unknown hc]
    intro i hi d
    exact line_shr hop hzero (fun c hr => ⟨hrange c hr, hy.line_constant hr hi d⟩)
      (hx.axes i hi d) (hy.axes i hi d)

theorem shRAxisInfo_some {info : AxisInfo rank} (h : shRAxisInfo lhs rhs = some info) :
    info = shRVisitor.getAxisInfo lhs rhs := by
  unfold shRAxisInfo at h
  simp only at h
  by_cases hbound : (rhs.constantValue.getD 0).toNat <
      if lhs.constantValue.isSome ∨ rank = 0 then 64 else 32
  · rw [if_pos hbound, Option.some.injEq] at h
    exact h.symm
  · rw [if_neg hbound] at h
    cases h

theorem shRAxisInfo_eq (hw : w ≤ 64) (hrange : ∀ c, rhs.constantValue = some c → c.toNat < w) :
    (∃ info, shRAxisInfo lhs rhs = some info ∧ info = shRVisitor.getAxisInfo lhs rhs) ↔
      lhs.constantValue.isSome ∨ rank = 0 ∨ ∀ c, rhs.constantValue = some c → c.toNat < 32 := by
  have hdefined : (∃ info, shRAxisInfo lhs rhs = some info ∧
      info = shRVisitor.getAxisInfo lhs rhs) ↔ (rhs.constantValue.getD 0).toNat <
        if lhs.constantValue.isSome ∨ rank = 0 then 64 else 32 := by
    unfold shRAxisInfo
    constructor
    · rintro ⟨info, h, -⟩
      by_contra hnot
      simp only at h
      rw [if_neg hnot] at h
      cases h
    · intro hlt
      simp only
      rw [if_pos hlt]
      exact ⟨_, rfl, rfl⟩
  rw [hdefined]
  cases hr : rhs.constantValue with
  | none =>
    apply iff_of_true
    · show 0 < _
      split_ifs <;> decide
    · exact Or.inr (Or.inr fun c hc => by cases hc)
  | some c =>
    have hcw := hrange c hr
    show c.toNat < _ ↔ _
    constructor
    · intro h
      split_ifs at h with hwide
      · rcases hwide with hl | hrank
        · exact Or.inl hl
        · exact Or.inr (Or.inl hrank)
      · exact Or.inr (Or.inr fun c' hc => by
          cases hc
          exact h)
    · intro h
      split_ifs with hwide
      · omega
      · rcases h with hl | hrank | hbound
        · exact absurd (Or.inl hl) hwide
        · exact absurd (Or.inr hrank) hwide
        · exact hbound c rfl

end Tensors

/-- The visitors of products and shifts are right exactly when a left shift by
an unknown amount keeps the divisibility and a right shift is computed by a
defined shift. -/
theorem mulShift_correct_iff {rank w : ℕ} (hw : w ≤ 64) (op : MulShiftOp) (shape : Shape rank)
    (x y : Tensor rank w) (lhs rhs : AxisInfo rank) (hx : Correct shape 1 x lhs)
    (hy : Correct shape 1 y rhs) (hrange : op.InRange w rhs) :
    (∃ info, op.getAxisInfo lhs rhs = some info ∧
        AxesCorrect shape 1 (fun i => op.apply (x i) (y i)) info) ↔ op.Meets shape y lhs rhs := by
  have hshr : ∀ {shift : BitVec w → ℕ → BitVec w}, (∀ x s, IsShiftRight s x (shift x s)) →
      (∀ x, shift x 0 = x) → (∀ c, rhs.constantValue = some c → c.toNat < w) →
      ((∃ info, shRAxisInfo lhs rhs = some info ∧
        AxesCorrect shape 1 (fun i => shift (x i) (y i).toNat) info) ↔
          lhs.constantValue.isSome ∨ rank = 0 ∨
            ∀ c, rhs.constantValue = some c → c.toNat < 32) := by
    intro shift hop hzero hrange
    rw [← shRAxisInfo_eq hw hrange]
    have haxes := axes_shr hw hop hzero hx hy hrange
    constructor
    · rintro ⟨info, h, -⟩
      exact ⟨info, h, shRAxisInfo_some h⟩
    · rintro ⟨info, h, rfl⟩
      exact ⟨_, h, haxes⟩
  cases op with
  | muli => exact iff_of_true ⟨_, rfl, axes_mul hw hx hy⟩ trivial
  | shli =>
    have hrange : ∀ c, rhs.constantValue = some c → c.toNat < w :=
      hrange.resolve_left (by decide)
    show (∃ info, shLIAxisInfo lhs rhs = some info ∧ _) ↔ rhs.constantValue.isSome ∨ _
    have hdefined : shLIAxisInfo lhs rhs = some (shLIVisitor.getAxisInfo lhs rhs) := by
      apply if_pos
      cases hr : rhs.constantValue with
      | none => decide
      | some c => exact Nat.lt_of_lt_of_le (hrange c hr) hw
    rw [hdefined]
    cases hr : rhs.constantValue with
    | some c =>
      exact iff_of_true ⟨_, rfl, axes_shl_known hw hx hy hr (hrange c hr)⟩ (Or.inl rfl)
    | none =>
      rw [or_iff_right (by simp), ← axes_shl_unknown hx hy hr]
      constructor
      · rintro ⟨info, h, haxes⟩
        cases h
        exact haxes
      · exact fun haxes => ⟨_, rfl, haxes⟩
  | shrui =>
    exact hshr isShiftRight_ushiftRight (fun x => BitVec.ushiftRight_zero x)
      (hrange.resolve_left (by decide))
  | shrsi =>
    exact hshr isShiftRight_sshiftRight (fun x => BitVec.sshiftRight_zero)
      (hrange.resolve_left (by decide))

/-- Contiguous numbers shifted right by the known amount 2. -/
theorem mulShift_correct_iff_shrui :
    ∃ info, MulShiftOp.shrui.getAxisInfo (lineInfo 3 3 0 none) (lineInfo 0 1 3 (some 2)) = some info ∧
      AxesCorrect (fun _ => .ofExponent 3) (1 : BitVec 32)
        (fun i => MulShiftOp.shrui.apply (ofLine (fun p => BitVec.ofNat 32 (8 + p)) i)
          (ofLine (fun _ => (2 : BitVec 32)) i)) info :=
  (mulShift_correct_iff (by decide) .shrui _ _ _ _ _ (correct_ofLine (by decide))
    ⟨axes_ofLine.mpr (by decide), fun c hc i _ => by
      cases hc
      rfl⟩
    (Or.inr fun c hc => by
      cases hc
      decide)).mpr (Or.inr (Or.inr fun c hc => by
        cases hc
        decide))

/-- `[0, ..., 7]` shifted left by amounts that are not known: the result has
groups of one element, and 1 is no multiple of 8. A right shift by the known
amount 32 shifts an `int` by 32. -/
theorem shift_incorrect :
    (Correct (fun _ => .ofExponent 3) (1 : BitVec 32) (ofLine fun p => BitVec.ofNat 32 p)
        (lineInfo 3 3 0 none) ∧
      Correct (fun _ => .ofExponent 3) (1 : BitVec 32) (ofLine fun p => BitVec.ofNat 32 (p % 2))
        (lineInfo 0 0 0 none) ∧
      ∀ info, shLIAxisInfo (lineInfo 3 3 0 none) (lineInfo 0 0 0 none) = some info →
        ¬ AxesCorrect (fun _ => .ofExponent 3) (1 : BitVec 32)
          (ofLine fun p => BitVec.ofNat 32 p <<< (BitVec.ofNat 32 (p % 2)).toNat) info) ∧
      shRAxisInfo (lineInfo 3 3 0 none) (lineInfo 0 5 3 (some 32)) = none := by
  refine ⟨⟨correct_ofLine (by decide), correct_ofLine (by decide), ?_⟩, by decide⟩
  intro info h
  have hinfo : shLIAxisInfo (lineInfo 3 3 0 none) (lineInfo 0 0 0 none) =
      some (shLIVisitor.getAxisInfo (lineInfo 3 3 0 none) (lineInfo 0 0 0 none)) := if_pos (by decide)
  rw [hinfo, Option.some.injEq] at h
  rw [← h, axes_ofLine]
  decide +kernel

end TritonCpu.AxisAnalysis
