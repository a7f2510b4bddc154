import TritonCpu.AxisCorrect

/-!
# Sums and differences

The contiguity and the constancy of a sum are right. The divisibility is that
of the operands' groups, but it is read at the groups of the result, which can
be shorter: it is right exactly when the offsets of those groups inside the
operands' groups are multiples as well.
-/

set_option autoImplicit false

namespace TritonCpu.AxisAnalysis
open PowerOfTwo AlignedGroups TritonIR

namespace AddSubOp

/-- The size of the elements that the left operand and the result count. -/
def scale : AddSubOp → Pow2
  | .addptr pointee => pointee.elemSize
  | _ => 1

def step (op : AddSubOp) (w : ℕ) : BitVec w := ((op.scale.val : ℕ) : BitVec w)

def apply {w : ℕ} (op : AddSubOp) (x y : BitVec w) : BitVec w :=
  match op with
  | .addi => x + y
  | .subi => x - y
  | .addptr _ => x + y * op.step w

def groups {rank : ℕ} (op : AddSubOp) (lhs rhs : AxisInfo rank) (d : Fin rank) : ℕ :=
  let left := Nat.gcd (lhs.contiguity d).val (rhs.constancy d).val
  match op with
  | .subi => left
  | _ => Nat.max (Nat.gcd (lhs.constancy d).val (rhs.contiguity d).val) left

def divisor {rank : ℕ} (op : AddSubOp) (lhs rhs : AxisInfo rank) (d : Fin rank) : Pow2 :=
  Pow2.gcd (lhs.divisibility d) (match op with
    | .addptr pointee => multiplyDivisor (rhs.divisibility d) pointee.elemSize
    | _ => rhs.divisibility d)

/-- The groups of the result start at multiples in the operands' groups. -/
def Aligned {rank : ℕ} (op : AddSubOp) (w : ℕ) (shape : Shape rank) (lhs rhs : AxisInfo rank) :
    Prop :=
  ∀ d, ∀ p < (shape d).val, op.groups lhs rhs d ∣ p → Multiple (op.divisor lhs rhs d)
    (op.apply (op.step w * ((p % (lhs.contiguity d).val : ℕ) : BitVec w))
      ((p % (rhs.contiguity d).val : ℕ) : BitVec w))

section Proofs

variable {rank w : ℕ} {op : AddSubOp} {lhs rhs : AxisInfo rank} {shape : Shape rank}

theorem getContiguity_val (op : AddSubOp) (lhs rhs : AxisInfo rank) (d : Fin rank) :
    (op.getContiguity lhs rhs d).val = op.groups lhs rhs d := by
  have hgcd : ∀ a b : Pow2, (gcd a b).val = Nat.gcd a.val b.val := fun a b => gcdImpl_eq _ _
  have hmax : ∀ a b : Pow2, (Pow2.max a b).val = Nat.max a.val b.val := by
    intro a b
    unfold Pow2.max
    split_ifs with h
    · exact (Nat.max_eq_right h).symm
    · exact (Nat.max_eq_left (Nat.le_of_lt (Nat.lt_of_not_le h))).symm
  cases op with
  | subi => exact hgcd _ _
  | addi =>
    show (Pow2.max _ _).val = _
    rw [hmax, hgcd, hgcd]
    rfl
  | addptr pointee =>
    show (Pow2.max _ _).val = _
    rw [hmax, hgcd, hgcd]
    rfl

theorem getDivisibility_eq (op : AddSubOp) (lhs rhs : AxisInfo rank) (d : Fin rank) :
    op.getDivisibility lhs rhs d = op.divisor lhs rhs d := by
  apply Pow2.ext
  exact gcdImpl_eq _ _

variable {f g : ℕ → BitVec w} {n : ℕ} {d : Fin rank}

theorem contiguous_apply
    (hf : LineCorrect (op.step w) (lhs.contiguity d) (lhs.divisibility d) (lhs.constancy d) f n)
    (hg : LineCorrect 1 (rhs.contiguity d) (rhs.divisibility d) (rhs.constancy d) g n) :
    Contiguous (op.getContiguity lhs rhs d).val (op.step w) (fun p => op.apply (f p) (g p)) n := by
  have hleft := hf.contiguity.mono (gcd_dvd_left (lhs.contiguity d) (rhs.constancy d))
  have hright := hg.constancy.mono (gcd_dvd_right (lhs.contiguity d) (rhs.constancy d))
  have hleft' := hf.constancy.mono (gcd_dvd_left (lhs.constancy d) (rhs.contiguity d))
  have hright' := hg.contiguity.mono (gcd_dvd_right (lhs.constancy d) (rhs.contiguity d))
  cases op with
  | subi => exact hleft.sub_constant hright
  | addi =>
    rcases Pow2.max_cases (gcd (lhs.constancy d) (rhs.contiguity d))
      (gcd (lhs.contiguity d) (rhs.constancy d)) with hmax | hmax
    · show Contiguous (Pow2.max _ _).val _ _ n
      rw [hmax]
      exact (hright'.add_constant hleft').congr fun p _ => BitVec.add_comm _ _
    · show Contiguous (Pow2.max _ _).val _ _ n
      rw [hmax]
      exact hleft.add_constant hright
  | addptr pointee =>
    rcases Pow2.max_cases (gcd (lhs.constancy d) (rhs.contiguity d))
      (gcd (lhs.contiguity d) (rhs.constancy d)) with hmax | hmax
    · show Contiguous (Pow2.max _ _).val _ _ n
      rw [hmax]
      intro p hp
      show f p + g p * _ = f _ + g _ * _ + _
      rw [hleft' p hp, hright' p hp]
      ring
    · show Contiguous (Pow2.max _ _).val _ _ n
      rw [hmax]
      exact hleft.add_constant (hright.map₂ hright fun a _ => a * step (.addptr pointee) w)

theorem constant_apply (op : AddSubOp)
    (hf : LineCorrect (op.step w) (lhs.contiguity d) (lhs.divisibility d) (lhs.constancy d) f n)
    (hg : LineCorrect 1 (rhs.contiguity d) (rhs.divisibility d) (rhs.constancy d) g n) :
    Constant (gcd (lhs.constancy d) (rhs.constancy d)).val (fun p => op.apply (f p) (g p)) n :=
  (hf.constancy.mono (gcd_dvd_left _ _)).map₂ (hg.constancy.mono (gcd_dvd_right _ _)) op.apply

theorem multiple_apply_iff {p : ℕ} (hp : p < n)
    (hf : LineCorrect (op.step w) (lhs.contiguity d) (lhs.divisibility d) (lhs.constancy d) f n)
    (hg : LineCorrect 1 (rhs.contiguity d) (rhs.divisibility d) (rhs.constancy d) g n) :
    Multiple (op.divisor lhs rhs d) (op.apply (f p) (g p)) ↔ Multiple (op.divisor lhs rhs d)
      (op.apply (op.step w * ((p % (lhs.contiguity d).val : ℕ) : BitVec w))
        ((p % (rhs.contiguity d).val : ℕ) : BitVec w)) := by
  have hx : Multiple (op.divisor lhs rhs d) (f (groupStart (lhs.contiguity d).val p)) :=
    (hf.head hp).mono (Pow2.gcd_dvd_left _ _)
  have hvalue := hg.value hp
  rw [one_mul] at hvalue
  rw [hf.value hp, hvalue]
  cases op with
  | addi =>
    have hy : Multiple (divisor .addi lhs rhs d) (g (groupStart (rhs.contiguity d).val p)) :=
      (hg.head hp).mono (Pow2.gcd_dvd_right _ _)
    show Multiple _ (_ + _ + (_ + _)) ↔ Multiple _ (_ + _)
    rw [add_add_add_comm, multiple_add_iff (hx.add hy)]
  | subi =>
    have hy : Multiple (divisor .subi lhs rhs d) (g (groupStart (rhs.contiguity d).val p)) :=
      (hg.head hp).mono (Pow2.gcd_dvd_right _ _)
    show Multiple _ (_ + _ - (_ + _)) ↔ Multiple _ (_ - _)
    rw [add_sub_add_comm, multiple_add_iff ((multiple_sub_iff hx).mpr hy)]
  | addptr pointee =>
    have hy : Multiple (divisor (.addptr pointee) lhs rhs d)
        (g (groupStart (rhs.contiguity d).val p) * step (.addptr pointee) w) :=
      (multiple_multiplyDivisor (hg.head hp) (multiple_natCast _ _ dvd_rfl)).mono
        (Pow2.gcd_dvd_right _ _)
    show Multiple _ (_ + _ + (_ + _) * _) ↔ Multiple _ (_ + _ * _)
    rw [add_mul, add_add_add_comm, multiple_add_iff (hx.add hy)]

theorem apply_setWidth (hw : w ≤ 64) (l r : BitVec 64) {c : BitVec 64}
    (hl : lhs.constantValue = some l) (hr : rhs.constantValue = some r)
    (h : op.getConstantValue lhs rhs = some c) :
    op.apply (l.setWidth w) (r.setWidth w) = c.setWidth w := by
  cases op with
  | addi =>
    rw [getConstantValue, foldConstants_of_some hl hr, Option.some.injEq] at h
    rw [← h, BitVec.setWidth_add l r hw]
    rfl
  | subi =>
    rw [getConstantValue, foldConstants_of_some hl hr, Option.some.injEq] at h
    rw [← h]
    show l.setWidth w - r.setWidth w = (l - r).setWidth w
    rw [BitVec.sub_eq_add_neg l r, BitVec.setWidth_add _ _ hw, BitVec.setWidth_neg_of_le hw]
    exact BitVec.sub_eq_add_neg _ _
  | addptr pointee =>
    rw [getConstantValue, foldConstants_of_some hl hr, Option.some.injEq] at h
    have hsize : (BitVec.ofNat 64 pointee.elemSize.val).setWidth w =
        ((pointee.elemSize.val : ℕ) : BitVec w) := BitVec.setWidth_ofNat_of_le hw _
    rw [← h, BitVec.setWidth_add _ _ hw, BitVec.setWidth_mul _ _ hw, hsize]
    rfl

end Proofs

end AddSubOp

/-- The visitor of a sum or a difference is right exactly when both operands are
known constants or the groups of the result are aligned in the operands'. -/
theorem addSub_correct_iff {rank w : ℕ} (hw : w ≤ 64) (op : AddSubOp) (shape : Shape rank)
    (x y : Tensor rank w) (lhs rhs : AxisInfo rank) (hx : Correct shape (op.step w) x lhs)
    (hy : Correct shape 1 y rhs) :
    AxesCorrect shape (op.step w) (fun i => op.apply (x i) (y i))
        (op.visitor.getAxisInfo lhs rhs) ↔
      (lhs.constantValue.isSome ∧ rhs.constantValue.isSome) ∨ op.Aligned w shape lhs rhs := by
  cases hc : op.getConstantValue lhs rhs with
  | some c =>
    have hknown : ∃ l r, lhs.constantValue = some l ∧ rhs.constantValue = some r := by
      cases op with
      | addi =>
        obtain ⟨l, r, hl, hr, -⟩ := foldConstants_eq_some hc
        exact ⟨l, r, hl, hr⟩
      | subi =>
        obtain ⟨l, r, hl, hr, -⟩ := foldConstants_eq_some hc
        exact ⟨l, r, hl, hr⟩
      | addptr pointee =>
        obtain ⟨l, r, hl, hr, -⟩ := foldConstants_eq_some hc
        exact ⟨l, r, hl, hr⟩
    obtain ⟨l, r, hl, hr⟩ := hknown
    have hright : lhs.constantValue.isSome ∧ rhs.constantValue.isSome := by
      rw [hl, hr]
      exact ⟨rfl, rfl⟩
    refine iff_of_true (axes_known hc fun i hi => ?_) (Or.inl hright)
    rw [hx.constant l hl i hi, hy.constant r hr i hi, AddSubOp.apply_setWidth hw l r hl hr hc]
  | none =>
    have hnot : ¬ (lhs.constantValue.isSome ∧ rhs.constantValue.isSome) := by
      rintro ⟨hl, hr⟩
      obtain ⟨l, hl⟩ := Option.isSome_iff_exists.mp hl
      obtain ⟨r, hr⟩ := Option.isSome_iff_exists.mp hr
      cases op <;>
        · rw [AddSubOp.getConstantValue, foldConstants_of_some hl hr] at hc
          cases hc
    rw [or_iff_right hnot, getAxisInfo_unknown hc]
    show (∀ i, InBounds shape i → ∀ d, LineCorrect (op.step w) (op.getContiguity lhs rhs d)
      (op.getDivisibility lhs rhs d) (gcd (lhs.constancy d) (rhs.constancy d))
      (line (fun i => op.apply (x i) (y i)) i d) (shape d).val) ↔ _
    unfold AddSubOp.Aligned
    rw [← forall_positions shape]
    refine forall_congr' fun i => forall_congr' fun hi => forall_congr' fun d => ?_
    have hf := hx.axes i hi d
    have hg := hy.axes i hi d
    constructor
    · intro h p hp hdvd
      rw [← AddSubOp.multiple_apply_iff hp hf hg, ← AddSubOp.getDivisibility_eq]
      exact h.divisibility p hp (by rwa [AddSubOp.getContiguity_val])
    · intro h
      constructor
      · exact AddSubOp.contiguous_apply hf hg
      · intro p hp hdvd
        rw [AddSubOp.getContiguity_val] at hdvd
        rw [AddSubOp.getDivisibility_eq]
        exact (AddSubOp.multiple_apply_iff hp hf hg).mpr (h p hp hdvd)
      · exact AddSubOp.constant_apply op hf hg

/-- Pointers to `f32` at one aligned base, with contiguous offsets. -/
theorem addSub_correct_iff_pointers :
    AxesCorrect (fun _ => .ofExponent 3) ((AddSubOp.addptr .f32).step 64)
      (fun i => (AddSubOp.addptr .f32).apply (ofLine (fun _ => (64 : BitVec 64)) i)
        (ofLine (fun p => BitVec.ofNat 64 (8 + p)) i))
      ((AddSubOp.addptr .f32).visitor.getAxisInfo (lineInfo 0 6 3 none) (lineInfo 3 3 0 none)) :=
  (addSub_correct_iff (by decide) (.addptr .f32) _ _ _ _ _ (correct_ofLine (by decide))
    (correct_ofLine (by decide))).mpr (Or.inr (by
      unfold AddSubOp.Aligned
      decide))

/-- `[0, ..., 7]` plus multiples of 8 without groups: the result has groups of
one element, and 1 is no multiple of 8. -/
theorem addi_incorrect :
    Correct (fun _ => .ofExponent 3) (1 : BitVec 32) (ofLine fun p => BitVec.ofNat 32 p)
        (lineInfo 3 3 0 none) ∧
      Correct (fun _ => .ofExponent 3) (1 : BitVec 32) (ofLine fun p => BitVec.ofNat 32 (8 * (p % 2)))
        (lineInfo 0 3 0 none) ∧
      ¬ AxesCorrect (fun _ => .ofExponent 3) (1 : BitVec 32)
        (ofLine fun p => BitVec.ofNat 32 p + BitVec.ofNat 32 (8 * (p % 2)))
        (AddSubOp.addi.visitor.getAxisInfo (lineInfo 3 3 0 none) (lineInfo 0 3 0 none)) := by
  refine ⟨correct_ofLine (by decide), correct_ofLine (by decide), ?_⟩
  rw [axes_ofLine]
  decide +kernel

end TritonCpu.AxisAnalysis
