import TritonCpu.AxisCorrect

/-!
# Selections

A select takes each element from one of two tensors. With one condition for
each element its visitor reduces the divisibility together with the groups.
With one condition for the whole tensor, and for a maximum or a minimum, it
keeps the smaller divisibility although the groups shrink, and the groups of a
maximum are right only where the order of the operands is kept inside them.
-/

set_option autoImplicit false

namespace TritonCpu.AxisAnalysis
open PowerOfTwo AlignedGroups TritonIR

namespace MaxMinOp

variable {w : ℕ}

def apply : MaxMinOp → BitVec w → BitVec w → BitVec w
  | .maxsi, x, y => if x.slt y then y else x
  | .maxui, x, y => if x.ult y then y else x
  | .minsi, x, y => if x.slt y then x else y
  | .minui, x, y => if x.ult y then x else y

def less : MaxMinOp → BitVec w → BitVec w → Bool
  | .maxsi, x, y | .minsi, x, y => x.slt y
  | .maxui, x, y | .minui, x, y => x.ult y

def takesLeft : MaxMinOp → BitVec w → BitVec w → Bool
  | .maxsi, x, y => !x.slt y
  | .maxui, x, y => !x.ult y
  | .minsi, x, y => x.slt y
  | .minui, x, y => x.ult y

theorem apply_eq (op : MaxMinOp) (x y : BitVec w) :
    op.apply x y = if op.takesLeft x y then x else y := by
  cases op with
  | maxsi => cases h : x.slt y <;> simp [apply, takesLeft, h]
  | maxui => cases h : x.ult y <;> simp [apply, takesLeft, h]
  | minsi => rfl
  | minui => rfl

theorem takesLeft_congr (op : MaxMinOp) {x y x' y' : BitVec w}
    (h : op.less x y = op.less x' y') : op.takesLeft x y = op.takesLeft x' y' := by
  cases op with
  | maxsi => exact congrArg (!·) h
  | maxui => exact congrArg (!·) h
  | minsi => exact h
  | minui => exact h

theorem less_of_takesLeft (op : MaxMinOp) {x y x' y' : BitVec w}
    (h : op.takesLeft x y = op.takesLeft x' y') : op.less x y = op.less x' y' := by
  cases op with
  | maxsi => exact Bool.not_inj h
  | maxui => exact Bool.not_inj h
  | minsi => exact h
  | minui => exact h

theorem less_self (op : MaxMinOp) (x : BitVec w) : op.less x x = false := by
  cases op <;> simp [less, BitVec.slt, BitVec.ult]

end MaxMinOp

section Lines

variable {w : ℕ} {step : BitVec w} {c d k c' d' k' m : Pow2} {f g : ℕ → BitVec w} {n : ℕ}

/-- Inside groups that both lines have, a choice that is made once for a group
gives a contiguous group. -/
theorem contiguous_choice {b : ℕ → Bool} (hf : Contiguous m.val step f n)
    (hg : Contiguous m.val step g n) (hb : Constant m.val b n) :
    Contiguous m.val step (fun p => if b p then f p else g p) n := by
  intro p hp
  show (if b p then f p else g p) = (if b (groupStart m.val p) then f _ else g _) + _
  rw [← hb p hp]
  split_ifs
  · exact hf p hp
  · exact hg p hp

theorem constant_choice {b : ℕ → Bool} {j : ℕ} (hf : Constant j f n) (hg : Constant j g n)
    (hb : Constant j b n) : Constant j (fun p => if b p then f p else g p) n := by
  intro p hp
  show (if b p then f p else g p) = (if b (groupStart j p) then f _ else g _)
  rw [← hb p hp, ← hf p hp, ← hg p hp]

/-- A maximum or minimum is contiguous exactly when the order of the operands is
kept inside the groups. -/
theorem contiguous_maxMin_iff (op : MaxMinOp) (hf : Contiguous m.val step f n)
    (hg : Contiguous m.val step g n) :
    Contiguous m.val step (fun p => op.apply (f p) (g p)) n ↔
      ∀ p < n, op.less (f p) (g p) = op.less (f (groupStart m.val p)) (g (groupStart m.val p)) := by
  have happly : (fun p => op.apply (f p) (g p)) =
      fun p => if op.takesLeft (f p) (g p) then f p else g p := by
    funext p
    exact op.apply_eq _ _
  rw [happly]
  constructor
  · intro h p hp
    have hvalue := h p hp
    have hfp := hf p hp
    have hgp := hg p hp
    -- equal elements start from equal heads
    have hsame : f p = g p → f (groupStart m.val p) = g (groupStart m.val p) := by
      intro heq
      rw [hfp, hgp] at heq
      exact add_right_cancel heq
    have hne : op.less (f p) (g p) ≠ op.less (f (groupStart m.val p)) (g (groupStart m.val p)) →
        f p ≠ g p := by
      intro hless heq
      rw [heq, hsame heq, op.less_self, op.less_self] at hless
      exact hless rfl
    by_contra hless
    apply hne hless
    have htakes : op.takesLeft (f p) (g p) ≠
        op.takesLeft (f (groupStart m.val p)) (g (groupStart m.val p)) :=
      fun h' => hless (op.less_of_takesLeft h')
    change (if op.takesLeft (f p) (g p) then f p else g p) =
      (if op.takesLeft (f (groupStart m.val p)) (g (groupStart m.val p)) then _ else _) + _ at hvalue
    cases hleft : op.takesLeft (f p) (g p) with
    | true =>
      cases hhead : op.takesLeft (f (groupStart m.val p)) (g (groupStart m.val p)) with
      | true => exact absurd (hleft.trans hhead.symm) htakes
      | false =>
        rw [hleft, hhead, if_pos rfl, if_neg Bool.false_ne_true, ← hgp] at hvalue
        exact hvalue
    | false =>
      cases hhead : op.takesLeft (f (groupStart m.val p)) (g (groupStart m.val p)) with
      | true =>
        rw [hleft, hhead, if_pos rfl, if_neg Bool.false_ne_true, ← hfp] at hvalue
        exact hvalue.symm
      | false => exact absurd (hleft.trans hhead.symm) htakes
  · intro h
    exact contiguous_choice hf hg fun p hp => op.takesLeft_congr (h p hp)

theorem multiple_choice_iff {e : Pow2} {p : ℕ} (b : Bool) (hf : LineCorrect step c d k f n)
    (hg : LineCorrect step c' d' k' g n) (hp : p < n) (hel : e.val ∣ d.val) (her : e.val ∣ d'.val) :
    Multiple e (if b then f p else g p) ↔
      Multiple e (step * ((p % (if b then c else c').val : ℕ) : BitVec w)) := by
  cases b with
  | true => exact hf.multiple_iff hp hel
  | false => exact hg.multiple_iff hp her

theorem multiple_step_mul {e : Pow2} (j : ℕ) (h : e.val ∣ j) : Multiple e (step * (j : BitVec w)) :=
  (multiple_natCast e j h).mul_left step

end Lines

/-- A condition for the whole tensor is one bit; the other one has its constancy.
A known condition is its lowest bit. -/
structure CondCorrect {rank : ℕ} (i1Cond : Bool) (shape : Shape rank) (cond : Tensor rank 1)
    (condInfo : AxisInfo rank) : Prop where
  scalar : i1Cond = true → ∀ i j, cond i = cond j
  constancy : i1Cond = false → ∀ i, InBounds shape i → ∀ d,
    Constant (condInfo.constancy d).val (line cond i d) (shape d).val
  constant : ∀ c, condInfo.constantValue = some c → ∀ i, InBounds shape i → cond i = c.setWidth 1

inductive SelectionOp (rank : ℕ) where
  | select (i1Cond : Bool) (cond : Tensor rank 1) (condInfo : AxisInfo rank)
  | maxMin (op : MaxMinOp)

namespace SelectionOp

variable {rank w : ℕ}

def apply : SelectionOp rank → Tensor rank w → Tensor rank w → Tensor rank w
  | .select _ cond _, x, y => fun i => if cond i = 1 then x i else y i
  | .maxMin op, x, y => fun i => op.apply (x i) (y i)

def getAxisInfo : SelectionOp rank → AxisInfo rank → AxisInfo rank → AxisInfo rank
  | .select i1Cond _ condInfo, lhs, rhs => selectAxisInfo i1Cond condInfo lhs rhs
  | .maxMin op, lhs, rhs => maxMinAxisInfo op lhs rhs

def CondProper (shape : Shape rank) : SelectionOp rank → Prop
  | .select i1Cond cond condInfo => CondCorrect i1Cond shape cond condInfo
  | .maxMin _ => True

/-- The offsets, in the groups of an operand, of the heads of the shorter groups
keep the smaller divisibility. -/
def HeadsMeet (step : BitVec w) (lhs rhs info : AxisInfo rank) (d : Fin rank) (p : ℕ) : Prop :=
  (Pow2.min (lhs.contiguity d) (rhs.contiguity d)).val ∣ p →
    Multiple (Pow2.min (lhs.divisibility d) (rhs.divisibility d))
      (step * ((p % (info.contiguity d).val : ℕ) : BitVec w))

def Meets (op : SelectionOp rank) (shape : Shape rank) (step : BitVec w) (x y : Tensor rank w)
    (lhs rhs : AxisInfo rank) : Prop :=
  match op with
  | .select i1Cond cond condInfo =>
    match condInfo.constantValue with
    | some c => c ≠ 0 → c.setWidth 1 = 0#1 → AxesCorrect shape step y lhs
    | none => i1Cond = true → ∀ d, ∀ p < (shape d).val,
        HeadsMeet step lhs rhs (if cond (fun _ => 0) = 1 then lhs else rhs) d p
  | .maxMin op => (lhs.constantValue.isSome ∧ rhs.constantValue.isSome) ∨
      ∀ i, InBounds shape i → ∀ d, ∀ p < (shape d).val,
        let head := groupStart (Pow2.min (lhs.contiguity d) (rhs.contiguity d)).val p
        op.less (line x i d p) (line y i d p) = op.less (line x i d head) (line y i d head) ∧
          HeadsMeet step lhs rhs (if op.takesLeft (line x i d p) (line y i d p) then lhs else rhs) d p

end SelectionOp

section Tensors

variable {rank w : ℕ} {shape : Shape rank} {step : BitVec w} {x y : Tensor rank w}
  {lhs rhs condInfo : AxisInfo rank} {cond : Tensor rank 1}

open SelectionOp

theorem axes_min_iff {z : Tensor rank w} {info : AxisInfo rank} (hz : AxesCorrect shape step z info)
    (hc : ∀ d, (Pow2.min (lhs.contiguity d) (rhs.contiguity d)).val ∣ (info.contiguity d).val)
    (hd : ∀ d, (Pow2.min (lhs.divisibility d) (rhs.divisibility d)).val ∣ (info.divisibility d).val)
    (hk : ∀ d, (Pow2.min (lhs.constancy d) (rhs.constancy d)).val ∣ (info.constancy d).val) :
    (∀ i, InBounds shape i → ∀ d, LineCorrect step (Pow2.min (lhs.contiguity d) (rhs.contiguity d))
        (Pow2.min (lhs.divisibility d) (rhs.divisibility d))
        (Pow2.min (lhs.constancy d) (rhs.constancy d)) (line z i d) (shape d).val) ↔
      ∀ d, ∀ p < (shape d).val, HeadsMeet step lhs rhs info d p := by
  rw [← forall_positions shape]
  refine forall_congr' fun i => forall_congr' fun hi => forall_congr' fun d => ?_
  have hline := hz i hi d
  constructor
  · intro h p hp hdvd
    rw [← hline.multiple_iff hp (hd d)]
    exact h.divisibility p hp hdvd
  · intro h
    constructor
    · exact hline.contiguity.mono (hc d)
    · intro p hp hdvd
      rw [hline.multiple_iff hp (hd d)]
      exact h p hp hdvd
    · exact hline.constancy.mono (hk d)

theorem axes_select_scalar (hx : Correct shape step x lhs) (hy : Correct shape step y rhs)
    (hcond : CondCorrect true shape cond condInfo) (hnone : condInfo.constantValue = none) :
    AxesCorrect shape step (fun i => if cond i = 1 then x i else y i)
        (selectAxisInfo true condInfo lhs rhs) ↔
      ∀ d, ∀ p < (shape d).val,
        HeadsMeet step lhs rhs (if cond (fun _ => 0) = 1 then lhs else rhs) d p := by
  simp only [selectAxisInfo, hnone, if_pos]
  by_cases hbit : cond (fun _ => 0) = 1
  · have hall : (fun i => if cond i = 1 then x i else y i) = x := by
      funext i
      rw [hcond.scalar rfl i (fun _ => 0), if_pos hbit]
    rw [hall, if_pos hbit]
    exact axes_min_iff hx.axes (fun _ => Pow2.min_dvd_left _ _) (fun _ => Pow2.min_dvd_left _ _)
      (fun _ => Pow2.min_dvd_left _ _)
  · have hall : (fun i => if cond i = 1 then x i else y i) = y := by
      funext i
      rw [hcond.scalar rfl i (fun _ => 0), if_neg hbit]
    rw [hall, if_neg hbit]
    exact axes_min_iff hy.axes (fun _ => Pow2.min_dvd_right _ _) (fun _ => Pow2.min_dvd_right _ _)
      (fun _ => Pow2.min_dvd_right _ _)

theorem axes_select_tensor (hx : Correct shape step x lhs) (hy : Correct shape step y rhs)
    (hcond : CondCorrect false shape cond condInfo) (hnone : condInfo.constantValue = none) :
    AxesCorrect shape step (fun i => if cond i = 1 then x i else y i)
      (selectAxisInfo false condInfo lhs rhs) := by
  simp only [selectAxisInfo, hnone, Bool.false_eq_true, if_false]
  intro i hi d
  have hf := hx.axes i hi d
  have hg := hy.axes i hi d
  have hline : line (fun i => if cond i = 1 then x i else y i) i d = fun p =>
      if decide (line cond i d p = 1) then line x i d p else line y i d p := by
    funext p
    show (if line cond i d p = 1 then line x i d p else line y i d p) = _
    by_cases hbit : line cond i d p = 1
    · rw [if_pos hbit, if_pos (decide_eq_true hbit)]
    · rw [if_neg hbit, if_neg (fun h => hbit (of_decide_eq_true h))]
  have hbits : ∀ j, j ∣ (condInfo.constancy d).val →
      Constant j (fun p => decide (line cond i d p = 1)) (shape d).val := by
    intro j hj p hp
    show decide (line cond i d p = 1) = decide (line cond i d _ = 1)
    rw [((hcond.constancy rfl i hi d).mono hj) p hp]
  -- what the shorter groups divide
  have hcl : (Pow2.min (gcd (lhs.contiguity d) (condInfo.constancy d))
      (gcd (rhs.contiguity d) (condInfo.constancy d))).val ∣ (lhs.contiguity d).val :=
    (Pow2.min_dvd_left _ _).trans (gcd_dvd_left _ _)
  have hcr : (Pow2.min (gcd (lhs.contiguity d) (condInfo.constancy d))
      (gcd (rhs.contiguity d) (condInfo.constancy d))).val ∣ (rhs.contiguity d).val :=
    (Pow2.min_dvd_right _ _).trans (gcd_dvd_left _ _)
  rw [hline]
  constructor
  · exact contiguous_choice (hf.contiguity.mono hcl) (hg.contiguity.mono hcr)
      (hbits _ ((Pow2.min_dvd_left _ _).trans (gcd_dvd_right _ _)))
  · intro p hp hdvd
    simp only
    split_ifs with hsame hbit hbit
    · apply (hf.divisibility p hp (by rwa [← hsame.1])).mono
      exact gcd_dvd_left _ _
    · apply (hg.divisibility p hp (by rwa [← hsame.2])).mono
      exact gcd_dvd_right _ _
    · rw [hf.multiple_iff hp ((Pow2.min_dvd_left _ _).trans (gcd_dvd_left _ _))]
      apply multiple_step_mul
      apply ((Pow2.min_dvd_left _ _).trans (gcd_dvd_right _ _)).trans
      exact (Nat.dvd_mod_iff hcl).mpr hdvd
    · rw [hg.multiple_iff hp ((Pow2.min_dvd_right _ _).trans (gcd_dvd_left _ _))]
      apply multiple_step_mul
      apply ((Pow2.min_dvd_right _ _).trans (gcd_dvd_right _ _)).trans
      exact (Nat.dvd_mod_iff hcr).mpr hdvd
  · exact constant_choice
      (hf.constancy.mono ((Pow2.min_dvd_left _ _).trans (gcd_dvd_left _ _)))
      (hg.constancy.mono ((Pow2.min_dvd_right _ _).trans (gcd_dvd_left _ _)))
      (hbits _ ((Pow2.min_dvd_left _ _).trans (gcd_dvd_right _ _)))

theorem axes_select_known {i1Cond : Bool} {c : BitVec 64} (hx : Correct shape step x lhs)
    (hy : Correct shape step y rhs) (hcond : CondCorrect i1Cond shape cond condInfo)
    (hsome : condInfo.constantValue = some c) :
    AxesCorrect shape step (fun i => if cond i = 1 then x i else y i)
        (selectAxisInfo i1Cond condInfo lhs rhs) ↔
      (c ≠ 0 → c.setWidth 1 = 0#1 → AxesCorrect shape step y lhs) := by
  have hchoice : ∀ z : Tensor rank w, (∀ i, InBounds shape i →
      (if cond i = 1 then x i else y i) = z i) → ∀ info, AxesCorrect shape step z info →
        AxesCorrect shape step (fun i => if cond i = 1 then x i else y i) info := by
    intro z hz info hinfo i hi d
    exact (hinfo i hi d).congr fun p hp => hz _ (inBounds_update hi hp)
  have hinfo : selectAxisInfo i1Cond condInfo lhs rhs = if c = 0 then rhs else lhs := by
    rw [selectAxisInfo, hsome]
  rw [hinfo]
  by_cases hzero : c = 0
  · rw [if_pos hzero]
    apply iff_of_true
    · apply hchoice y _ rhs hy.axes
      intro i hi
      have hbit : cond i = 0#1 := by
        rw [hcond.constant c hsome i hi, hzero]
        rfl
      rw [hbit, if_neg (by decide)]
    · exact fun h => absurd hzero h
  · rw [if_neg hzero]
    rcases Nat.lt_or_ge 0 (c.setWidth 1).toNat with hpos | hle
    · have hone : c.setWidth 1 = 1#1 := by
        apply BitVec.eq_of_toNat_eq
        have := (c.setWidth 1).isLt
        show _ = 1
        omega
      apply iff_of_true
      · apply hchoice x _ lhs hx.axes
        intro i hi
        rw [hcond.constant c hsome i hi, hone]
        exact if_pos rfl
      · rw [hone]
        exact fun _ h => absurd h (by decide)
    · have hbit : c.setWidth 1 = 0#1 := BitVec.eq_of_toNat_eq (by
        show _ = 0
        omega)
      have hy' : ∀ i, InBounds shape i → (if cond i = 1 then x i else y i) = y i := by
        intro i hi
        rw [hcond.constant c hsome i hi, hbit, if_neg (by decide)]
      constructor
      · intro h _ _ i hi d
        exact (h i hi d).congr fun p hp => (hy' _ (inBounds_update hi hp)).symm
      · exact fun h => hchoice y hy' lhs (h hzero hbit)

theorem axes_maxMin (op : MaxMinOp) (hx : Correct shape step x lhs)
    (hy : Correct shape step y rhs) :
    AxesCorrect shape step (fun i => op.apply (x i) (y i)) (maxMinAxisInfo op lhs rhs) ↔
      (SelectionOp.maxMin op).Meets shape step x y lhs rhs := by
  unfold SelectionOp.Meets maxMinAxisInfo
  cases hfold : foldConstants op.fold lhs rhs with
  | some v =>
    obtain ⟨l, r, hl, hr, -⟩ := foldConstants_eq_some hfold
    apply iff_of_true
    · intro i hi d
      apply lineCorrect_equal _ (multiple_one _)
      · exact op.apply (l.setWidth w) (r.setWidth w)
      · intro p hp
        show op.apply (line x i d p) (line y i d p) = _
        rw [hx.line_constant hl hi d p hp, hy.line_constant hr hi d p hp]
    · left
      rw [hl, hr]
      exact ⟨rfl, rfl⟩
  | none =>
    have hnot : ¬ (lhs.constantValue.isSome ∧ rhs.constantValue.isSome) := by
      rintro ⟨hl, hr⟩
      rcases foldConstants_eq_none hfold with h | h
      · rw [h] at hl
        cases hl
      · rw [h] at hr
        cases hr
    simp only
    rw [or_iff_right hnot]
    refine forall_congr' fun i => forall_congr' fun hi => forall_congr' fun d => ?_
    have hf := hx.axes i hi d
    have hg := hy.axes i hi d
    have hcontiguous := contiguous_maxMin_iff op
      (hf.contiguity.mono (Pow2.min_dvd_left (lhs.contiguity d) (rhs.contiguity d)))
      (hg.contiguity.mono (Pow2.min_dvd_right (lhs.contiguity d) (rhs.contiguity d)))
    have hmultiple : ∀ p < (shape d).val,
        (Multiple (Pow2.min (lhs.divisibility d) (rhs.divisibility d))
          (op.apply (line x i d p) (line y i d p)) ↔
        Multiple (Pow2.min (lhs.divisibility d) (rhs.divisibility d)) (step *
          ((p % ((if op.takesLeft (line x i d p) (line y i d p) then lhs else rhs).contiguity d).val :
            ℕ) : BitVec w))) := by
      intro p hp
      rw [op.apply_eq]
      rw [multiple_choice_iff _ hf hg hp (Pow2.min_dvd_left _ _) (Pow2.min_dvd_right _ _)]
      split_ifs <;> exact Iff.rfl
    constructor
    · intro h p hp
      constructor
      · exact hcontiguous.mp h.contiguity p hp
      · intro hdvd
        exact (hmultiple p hp).mp (h.divisibility p hp hdvd)
    · intro h
      constructor
      · exact hcontiguous.mpr fun p hp => (h p hp).1
      · intro p hp hdvd
        exact (hmultiple p hp).mpr ((h p hp).2 hdvd)
      · exact (hf.constancy.mono (Pow2.min_dvd_left _ _)).map₂
          (hg.constancy.mono (Pow2.min_dvd_right _ _)) op.apply

end Tensors

/-- The visitors of selections are right exactly when, for a condition of the
whole tensor, the operand taken keeps the smaller divisibility at the shorter
groups and a known condition is odd or zero, and, for a maximum or a minimum,
the operands keep their order inside the shorter groups as well. -/
theorem selection_correct_iff {rank w : ℕ} (op : SelectionOp rank) (shape : Shape rank)
    (step : BitVec w) (x y : Tensor rank w) (lhs rhs : AxisInfo rank)
    (hx : Correct shape step x lhs) (hy : Correct shape step y rhs) (hcond : op.CondProper shape) :
    AxesCorrect shape step (op.apply x y) (op.getAxisInfo lhs rhs) ↔
      op.Meets shape step x y lhs rhs := by
  cases op with
  | maxMin op => exact axes_maxMin op hx hy
  | select i1Cond cond condInfo =>
    have hcond : CondCorrect i1Cond shape cond condInfo := hcond
    show AxesCorrect shape step (fun i => if cond i = 1 then x i else y i)
      (selectAxisInfo i1Cond condInfo lhs rhs) ↔ _
    unfold SelectionOp.Meets
    cases hc : condInfo.constantValue with
    | some c =>
      simp only [hc]
      exact axes_select_known hx hy hcond hc
    | none =>
      simp only [hc]
      cases i1Cond with
      | true =>
        rw [axes_select_scalar hx hy hcond hc]
        exact ⟨fun h _ => h, fun h => h rfl⟩
      | false =>
        exact iff_of_true (axes_select_tensor hx hy hcond hc) (fun h => absurd h Bool.false_ne_true)

/-- One unknown condition for `[8, ..., 15]` and `[16, ..., 23]`. -/
theorem selection_correct_iff_scalar :
    AxesCorrect (fun _ => .ofExponent 3) (1 : BitVec 32)
      ((SelectionOp.select true (fun _ => 1) (lineInfo 0 0 0 none)).apply
        (ofLine fun p => BitVec.ofNat 32 (8 + p)) (ofLine fun p => BitVec.ofNat 32 (16 + p)))
      ((SelectionOp.select true (fun _ => 1) (lineInfo 0 0 0 none)).getAxisInfo
        (lineInfo 3 3 0 none) (lineInfo 3 4 0 none)) :=
  (selection_correct_iff (.select true (fun _ => 1) (lineInfo 0 0 0 none)) _ _ _ _ _ _
    (correct_ofLine (by decide)) (correct_ofLine (by decide))
    ⟨fun _ _ _ => rfl, fun h => absurd h.symm Bool.false_ne_true, fun _ hc => by cases hc⟩).mpr
    fun _ d => by
      rw [Subsingleton.elim d 0]
      unfold SelectionOp.HeadsMeet
      decide +kernel

/-- One unknown condition for `[0, ..., 7]` and multiples of 8 without groups: 1 is
no multiple of 8. The maximum of `[0, ..., 7]` and 4: 5 is no multiple of 4. -/
theorem selection_incorrect :
    (Correct (fun _ => .ofExponent 3) (1 : BitVec 32) (ofLine fun p => BitVec.ofNat 32 p)
        (lineInfo 3 3 0 none) ∧
      Correct (fun _ => .ofExponent 3) (1 : BitVec 32) (ofLine fun p => BitVec.ofNat 32 (8 * (p % 2)))
        (lineInfo 0 3 0 none) ∧
      CondCorrect true (fun _ => .ofExponent 3) (fun _ => 1) (lineInfo 0 0 0 none) ∧
      ¬ AxesCorrect (fun _ => .ofExponent 3) (1 : BitVec 32)
        (fun i => if (1 : BitVec 1) = 1 then ofLine (fun p => BitVec.ofNat 32 p) i
          else ofLine (fun p => BitVec.ofNat 32 (8 * (p % 2))) i)
        (selectAxisInfo true (lineInfo 0 0 0 none) (lineInfo 3 3 0 none) (lineInfo 0 3 0 none))) ∧
    Correct (fun _ => .ofExponent 3) (1 : BitVec 32) (ofLine fun _ => 4) (lineInfo 0 2 3 none) ∧
      ¬ AxesCorrect (fun _ => .ofExponent 3) (1 : BitVec 32)
        (ofLine fun p => MaxMinOp.maxsi.apply (BitVec.ofNat 32 p) 4)
        (maxMinAxisInfo .maxsi (lineInfo 3 3 0 none) (lineInfo 0 2 3 none)) := by
  refine ⟨⟨correct_ofLine (by decide), correct_ofLine (by decide), ?_, ?_⟩,
    correct_ofLine (by decide), ?_⟩
  · exact ⟨fun _ _ _ => rfl, fun h => absurd h.symm Bool.false_ne_true, fun _ hc => by cases hc⟩
  · show ¬ AxesCorrect _ _ (ofLine fun p => BitVec.ofNat 32 p) _
    rw [axes_ofLine]
    decide +kernel
  · rw [axes_ofLine]
    decide +kernel

end TritonCpu.AxisAnalysis
