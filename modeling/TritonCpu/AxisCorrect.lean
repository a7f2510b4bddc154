import TritonCpu.AxisInfo

/-!
# Correct axis info

An info is correct for a tensor if it is correct along every line: the aligned
groups of `contiguity` elements grow by one step, the first element of each is
a multiple of `divisibility`, the groups of `constancy` elements are equal, and
a known constant is, at the width of the elements, every element. The step is 1
for integers and the element size for pointers.
-/

set_option autoImplicit false

namespace TritonCpu.AxisAnalysis
open PowerOfTwo AlignedGroups TritonIR

section Lines

variable {w : ℕ}

/-- What a contiguity, a divisibility and a constancy say of a line of `n`
elements. -/
structure LineCorrect (step : BitVec w) (c d k : Pow2) (f : ℕ → BitVec w) (n : ℕ) : Prop where
  contiguity : Contiguous c.val step f n
  divisibility : Heads c.val (Multiple d) f n
  constancy : Constant k.val f n

instance (step : BitVec w) (c d k : Pow2) (f : ℕ → BitVec w) (n : ℕ) :
    Decidable (LineCorrect step c d k f n) :=
  decidable_of_iff (Contiguous c.val step f n ∧ Heads c.val (Multiple d) f n ∧ Constant k.val f n)
    ⟨fun h => ⟨h.1, h.2.1, h.2.2⟩, fun h => ⟨h.contiguity, h.divisibility, h.constancy⟩⟩

variable {step : BitVec w} {c d k : Pow2} {f g : ℕ → BitVec w} {n p : ℕ}

theorem LineCorrect.head (h : LineCorrect step c d k f n) (hp : p < n) :
    Multiple d (f (groupStart c.val p)) :=
  h.divisibility _ (Nat.lt_of_le_of_lt (groupStart_le c.val p) hp) (dvd_groupStart c.val p)

theorem LineCorrect.value (h : LineCorrect step c d k f n) (hp : p < n) :
    f p = f (groupStart c.val p) + step * ((p % c.val : ℕ) : BitVec w) := h.contiguity p hp

/-- An element is a multiple of a divisor of `divisibility` exactly when its
offset in the group is. -/
theorem LineCorrect.multiple_iff {e : Pow2} (h : LineCorrect step c d k f n) (hp : p < n)
    (he : e.val ∣ d.val) : Multiple e (f p) ↔ Multiple e (step * ((p % c.val : ℕ) : BitVec w)) := by
  rw [h.value hp]
  exact multiple_add_iff ((h.head hp).mono he)

theorem LineCorrect.congr (h : LineCorrect step c d k f n) (heq : ∀ p < n, g p = f p) :
    LineCorrect step c d k g n := by
  constructor
  · exact h.contiguity.congr heq
  · intro p hp hdvd
    rw [heq p hp]
    exact h.divisibility p hp hdvd
  · intro p hp
    rw [heq p hp, heq _ (Nat.lt_of_le_of_lt (groupStart_le k.val p) hp)]
    exact h.constancy p hp

theorem setWidth_multiple {a : Pow2} {c : BitVec 64} (h : a.val ∣ c.toNat) :
    Multiple a (c.setWidth w) := by
  obtain ⟨j, hj⟩ := a.isPow
  unfold Multiple
  rw [hj] at h ⊢
  rw [BitVec.toNat_setWidth]
  rcases Nat.le_total j w with hw | hw
  · exact (Nat.dvd_mod_iff (Nat.pow_dvd_pow 2 hw)).mpr h
  · rw [Nat.mod_eq_zero_of_dvd (Nat.dvd_trans (Nat.pow_dvd_pow 2 hw) h)]
    exact Nat.dvd_zero _

theorem highestPowOf2Divisor_dvd (c : BitVec 64) : (highestPowOf2Divisor c).val ∣ c.toNat := by
  unfold highestPowOf2Divisor
  split_ifs with h
  · rcases h with rfl | rfl
    · exact Nat.dvd_zero _
    · show 2 ^ 62 ∣ intMin.toNat
      decide
  · obtain ⟨j, hj, hdvd⟩ := lowestSetBit_eq (fun h0 => h (Or.inl h0))
    show (lowestSetBit c).toNat ∣ c.toNat
    rw [hj]
    exact hdvd

theorem multiple_highestPowOf2Divisor (c : BitVec 64) :
    Multiple (highestPowOf2Divisor c) (c.setWidth w) :=
  setWidth_multiple (highestPowOf2Divisor_dvd c)

theorem lineCorrect_equal {a : BitVec w} (h : ∀ p < n, f p = a) (hd : Multiple d a) :
    LineCorrect step 1 d k f n := by
  constructor
  · exact contiguous_one step f n
  · intro p hp _
    rw [h p hp]
    exact hd
  · apply constant_of_forall
    intro p hp
    rw [h p hp, h 0 (Nat.lt_of_le_of_lt (Nat.zero_le p) hp)]

theorem multiplyDivisor_dvd (a b : Pow2) : (multiplyDivisor a b).val ∣ (a.mul b).val := by
  unfold multiplyDivisor
  split_ifs with h
  · rw [Pow2.dvd_iff_le]
    by_contra hlt
    have hle : a.val * b.val ≤ maxDivisor.val := Nat.le_of_lt (Nat.lt_of_not_le hlt)
    exact absurd ((Nat.le_div_iff_mul_le b.pos).mpr hle) (Nat.not_le_of_gt h)
  · exact dvd_rfl

theorem multiple_multiplyDivisor {a b : Pow2} {x y : BitVec w} (hx : Multiple a x)
    (hy : Multiple b y) : Multiple (multiplyDivisor a b) (x * y) :=
  (hx.mul hy).mono (multiplyDivisor_dvd a b)

end Lines

section IntLines

variable {rank w : ℕ} {lhs rhs info : AxisInfo rank} {d : Fin rank} {f g : ℕ → BitVec w} {n : ℕ}

/-- What the entries of a dimension say of a line of integers. -/
abbrev IntLine (info : AxisInfo rank) (d : Fin rank) (f : ℕ → BitVec w) (n : ℕ) : Prop :=
  LineCorrect 1 (info.contiguity d) (info.divisibility d) (info.constancy d) f n

theorem isKnown_iff {c : BitVec 64} : isKnown info c = true ↔ info.constantValue = some c := by
  rw [isKnown, decide_eq_true_eq]

theorem constancy_gcd {β : Type} (op : BitVec w → BitVec w → β) (hf : IntLine lhs d f n)
    (hg : IntLine rhs d g n) :
    Constant (gcd (lhs.constancy d) (rhs.constancy d)).val (fun p => op (f p) (g p)) n :=
  (hf.constancy.mono (gcd_dvd_left _ _)).map₂ (hg.constancy.mono (gcd_dvd_right _ _)) op

end IntLines

section Tensors

variable {rank w : ℕ}

abbrev Tensor (rank w : ℕ) := (Fin rank → ℕ) → BitVec w

def InBounds (shape : Shape rank) (i : Fin rank → ℕ) : Prop := ∀ d, i d < (shape d).val

def line (x : Tensor rank w) (i : Fin rank → ℕ) (d : Fin rank) : ℕ → BitVec w :=
  fun p => x (Function.update i d p)

def AxesCorrect (shape : Shape rank) (step : BitVec w) (x : Tensor rank w) (info : AxisInfo rank) :
    Prop :=
  ∀ i, InBounds shape i → ∀ d, LineCorrect step (info.contiguity d) (info.divisibility d)
    (info.constancy d) (line x i d) (shape d).val

structure Correct (shape : Shape rank) (step : BitVec w) (x : Tensor rank w)
    (info : AxisInfo rank) : Prop where
  axes : AxesCorrect shape step x info
  constant : ∀ c, info.constantValue = some c → ∀ i, InBounds shape i → x i = c.setWidth w

variable {shape : Shape rank} {step : BitVec w} {x y : Tensor rank w} {info lhs rhs : AxisInfo rank}

theorem inBounds_update {i : Fin rank → ℕ} (h : InBounds shape i) {d : Fin rank} {p : ℕ}
    (hp : p < (shape d).val) : InBounds shape (Function.update i d p) := by
  intro e
  by_cases he : e = d
  · subst he
    rw [Function.update_self]
    exact hp
  · rw [Function.update_of_ne he]
    exact h e

theorem inBounds_zero (shape : Shape rank) : InBounds shape fun _ => 0 := fun d => (shape d).pos

theorem Correct.line_constant {c : BitVec 64} (h : Correct shape step x info)
    (hc : info.constantValue = some c) {i : Fin rank → ℕ} (hi : InBounds shape i) (d : Fin rank) :
    ∀ p < (shape d).val, line x i d p = c.setWidth w :=
  fun _ hp => h.constant c hc _ (inBounds_update hi hp)

theorem forall_positions (shape : Shape rank) {P : Fin rank → ℕ → Prop} :
    (∀ i, InBounds shape i → ∀ d, ∀ p < (shape d).val, P d p) ↔
      ∀ d, ∀ p < (shape d).val, P d p := by
  constructor
  · exact fun h => h _ (inBounds_zero shape)
  · exact fun h i _ => h

theorem foldConstants_eq_some {op : BitVec 64 → BitVec 64 → BitVec 64} {c : BitVec 64}
    (h : foldConstants op lhs rhs = some c) :
    ∃ l r, lhs.constantValue = some l ∧ rhs.constantValue = some r ∧ c = op l r := by
  unfold foldConstants at h
  split at h
  next l r hl hr =>
    cases h
    exact ⟨l, r, hl, hr, rfl⟩
  · cases h

theorem foldConstants_of_some {op : BitVec 64 → BitVec 64 → BitVec 64} {l r : BitVec 64}
    (hl : lhs.constantValue = some l) (hr : rhs.constantValue = some r) :
    foldConstants op lhs rhs = some (op l r) := by
  rw [foldConstants, hl, hr]

theorem foldConstants_eq_none {op : BitVec 64 → BitVec 64 → BitVec 64}
    (h : foldConstants op lhs rhs = none) :
    lhs.constantValue = none ∨ rhs.constantValue = none := by
  cases hl : lhs.constantValue with
  | none => exact Or.inl rfl
  | some l =>
    cases hr : rhs.constantValue with
    | none => exact Or.inr rfl
    | some r =>
      rw [foldConstants_of_some hl hr] at h
      cases h

theorem getAxisInfo_known {visitor : BinaryOpVisitorImpl rank} {c : BitVec 64}
    (h : visitor.getConstantValue lhs rhs = some c) : visitor.getAxisInfo lhs rhs =
      { contiguity := fun _ => 1
        divisibility := fun _ => highestPowOf2Divisor c
        constancy := fun d => Pow2.max (lhs.constancy d) (rhs.constancy d)
        constantValue := some c } := by
  rw [BinaryOpVisitorImpl.getAxisInfo, h]

theorem getAxisInfo_unknown {visitor : BinaryOpVisitorImpl rank}
    (h : visitor.getConstantValue lhs rhs = none) : visitor.getAxisInfo lhs rhs =
      { contiguity := visitor.getContiguity lhs rhs
        divisibility := visitor.getDivisibility lhs rhs
        constancy := visitor.getConstancy lhs rhs
        constantValue := none } := by
  rw [BinaryOpVisitorImpl.getAxisInfo, h]

theorem axes_known {visitor : BinaryOpVisitorImpl rank} {c : BitVec 64}
    (h : visitor.getConstantValue lhs rhs = some c)
    (hx : ∀ i, InBounds shape i → x i = c.setWidth w) :
    AxesCorrect shape step x (visitor.getAxisInfo lhs rhs) := by
  intro i hi d
  rw [getAxisInfo_known h]
  exact lineCorrect_equal (fun p hp => hx _ (inBounds_update hi hp))
    (multiple_highestPowOf2Divisor c)

def ofLine (f : ℕ → BitVec w) : Tensor 1 w := fun i => f (i 0)

def lineInfo (c d k : ℕ) (constantValue : Option (BitVec 64)) : AxisInfo 1 where
  contiguity := fun _ => .ofExponent c
  divisibility := fun _ => .ofExponent d
  constancy := fun _ => .ofExponent k
  constantValue := constantValue

theorem line_ofLine (f : ℕ → BitVec w) (i : Fin 1 → ℕ) (d : Fin 1) : line (ofLine f) i d = f := by
  rw [Subsingleton.elim d 0]
  funext p
  simp [line, ofLine]

theorem axes_ofLine {n : Pow2} {step : BitVec w} {info : AxisInfo 1} {f : ℕ → BitVec w} :
    AxesCorrect (fun _ => n) step (ofLine f) info ↔
      LineCorrect step (info.contiguity 0) (info.divisibility 0) (info.constancy 0) f n.val := by
  constructor
  · intro h
    have h0 := h _ (inBounds_zero _) 0
    rwa [line_ofLine] at h0
  · intro h i _ d
    rw [line_ofLine, Subsingleton.elim d 0]
    exact h

theorem correct_ofLine {n : Pow2} {step : BitVec w} {c d k : ℕ} {f : ℕ → BitVec w}
    (h : LineCorrect step (.ofExponent c) (.ofExponent d) (.ofExponent k) f n.val) :
    Correct (fun _ => n) step (ofLine f) (lineInfo c d k none) :=
  ⟨axes_ofLine.mpr h, fun _ hc => by cases hc⟩

end Tensors

end TritonCpu.AxisAnalysis
