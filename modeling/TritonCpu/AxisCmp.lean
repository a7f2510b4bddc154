import TritonCpu.AxisCorrect
import TritonCpu.WordDivision

/-!
# Comparisons

A contiguous line that is compared with a constant one passes it between two
groups that divide both, as long as the values do not wrap inside a group. The
visitor relies on this for the strict predicate on each side and its negation.
-/

set_option autoImplicit false

namespace TritonCpu.AxisAnalysis
open PowerOfTwo AlignedGroups WordDivision TritonIR

section Words

variable {w : ℕ}

def cmpi : CmpIPredicate → BitVec w → BitVec w → Bool
  | .eq, x, y => x = y
  | .ne, x, y => x ≠ y
  | .slt, x, y => x.slt y
  | .sle, x, y => x.sle y
  | .sgt, x, y => y.slt x
  | .sge, x, y => y.sle x
  | .ult, x, y => x.ult y
  | .ule, x, y => x.ule y
  | .ugt, x, y => y.ult x
  | .uge, x, y => y.ule x

def isUnsigned (predicate : CmpIPredicate) : Bool :=
  predicate = .ult ∨ predicate = .ule ∨ predicate = .ugt ∨ predicate = .uge

def reading (predicate : CmpIPredicate) (x : BitVec w) : ℤ :=
  if isUnsigned predicate then x.toNat else x.toInt

theorem reading_dvd (predicate : CmpIPredicate) {e : Pow2} {x : BitVec w} (h : Multiple e x) :
    (e.val : ℤ) ∣ reading predicate x := by
  unfold reading
  split_ifs
  · exact Int.natCast_dvd_natCast.mpr h
  · obtain ⟨k, rfl⟩ := e.eq_ofExponent
    rcases Nat.le_total k w with hk | hk
    · have hdvd := (multiple_iff_toInt hk).mp h
      show ((2 ^ k : ℕ) : ℤ) ∣ _
      rwa [Nat.cast_pow]
    · have hzero : x.toNat = 0 := by
        apply Nat.eq_zero_of_dvd_of_lt h
        exact Nat.lt_of_lt_of_le x.isLt (Nat.pow_le_pow_right (by decide) hk)
      have hx : x = 0#w := BitVec.eq_of_toNat_eq (by simpa using hzero)
      rw [hx, BitVec.toInt_zero]
      exact dvd_zero _

theorem cmpi_gt {predicate : CmpIPredicate} (h : gtPredicate predicate = true) (x y : BitVec w) :
    cmpi predicate x y = decide (reading predicate y < reading predicate x) := by
  cases predicate <;> first | exact absurd h (by decide) | skip
  · exact BitVec.slt_eq_decide
  · show y.ult x = decide ((y.toNat : ℤ) < x.toNat)
    simp [BitVec.ult]

theorem cmpi_lt {predicate : CmpIPredicate} (h : ltPredicate predicate = true) (x y : BitVec w) :
    cmpi predicate x y = decide (reading predicate x < reading predicate y) := by
  cases predicate <;> first | exact absurd h (by decide) | skip
  · exact BitVec.slt_eq_decide
  · show x.ult y = decide ((x.toNat : ℤ) < y.toNat)
    simp [BitVec.ult]

theorem cmpi_le {predicate : CmpIPredicate} (h : lePredicate predicate = true) (x y : BitVec w) :
    cmpi predicate x y = !decide (reading predicate y < reading predicate x) := by
  cases predicate <;> first | exact absurd h (by decide) | skip
  · show x.sle y = !decide (y.toInt < x.toInt)
    rw [BitVec.sle_eq_decide, ← decide_not, decide_eq_decide]
    exact Int.not_lt.symm
  · show x.ule y = !decide ((y.toNat : ℤ) < x.toNat)
    rw [BitVec.ule, ← decide_not, decide_eq_decide]
    omega

theorem cmpi_ge {predicate : CmpIPredicate} (h : gePredicate predicate = true) (x y : BitVec w) :
    cmpi predicate x y = !decide (reading predicate x < reading predicate y) := by
  cases predicate <;> first | exact absurd h (by decide) | skip
  · exact @cmpi_le w .sle rfl y x
  · exact @cmpi_le w .ule rfl y x

end Words

theorem add_offset_lt_iff {k a b o : ℤ} (ha : k ∣ a) (hb : k ∣ b) (ho : 0 ≤ o) (hok : o < k) :
    b + o < a ↔ b < a := by
  constructor
  · omega
  · intro h
    obtain ⟨m, rfl⟩ := ha
    obtain ⟨j, rfl⟩ := hb
    have hk : 0 < k := by omega
    have hjm : j + 1 ≤ m := Int.lt_of_mul_lt_mul_left h hk.le
    have hle : k * (j + 1) ≤ k * m := Int.mul_le_mul_of_nonneg_left hjm hk.le
    rw [mul_add, mul_one] at hle
    omega

section Lines

variable {rank w : ℕ} {lhs rhs info : AxisInfo rank} {d : Fin rank} {f g : ℕ → BitVec w} {n : ℕ}

/-- The values that an order reads do not wrap inside the aligned groups. -/
def NoWrap (predicate : CmpIPredicate) (info : AxisInfo rank) (d : Fin rank) (f : ℕ → BitVec w)
    (n : ℕ) : Prop :=
  predicate = .eq ∨ predicate = .ne ∨ ∀ p < n, reading predicate (f p) =
    reading predicate (f (groupStart (info.contiguity d).val p)) + (p % (info.contiguity d).val : ℕ)

theorem constant_less (predicate : CmpIPredicate) {k : Pow2} (hf : IntLine lhs d f n)
    (hg : IntLine rhs d g n) (hwrap : ∀ p < n, reading predicate (g p) =
      reading predicate (g (groupStart (rhs.contiguity d).val p)) + (p % (rhs.contiguity d).val : ℕ))
    (hn : (lhs.constancy d).val = n) (hk : k.val ∣ (rhs.contiguity d).val)
    (hkl : k.val ∣ (lhs.divisibility d).val) (hkr : k.val ∣ (rhs.divisibility d).val) :
    Constant k.val (fun p => decide (reading predicate (g p) < reading predicate (f p))) n := by
  intro p hp
  have hq : groupStart k.val p < n := Nat.lt_of_le_of_lt (groupStart_le k.val p) hp
  have hzero : 0 < n := Nat.lt_of_le_of_lt (Nat.zero_le p) hp
  have hsame : ∀ q < n, f q = f 0 := by
    intro q hq
    have h := hf.constancy q hq
    rwa [hn, groupStart_of_lt hq] at h
  -- both start from multiples of the group length
  have hfirst : (k.val : ℤ) ∣ reading predicate (f 0) :=
    reading_dvd predicate ((hf.divisibility 0 hzero (Nat.dvd_zero _)).mono hkl)
  have hhead : (k.val : ℤ) ∣ reading predicate (g (groupStart k.val p)) := by
    apply reading_dvd predicate
    rw [hg.multiple_iff hq hkr, one_mul]
    exact multiple_natCast _ _ ((Nat.dvd_mod_iff hk).mpr (dvd_groupStart k.val p))
  have hvalue : reading predicate (g p) =
      reading predicate (g (groupStart k.val p)) + (p % k.val : ℕ) := by
    rw [hwrap p hp, hwrap _ hq, groupStart_groupStart hk, ← mod_groupStart hk p]
    push_cast
    ring
  show decide (reading predicate (g p) < reading predicate (f p)) =
    decide (reading predicate (g _) < reading predicate (f _))
  rw [hsame p hp, hsame _ hq, hvalue, decide_eq_decide]
  apply add_offset_lt_iff hfirst hhead (Int.natCast_nonneg _)
  exact Int.ofNat_lt.mpr (Nat.mod_lt p k.pos)

theorem constant_cmp (predicate : CmpIPredicate) (shape : Shape rank)
    (hf : IntLine lhs d f (shape d).val) (hg : IntLine rhs d g (shape d).val)
    (hfw : NoWrap predicate lhs d f (shape d).val) (hgw : NoWrap predicate rhs d g (shape d).val) :
    Constant (cmpConstHint predicate shape lhs rhs d).val (fun p => cmpi predicate (f p) (g p))
      (shape d).val := by
  have hbase := constancy_gcd (cmpi predicate) hf hg
  have horder : ∀ {P : CmpIPredicate → Bool}, (P .eq = false ∧ P .ne = false) → P predicate = true →
      ∀ {info : AxisInfo rank} {h : ℕ → BitVec w}, NoWrap predicate info d h (shape d).val →
        ∀ p < (shape d).val, reading predicate (h p) =
          reading predicate (h (groupStart (info.contiguity d).val p)) +
            (p % (info.contiguity d).val : ℕ) := by
    rintro P ⟨heq, hne⟩ hP info h (rfl | rfl | hwrap)
    · exact absurd (hP.symm.trans heq) (by decide)
    · exact absurd (hP.symm.trans hne) (by decide)
    · exact hwrap
  have hmax : ∀ {k : Pow2}, Constant k.val (fun p => cmpi predicate (f p) (g p)) (shape d).val →
      Constant (Pow2.max (gcd (lhs.constancy d) (rhs.constancy d)) k).val
        (fun p => cmpi predicate (f p) (g p)) (shape d).val := by
    intro k hk
    rcases Pow2.max_cases (gcd (lhs.constancy d) (rhs.constancy d)) k with h | h
    · rwa [h]
    · rwa [h]
  unfold cmpConstHint
  simp only
  split_ifs with hleft hright
  · -- the left line is constant and the right one grows
    obtain ⟨hpred, hconst⟩ := (Bool.and_eq_true _ _).mp hleft
    have hn : (lhs.constancy d).val = (shape d).val := congrArg Pow2.val (of_decide_eq_true hconst)
    apply hmax
    have hless := fun hwrap => constant_less predicate hf hg hwrap hn
      (gcd_dvd_left (rhs.contiguity d) (gcd (lhs.divisibility d) (rhs.divisibility d)))
      ((gcd_dvd_right _ _).trans (gcd_dvd_left _ _)) ((gcd_dvd_right _ _).trans (gcd_dvd_right _ _))
    rcases (Bool.or_eq_true _ _).mp hpred with hgt | hle
    · have hcmp : (fun p => cmpi predicate (f p) (g p)) = fun p =>
          decide (reading predicate (g p) < reading predicate (f p)) :=
        funext fun p => cmpi_gt hgt _ _
      rw [hcmp]
      exact hless (horder ⟨rfl, rfl⟩ hgt hgw)
    · have hcmp : (fun p => cmpi predicate (f p) (g p)) = fun p =>
          !decide (reading predicate (g p) < reading predicate (f p)) :=
        funext fun p => cmpi_le hle _ _
      rw [hcmp]
      exact fun p hp => congrArg (!·) (hless (horder ⟨rfl, rfl⟩ hle hgw) p hp)
  · -- the right line is constant and the left one grows
    obtain ⟨hpred, hconst⟩ := (Bool.and_eq_true _ _).mp hright
    have hn : (rhs.constancy d).val = (shape d).val := congrArg Pow2.val (of_decide_eq_true hconst)
    apply hmax
    have hless := fun hwrap => constant_less predicate hg hf hwrap hn
      (gcd_dvd_left (lhs.contiguity d) (gcd (lhs.divisibility d) (rhs.divisibility d)))
      ((gcd_dvd_right _ _).trans (gcd_dvd_right _ _)) ((gcd_dvd_right _ _).trans (gcd_dvd_left _ _))
    rcases (Bool.or_eq_true _ _).mp hpred with hlt | hge
    · have hcmp : (fun p => cmpi predicate (f p) (g p)) = fun p =>
          decide (reading predicate (f p) < reading predicate (g p)) :=
        funext fun p => cmpi_lt hlt _ _
      rw [hcmp]
      exact hless (horder ⟨rfl, rfl⟩ hlt hfw)
    · have hcmp : (fun p => cmpi predicate (f p) (g p)) = fun p =>
          !decide (reading predicate (f p) < reading predicate (g p)) :=
        funext fun p => cmpi_ge hge _ _
      rw [hcmp]
      exact fun p hp => congrArg (!·) (hless (horder ⟨rfl, rfl⟩ hge hfw) p hp)
  · exact hbase

end Lines

/-- The constancy of a comparison is right for every predicate, if no operand
wraps inside its groups. -/
theorem cmp_constancy {rank w : ℕ} (predicate : CmpIPredicate) (shape : Shape rank)
    (x y : Tensor rank w) (lhs rhs : AxisInfo rank) (hx : Correct shape 1 x lhs)
    (hy : Correct shape 1 y rhs)
    (hxw : ∀ i, InBounds shape i → ∀ d, NoWrap predicate lhs d (line x i d) (shape d).val)
    (hyw : ∀ i, InBounds shape i → ∀ d, NoWrap predicate rhs d (line y i d) (shape d).val)
    (hl : lhs.constantValue = none) (hr : rhs.constantValue = none) :
    ∀ i, InBounds shape i → ∀ d, Constant ((cmpAxisInfo predicate shape lhs rhs).constancy d).val
      (fun p => cmpi predicate (line x i d p) (line y i d p)) (shape d).val := by
  intro i hi d
  have hinfo : (cmpAxisInfo predicate shape lhs rhs).constancy =
      cmpConstHint predicate shape lhs rhs := by
    unfold cmpAxisInfo
    rw [hl, hr]
  rw [hinfo]
  exact constant_cmp predicate shape (hx.axes i hi d) (hy.axes i hi d) (hxw i hi d) (hyw i hi d)

/-- `[0, ..., 7]` below 4: two groups of 4. -/
theorem cmp_constancy_slt : Constant
    ((cmpAxisInfo .slt (fun _ => .ofExponent 3) (lineInfo 3 3 0 none)
      (lineInfo 0 2 3 none)).constancy 0).val
    (fun p => cmpi .slt (line (ofLine fun p => BitVec.ofNat 32 p) (fun _ => 0) 0 p)
      (line (ofLine fun _ => (4 : BitVec 32)) (fun _ => 0) 0 p)) (Pow2.ofExponent 3).val :=
  cmp_constancy .slt (fun _ => .ofExponent 3) _ _ _ _ (correct_ofLine (by decide))
    (correct_ofLine (by decide))
    (fun i _ d => by
      rw [line_ofLine, Subsingleton.elim d 0]
      exact Or.inr (Or.inr (by decide +kernel)))
    (fun i _ d => by
      rw [line_ofLine, Subsingleton.elim d 0]
      exact Or.inr (Or.inr (by decide +kernel))) rfl rfl (fun _ => 0) (inBounds_zero _) 0

end TritonCpu.AxisAnalysis
