import Mathlib.Algebra.Ring.Divisibility.Basic
import Mathlib.Data.BitVec
import Mathlib.Data.Nat.Prime.Basic
import Mathlib.Data.Nat.GCD.Basic
import Mathlib.Tactic.Ring
import Mathlib.Tactic.Common

/-!
# Powers of two and their multiples

The powers of two are linearly ordered by divisibility, so the smaller of two
is their greatest common divisor. The multiples of a power of two among the
machine words of a width are an ideal, whether or not the power fits the width.
-/

set_option autoImplicit false

namespace TritonCpu.PowerOfTwo

structure Pow2 where
  val : ℕ
  isPow : ∃ k, val = 2 ^ k

namespace Pow2

@[ext] theorem ext {a b : Pow2} (h : a.val = b.val) : a = b := by
  cases a
  cases b
  cases h
  rfl

instance : DecidableEq Pow2 := fun a b => decidable_of_iff (a.val = b.val) Pow2.ext_iff.symm

instance : Repr Pow2 := ⟨fun a => reprPrec a.val⟩

def ofExponent (k : ℕ) : Pow2 := ⟨2 ^ k, k, rfl⟩

instance : One Pow2 := ⟨⟨1, 0, rfl⟩⟩

theorem pos (a : Pow2) : 0 < a.val := by
  obtain ⟨k, hk⟩ := a.isPow
  rw [hk]
  exact Nat.two_pow_pos k

theorem dvd_iff_le (a b : Pow2) : a.val ∣ b.val ↔ a.val ≤ b.val := by
  constructor
  · exact Nat.le_of_dvd b.pos
  · intro h
    obtain ⟨j, hj⟩ := a.isPow
    obtain ⟨k, hk⟩ := b.isPow
    rw [hj, hk] at h ⊢
    exact Nat.pow_dvd_pow 2 ((Nat.pow_le_pow_iff_right (by decide)).mp h)

def gcd (a b : Pow2) : Pow2 where
  val := Nat.gcd a.val b.val
  isPow := by
    rcases Nat.le_total a.val b.val with h | h
    · rw [Nat.gcd_eq_left ((dvd_iff_le a b).mpr h)]
      exact a.isPow
    · rw [Nat.gcd_eq_right ((dvd_iff_le b a).mpr h)]
      exact b.isPow

def min (a b : Pow2) : Pow2 := if a.val ≤ b.val then a else b

def max (a b : Pow2) : Pow2 := if a.val ≤ b.val then b else a

def mul (a b : Pow2) : Pow2 where
  val := a.val * b.val
  isPow := by
    obtain ⟨j, hj⟩ := a.isPow
    obtain ⟨k, hk⟩ := b.isPow
    exact ⟨j + k, by rw [hj, hk, Nat.pow_add]⟩

def quotient (a b : Pow2) : Pow2 where
  val := Nat.max 1 (a.val / b.val)
  isPow := by
    obtain ⟨j, hj⟩ := a.isPow
    obtain ⟨k, hk⟩ := b.isPow
    rcases Nat.le_total k j with h | h
    · refine ⟨j - k, ?_⟩
      rw [hj, hk, Nat.pow_div h (by decide)]
      exact Nat.max_eq_right (Nat.two_pow_pos _)
    · refine ⟨0, ?_⟩
      apply Nat.max_eq_left
      rw [hj, hk]
      exact Nat.div_le_of_le_mul (by
        rw [Nat.mul_one]
        exact Nat.pow_le_pow_right (by decide) h)

theorem gcd_dvd_left (a b : Pow2) : (gcd a b).val ∣ a.val := Nat.gcd_dvd_left a.val b.val

theorem gcd_dvd_right (a b : Pow2) : (gcd a b).val ∣ b.val := Nat.gcd_dvd_right a.val b.val

theorem min_dvd_left (a b : Pow2) : (min a b).val ∣ a.val := by
  unfold min
  split_ifs with h
  · exact dvd_rfl
  · exact (dvd_iff_le b a).mpr (Nat.le_of_lt (Nat.lt_of_not_le h))

theorem min_dvd_right (a b : Pow2) : (min a b).val ∣ b.val := by
  unfold min
  split_ifs with h
  · exact (dvd_iff_le a b).mpr h
  · exact dvd_rfl

theorem max_cases (a b : Pow2) : max a b = a ∨ max a b = b := by
  unfold max
  split_ifs with h
  · exact Or.inr rfl
  · exact Or.inl rfl

theorem max_one_right (a : Pow2) : max a 1 = a := by
  unfold max
  split_ifs with h
  · apply Pow2.ext
    have hpos := a.pos
    have hone : (1 : Pow2).val = 1 := rfl
    omega
  · rfl

theorem max_one_left (a : Pow2) : max 1 a = a := by
  unfold max
  split_ifs with h
  · rfl
  · exact absurd a.pos h

theorem eq_ofExponent (a : Pow2) : ∃ k, a = ofExponent k := by
  obtain ⟨k, hk⟩ := a.isPow
  exact ⟨k, Pow2.ext hk⟩

theorem quotient_ofExponent (j k : ℕ) :
    (ofExponent j).quotient (ofExponent k) = ofExponent (j - k) := by
  apply Pow2.ext
  show Nat.max 1 (2 ^ j / 2 ^ k) = 2 ^ (j - k)
  rcases Nat.le_total k j with h | h
  · rw [Nat.pow_div h (by decide)]
    exact Nat.max_eq_right (Nat.two_pow_pos _)
  · rw [Nat.sub_eq_zero_of_le h]
    apply Nat.max_eq_left
    exact Nat.div_le_of_le_mul (by
      rw [Nat.mul_one]
      exact Nat.pow_le_pow_right (by decide) h)

end Pow2

section Multiples

variable {w : ℕ}

def Multiple (a : Pow2) (x : BitVec w) : Prop := a.val ∣ x.toNat

instance (a : Pow2) : DecidablePred (Multiple (w := w) a) :=
  fun x => inferInstanceAs (Decidable (a.val ∣ x.toNat))

/-- The multiples are those of the ring of words: a power of two that does not
fit the width is zero there. -/
theorem multiple_iff_dvd (a : Pow2) (x : BitVec w) : Multiple a x ↔ ((a.val : ℕ) : BitVec w) ∣ x := by
  unfold Multiple
  constructor
  · rintro ⟨m, hm⟩
    have hx : ((x.toNat : ℕ) : BitVec w) = x := by simp
    rw [← hx, hm, Nat.cast_mul]
    exact dvd_mul_right _ _
  · rintro ⟨z, rfl⟩
    obtain ⟨k, hk⟩ := a.isPow
    rw [hk, BitVec.toNat_mul]
    rcases Nat.le_total k w with h | h
    · have hw : 2 ^ k ∣ 2 ^ w := Nat.pow_dvd_pow 2 h
      rw [Nat.dvd_mod_iff hw]
      apply Dvd.dvd.mul_right
      show 2 ^ k ∣ (BitVec.ofNat w (2 ^ k)).toNat
      rw [BitVec.toNat_ofNat, Nat.dvd_mod_iff hw]
    · have hzero : (BitVec.ofNat w (2 ^ k)).toNat = 0 := by
        rw [BitVec.toNat_ofNat]
        exact Nat.mod_eq_zero_of_dvd (Nat.pow_dvd_pow 2 h)
      show 2 ^ k ∣ (BitVec.ofNat w (2 ^ k)).toNat * z.toNat % 2 ^ w
      rw [hzero, Nat.zero_mul, Nat.zero_mod]
      exact Nat.dvd_zero _

variable {a b : Pow2} {x y : BitVec w}

theorem multiple_one (x : BitVec w) : Multiple 1 x := Nat.one_dvd x.toNat

theorem multiple_zero (a : Pow2) : Multiple a (0 : BitVec w) := by
  rw [multiple_iff_dvd]
  exact dvd_zero _

theorem Multiple.mono (h : Multiple b x) (hab : a.val ∣ b.val) : Multiple a x := Nat.dvd_trans hab h

theorem Multiple.add (hx : Multiple a x) (hy : Multiple a y) : Multiple a (x + y) := by
  rw [multiple_iff_dvd] at hx hy ⊢
  exact dvd_add hx hy

theorem Multiple.mul_left (z : BitVec w) (hx : Multiple a x) : Multiple a (z * x) := by
  rw [multiple_iff_dvd] at hx ⊢
  exact Dvd.dvd.mul_left hx z

theorem Multiple.mul (hx : Multiple a x) (hy : Multiple b y) : Multiple (a.mul b) (x * y) := by
  rw [multiple_iff_dvd] at hx hy ⊢
  show ((a.val * b.val : ℕ) : BitVec w) ∣ x * y
  rw [Nat.cast_mul]
  exact mul_dvd_mul hx hy

theorem multiple_ofExponent_iff (k : ℕ) (x : BitVec w) :
    Multiple (.ofExponent k) x ↔ ∀ j < k, x.getLsbD j = false := by
  show 2 ^ k ∣ x.toNat ↔ _
  constructor
  · rintro ⟨m, hm⟩ j hj
    rw [← BitVec.testBit_toNat, hm, Nat.testBit_two_pow_mul]
    simp [Nat.not_le_of_lt hj]
  · intro h
    apply Nat.dvd_of_mod_eq_zero
    apply Nat.eq_of_testBit_eq
    intro j
    rw [Nat.testBit_mod_two_pow, Nat.zero_testBit, BitVec.testBit_toNat]
    by_cases hj : j < k
    · rw [h j hj, Bool.and_false]
    · simp [hj]

theorem multiple_natCast (a : Pow2) (m : ℕ) (h : a.val ∣ m) : Multiple a (m : BitVec w) := by
  rw [multiple_iff_dvd]
  exact Nat.cast_dvd_cast h

theorem multiple_add_iff (hx : Multiple a x) : Multiple a (x + y) ↔ Multiple a y := by
  rw [multiple_iff_dvd] at hx
  rw [multiple_iff_dvd, multiple_iff_dvd]
  exact dvd_add_right hx

theorem multiple_sub_iff (hx : Multiple a x) : Multiple a (x - y) ↔ Multiple a y := by
  rw [multiple_iff_dvd] at hx
  rw [multiple_iff_dvd, multiple_iff_dvd]
  exact dvd_sub_right hx

end Multiples

end TritonCpu.PowerOfTwo
