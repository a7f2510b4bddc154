import TritonCpu.PowerOfTwo
import Mathlib.Data.Int.Basic

/-!
# Division inside aligned groups

An offset below a power of two that divides both the dividend and the divisor
does not reach the next quotient. The unsigned division never notices it. The
truncated division of signed words does at a negative dividend that the divisor
divides, because it rounds the other way there.
-/

set_option autoImplicit false

namespace TritonCpu.WordDivision
open PowerOfTwo

section Integers

theorem group_div {g r : ℕ} (h : r < g) (k n : ℕ) : (g * k + r) / (g * n) = k / n := by
  rw [← Nat.div_div_eq_div_mul, Nat.mul_add_div (Nat.zero_lt_of_lt h), Nat.div_eq_of_lt h,
    Nat.add_zero]

theorem tdiv_group_nat {g o : ℕ} (ho : 0 < o) (hog : o < g) (a : ℤ) (n : ℕ) :
    ((g : ℤ) * a + o).tdiv (g * n) =
      ((g : ℤ) * a).tdiv (g * n) + if a < 0 ∧ (n : ℤ) ∣ a then (n : ℤ).sign else 0 := by
  have hg : (0 : ℤ) < g := by omega
  rw [Int.mul_tdiv_mul_of_pos _ _ hg, ← Nat.cast_mul]
  rcases lt_or_ge a 0 with hneg | hpos
  · obtain ⟨k, rfl⟩ : ∃ k : ℕ, a = -((k + 1 : ℕ) : ℤ) := ⟨(-a - 1).toNat, by omega⟩
    have hoffset : (g : ℤ) * -((k + 1 : ℕ) : ℤ) + o = -((g * k + (g - o) : ℕ) : ℤ) := by
      push_cast [Nat.le_of_lt hog]
      ring
    rw [hoffset, Int.neg_tdiv, Int.neg_tdiv, ← Int.ofNat_tdiv, ← Int.ofNat_tdiv,
      group_div (by omega), Nat.succ_div]
    by_cases hdvd : n ∣ k + 1
    · have hn : n ≠ 0 := by
        rintro rfl
        have := Nat.eq_zero_of_zero_dvd hdvd
        omega
      have hcond : -((k + 1 : ℕ) : ℤ) < 0 ∧ (n : ℤ) ∣ -((k + 1 : ℕ) : ℤ) :=
        ⟨hneg, (Int.natCast_dvd_natCast.mpr hdvd).neg_right⟩
      rw [if_pos hcond, if_pos hdvd, Int.sign_natCast_of_ne_zero hn]
      push_cast
      ring
    · have hcond : ¬ (-((k + 1 : ℕ) : ℤ) < 0 ∧ (n : ℤ) ∣ -((k + 1 : ℕ) : ℤ)) := fun h =>
        hdvd (Int.natCast_dvd_natCast.mp ((Int.dvd_neg).mp h.2))
      rw [if_neg hcond, if_neg hdvd, Nat.add_zero, add_zero]
  · obtain ⟨k, rfl⟩ := Int.eq_ofNat_of_zero_le hpos
    rw [if_neg (fun h => absurd h.1 (not_lt.mpr hpos)), add_zero, ← Nat.cast_mul, ← Nat.cast_add,
      ← Int.ofNat_tdiv, ← Int.ofNat_tdiv, group_div hog]

theorem tdiv_group {g o : ℕ} (ho : 0 < o) (hog : o < g) (a b : ℤ) :
    ((g : ℤ) * a + o).tdiv (g * b) =
      ((g : ℤ) * a).tdiv (g * b) + if a < 0 ∧ b ∣ a then b.sign else 0 := by
  obtain ⟨n, rfl | rfl⟩ := b.eq_nat_or_neg
  · exact tdiv_group_nat ho hog a n
  · have hdvd : (-(n : ℤ) ∣ a) ↔ ((n : ℤ) ∣ a) := Int.neg_dvd
    simp only [mul_neg, Int.tdiv_neg, tdiv_group_nat ho hog a n, hdvd, Int.sign_neg]
    split_ifs <;> ring

end Integers

section Words

variable {w : ℕ} {a : Pow2} {x y : BitVec w} {o : ℕ}

/-- The dividend is negative and the quotient exact, as signed numbers. -/
def ExactNegative (x y : BitVec w) : Prop := x.toInt < 0 ∧ y.toInt ∣ x.toInt

instance (x y : BitVec w) : Decidable (ExactNegative x y) :=
  inferInstanceAs (Decidable (x.toInt < 0 ∧ y.toInt ∣ x.toInt))

theorem ofExponent_lt_width {k : ℕ} (hy : Multiple (.ofExponent k) y) (hne : y ≠ 0) : k < w := by
  have hpos : 0 < y.toNat := by
    rcases Nat.eq_zero_or_pos y.toNat with h | h
    · exact absurd (BitVec.eq_of_toNat_eq (by simpa using h)) hne
    · exact h
  have hle : 2 ^ k ≤ y.toNat := Nat.le_of_dvd hpos hy
  exact (Nat.pow_lt_pow_iff_right (by decide)).mp (Nat.lt_of_le_of_lt hle y.isLt)

theorem toNat_add_offset {k : ℕ} (hk : k ≤ w) (hx : Multiple (.ofExponent k) x) (ho : o < 2 ^ k) :
    (x + (o : BitVec w)).toNat = x.toNat + o := by
  have hlt : o < 2 ^ w := Nat.lt_of_lt_of_le ho (Nat.pow_le_pow_right (by decide) hk)
  obtain ⟨m, hm⟩ : 2 ^ k ∣ x.toNat := hx
  obtain ⟨t, ht⟩ : 2 ^ k ∣ 2 ^ w := Nat.pow_dvd_pow 2 hk
  have hbound : x.toNat + o < 2 ^ w := by
    have hmt : 2 ^ k * m < 2 ^ k * t := by
      rw [← hm, ← ht]
      exact x.isLt
    have hm1 : 2 ^ k * (m + 1) ≤ 2 ^ k * t := Nat.mul_le_mul_left _ (Nat.lt_of_mul_lt_mul_left hmt)
    rw [Nat.mul_add, Nat.mul_one] at hm1
    rw [hm, ht]
    omega
  show (x + BitVec.ofNat w o).toNat = _
  rw [BitVec.toNat_add, BitVec.toNat_ofNat, Nat.mod_eq_of_lt hlt, Nat.mod_eq_of_lt hbound]

theorem toInt_add_offset {k : ℕ} (hk : k < w) (hx : Multiple (.ofExponent k) x) (ho : o < 2 ^ k) :
    (x + (o : BitVec w)).toInt = x.toInt + o := by
  have hnat := toNat_add_offset (Nat.le_of_lt hk) hx ho
  obtain ⟨m, hm⟩ : 2 ^ k ∣ x.toNat := hx
  obtain ⟨t, ht⟩ : 2 ^ (k + 1) ∣ 2 ^ w := Nat.pow_dvd_pow 2 hk
  have hside : 2 * (x.toNat + o) < 2 ^ w ↔ 2 * x.toNat < 2 ^ w := by
    constructor
    · omega
    · intro h
      rw [ht, hm, Nat.pow_succ, Nat.mul_comm (2 ^ k) 2, Nat.mul_assoc, Nat.mul_lt_mul_left (by decide)]
        at h
      have hm1 : 2 ^ k * (m + 1) ≤ 2 ^ k * t := Nat.mul_le_mul_left _ (Nat.lt_of_mul_lt_mul_left h)
      rw [Nat.mul_add, Nat.mul_one] at hm1
      rw [ht, hm, Nat.pow_succ, Nat.mul_comm (2 ^ k) 2, Nat.mul_assoc]
      omega
  rw [BitVec.toInt_eq_toNat_cond, BitVec.toInt_eq_toNat_cond, hnat]
  by_cases h : 2 * x.toNat < 2 ^ w
  · rw [if_pos h, if_pos (hside.mpr h)]
    push_cast
    ring
  · rw [if_neg h, if_neg (fun h' => h (hside.mp h'))]
    push_cast
    ring

theorem multiple_intCast_iff {k : ℕ} (hk : k ≤ w) (z : ℤ) :
    Multiple (.ofExponent k) (z : BitVec w) ↔ (2 ^ k : ℤ) ∣ z := by
  show 2 ^ k ∣ (BitVec.ofInt w z).toNat ↔ _
  have hpos : (0 : ℤ) < ((2 ^ w : ℕ) : ℤ) := by exact_mod_cast Nat.two_pow_pos w
  have hdvd : (2 ^ k : ℤ) ∣ ((2 ^ w : ℕ) : ℤ) := by
    rw [Nat.cast_pow]
    exact pow_dvd_pow 2 hk
  rw [BitVec.toNat_ofInt, ← Int.natCast_dvd_natCast, Int.toNat_of_nonneg (Int.emod_nonneg z hpos.ne'),
    Nat.cast_pow]
  rw [Int.emod_def]
  exact dvd_sub_left (Dvd.dvd.mul_right hdvd _)

theorem multiple_iff_toInt {k : ℕ} (hk : k ≤ w) :
    Multiple (.ofExponent k) x ↔ (2 ^ k : ℤ) ∣ x.toInt := by
  have hcast : ((x.toInt : ℤ) : BitVec w) = x := BitVec.ofInt_toInt
  rw [← multiple_intCast_iff hk, hcast]

theorem sdiv_eq_intCast (x y : BitVec w) : x.sdiv y = ((x.toInt.tdiv y.toInt : ℤ) : BitVec w) := by
  apply BitVec.eq_of_toInt_eq
  rw [BitVec.toInt_sdiv]
  show _ = (BitVec.ofInt w _).toInt
  rw [BitVec.toInt_ofInt]

theorem srem_eq_intCast (x y : BitVec w) : x.srem y = ((x.toInt.tmod y.toInt : ℤ) : BitVec w) := by
  rw [← BitVec.toInt_srem]
  exact BitVec.ofInt_toInt.symm

theorem srem_eq_sub (x y : BitVec w) : x.srem y = x - x.sdiv y * y := by
  have hcast : ∀ z : BitVec w, ((z.toInt : ℤ) : BitVec w) = z := fun z => BitVec.ofInt_toInt
  rw [srem_eq_intCast, Int.tmod_def, Int.cast_sub, Int.cast_mul, hcast, hcast, sdiv_eq_intCast, mul_comm]

theorem umod_eq_sub (x y : BitVec w) : x % y = x - x / y * y := by
  have h : y * (x / y) + x % y = x := by
    apply BitVec.eq_of_toNat_eq
    have hle : y.toNat * (x.toNat / y.toNat) + x.toNat % y.toNat = x.toNat := Nat.div_add_mod _ _
    have hx := x.isLt
    rw [BitVec.toNat_add, BitVec.toNat_mul, BitVec.toNat_udiv, BitVec.toNat_umod,
      Nat.mod_eq_of_lt (a := y.toNat * _) (by omega), hle, Nat.mod_eq_of_lt hx]
  rw [mul_comm]
  exact eq_sub_of_add_eq' h

theorem sdiv_add_offset (hx : Multiple a x) (hy : Multiple a y) (hne : y ≠ 0) (ho : o < a.val) :
    ∃ e : ℤ, (x + (o : BitVec w)).sdiv y = x.sdiv y + (e : BitVec w) ∧ (e = 1 ∨ e = -1 ∨ e = 0) ∧
      (e = 0 ↔ o = 0 ∨ ¬ ExactNegative x y) := by
  obtain ⟨k, rfl⟩ := a.eq_ofExponent
  have ho : o < 2 ^ k := ho
  have hk := ofExponent_lt_width hy hne
  rcases Nat.eq_zero_or_pos o with rfl | hpos
  · exact ⟨0, by simp, by simp, by simp⟩
  obtain ⟨p, hp⟩ := (multiple_iff_toInt (Nat.le_of_lt hk)).mp hx
  obtain ⟨q, hq⟩ := (multiple_iff_toInt (Nat.le_of_lt hk)).mp hy
  have hcast : (2 ^ k : ℤ) = ((2 ^ k : ℕ) : ℤ) := by rw [Nat.cast_pow]; rfl
  have hg : (0 : ℤ) < ((2 ^ k : ℕ) : ℤ) := by exact_mod_cast Nat.two_pow_pos k
  rw [hcast] at hp hq
  have hq0 : q ≠ 0 := by
    rintro rfl
    apply hne
    rw [mul_zero] at hq
    exact BitVec.eq_of_toInt_eq (by simpa using hq)
  have hexact : ExactNegative x y ↔ p < 0 ∧ q ∣ p := by
    unfold ExactNegative
    rw [hp, hq, Int.mul_dvd_mul_iff_left (ne_of_gt hg)]
    exact and_congr_left' (by rw [Int.mul_neg_iff]; omega)
  refine ⟨if p < 0 ∧ q ∣ p then q.sign else 0, ?_, ?_, ?_⟩
  · rw [sdiv_eq_intCast, sdiv_eq_intCast, toInt_add_offset hk hx ho, hp, hq,
      tdiv_group hpos ho p q, Int.cast_add]
  · split_ifs
    · rcases lt_or_gt_of_ne hq0 with h | h
      · exact Or.inr (Or.inl (Int.sign_eq_neg_one_of_neg h))
      · exact Or.inl (Int.sign_eq_one_of_pos h)
    · exact Or.inr (Or.inr rfl)
  · rw [hexact]
    split_ifs with h
    · apply iff_of_false
      · exact fun h0 => hq0 (Int.sign_eq_zero_iff_zero.mp h0)
      · rintro (h0 | h0)
        · omega
        · exact h0 h
    · exact iff_of_true rfl (Or.inr h)

theorem step_mul_eq_zero {e : ℤ} (he : e = 1 ∨ e = -1 ∨ e = 0) (hne : y ≠ 0) :
    (e : BitVec w) * y = 0 ↔ e = 0 := by
  rcases he with rfl | rfl | rfl
  · simpa using hne
  · simpa using hne
  · simp

theorem step_eq_zero {e : ℤ} (he : e = 1 ∨ e = -1 ∨ e = 0) (hne : y ≠ 0) :
    (e : BitVec w) = 0 ↔ e = 0 := by
  constructor
  · intro h
    rw [← step_mul_eq_zero he hne, h, zero_mul]
  · rintro rfl
    exact Int.cast_zero

theorem sdiv_add_offset_iff (hx : Multiple a x) (hy : Multiple a y) (hne : y ≠ 0) (ho : o < a.val) :
    (x + (o : BitVec w)).sdiv y = x.sdiv y ↔ o = 0 ∨ ¬ ExactNegative x y := by
  obtain ⟨e, heq, he, hzero⟩ := sdiv_add_offset hx hy hne ho
  rw [heq, add_eq_left, step_eq_zero he hne, hzero]

theorem srem_add_offset_iff (hx : Multiple a x) (hy : Multiple a y) (hne : y ≠ 0) (ho : o < a.val) :
    (x + (o : BitVec w)).srem y = x.srem y + o ↔ o = 0 ∨ ¬ ExactNegative x y := by
  obtain ⟨e, heq, he, hzero⟩ := sdiv_add_offset hx hy hne ho
  rw [srem_eq_sub, srem_eq_sub, heq, ← hzero, ← step_mul_eq_zero he hne]
  constructor
  · intro h
    calc (e : BitVec w) * y = x - x.sdiv y * y + o - (x + o - (x.sdiv y + e) * y) := by ring
      _ = 0 := by rw [h, sub_self]
  · intro h
    calc x + o - (x.sdiv y + e) * y = x - x.sdiv y * y + o - e * y := by ring
      _ = x - x.sdiv y * y + o := by rw [h, sub_zero]

theorem udiv_add_offset (hx : Multiple a x) (hy : Multiple a y) (hne : y ≠ 0) (ho : o < a.val) :
    (x + (o : BitVec w)) / y = x / y := by
  obtain ⟨k, rfl⟩ := a.eq_ofExponent
  have ho : o < 2 ^ k := ho
  have hk := ofExponent_lt_width hy hne
  have hnat := toNat_add_offset (Nat.le_of_lt hk) hx ho
  obtain ⟨m, hm⟩ : 2 ^ k ∣ x.toNat := hx
  obtain ⟨q, hq⟩ : 2 ^ k ∣ y.toNat := hy
  apply BitVec.eq_of_toNat_eq
  rw [BitVec.toNat_udiv, BitVec.toNat_udiv, hnat, hm, hq, group_div ho,
    Nat.mul_div_mul_left _ _ (Nat.two_pow_pos k)]

theorem umod_add_offset (hx : Multiple a x) (hy : Multiple a y) (hne : y ≠ 0) (ho : o < a.val) :
    (x + (o : BitVec w)) % y = x % y + o := by
  rw [umod_eq_sub, umod_eq_sub, udiv_add_offset hx hy hne ho]
  ring

end Words

end TritonCpu.WordDivision
