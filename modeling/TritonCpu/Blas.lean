import Mathlib.Algebra.BigOperators.Ring.Finset
import Mathlib.Algebra.Order.Group.Int

/-!
# Matrix products on strided memory

The two routines of the C interface to BLAS that multiply: `gemm` for matrices
and `gemv` for a matrix and a vector. A matrix is a pointer, a storage order and
a leading dimension; a vector is a pointer and an increment. A call whose
arguments are refused does nothing.
-/

set_option autoImplicit false

namespace TritonCpu.Blas

/-- The elements from a pointer on. -/
abbrev Memory (R : Type) := ℕ → R

def rowMajor : ℤ := 101
def colMajor : ℤ := 102
def noTrans : ℤ := 111
def trans : ℤ := 112

/-- Whether the rows of the operand, as it enters the product, lie in memory one by one. -/
def byRows (order transposed : ℤ) : Bool :=
  decide (order = rowMajor) == decide (transposed = noTrans)

def element (rows : Bool) (ld i j : ℕ) : ℕ := if rows then i * ld + j else j * ld + i

def coordinates (rows : Bool) (ld p : ℕ) : ℕ × ℕ :=
  if rows then (p / ld, p % ld) else (p % ld, p / ld)

theorem coordinates_element (rows : Bool) {ld i j : ℕ} (h : (if rows then j else i) < ld) :
    coordinates rows ld (element rows ld i j) = (i, j) := by
  have hpos : 0 < ld := Nat.zero_lt_of_lt h
  unfold coordinates element
  cases rows with
  | true =>
    rw [if_pos rfl] at h
    rw [if_pos rfl, if_pos rfl, Nat.add_comm, Nat.add_mul_div_right _ _ hpos,
      Nat.div_eq_of_lt h, Nat.zero_add, Nat.add_mul_mod_self_right, Nat.mod_eq_of_lt h]
  | false =>
    rw [if_neg Bool.false_ne_true] at h
    rw [if_neg Bool.false_ne_true, if_neg Bool.false_ne_true, Nat.add_comm,
      Nat.add_mul_div_right _ _ hpos, Nat.div_eq_of_lt h, Nat.zero_add,
      Nat.add_mul_mod_self_right, Nat.mod_eq_of_lt h]

/-- The least leading dimension of an operand of the given sizes. -/
def leastLd (rows : Bool) (m n : ℤ) : ℤ := max 1 (if rows then n else m)

/-- Where an element of a vector lies; a negative increment runs backwards. -/
def vectorElement (inc : ℤ) (len i : ℕ) : ℕ := (if 0 ≤ inc then i else len - 1 - i) * inc.natAbs

variable {R : Type} [CommRing R] [DecidableEq R]

/-- `alpha * product + beta * old`, where the old value is not read when `beta` is zero. -/
def update (alpha product beta old : R) : R :=
  alpha * product + if beta = 0 then 0 else beta * old

def gemm (order transA transB m n k : ℤ) (alpha : R) (a : Memory R) (lda : ℤ) (b : Memory R)
    (ldb : ℤ) (beta : R) (c : Memory R) (ldc : ℤ) : Option (Memory R) :=
  if (order = rowMajor ∨ order = colMajor) ∧ (transA = noTrans ∨ transA = trans) ∧
      (transB = noTrans ∨ transB = trans) ∧ 0 ≤ m ∧ 0 ≤ n ∧ 0 ≤ k ∧
      leastLd (byRows order transA) m k ≤ lda ∧ leastLd (byRows order transB) k n ≤ ldb ∧
      leastLd (byRows order noTrans) m n ≤ ldc then
    some fun p =>
      let (i, j) := coordinates (byRows order noTrans) ldc.toNat p
      if i < m.toNat ∧ j < n.toNat then
        update alpha (∑ l ∈ Finset.range k.toNat,
          a (element (byRows order transA) lda.toNat i l) *
            b (element (byRows order transB) ldb.toNat l j)) beta (c p)
      else c p
  else none

def gemv (order transA m n : ℤ) (alpha : R) (a : Memory R) (lda : ℤ) (x : Memory R) (incx : ℤ)
    (beta : R) (y : Memory R) (incy : ℤ) : Option (Memory R) :=
  if (order = rowMajor ∨ order = colMajor) ∧ (transA = noTrans ∨ transA = trans) ∧
      0 ≤ m ∧ 0 ≤ n ∧ leastLd (byRows order noTrans) m n ≤ lda ∧ incx ≠ 0 ∧ incy ≠ 0 then
    let lenx := if transA = noTrans then n.toNat else m.toNat
    let leny := if transA = noTrans then m.toNat else n.toNat
    some fun p =>
      let i := if 0 ≤ incy then p / incy.natAbs else leny - 1 - p / incy.natAbs
      if p % incy.natAbs = 0 ∧ p / incy.natAbs < leny then
        update alpha (∑ l ∈ Finset.range lenx,
          a (element (byRows order transA) lda.toNat i l) * x (vectorElement incx lenx l))
          beta (y p)
      else y p
  else none

theorem gemm_rowMajor {transA transB : ℤ} {m n k lda ldb ldc : ℕ}
    (hA : transA = noTrans ∨ transA = trans) (hB : transB = noTrans ∨ transB = trans)
    (hm : 0 < m) (hn : 0 < n) (hk : 0 < k)
    (hlda : (if transA = noTrans then k else m) ≤ lda)
    (hldb : (if transB = noTrans then n else k) ≤ ldb) (hldc : n ≤ ldc)
    (alpha beta : R) (a b c : Memory R) :
    ∃ c', gemm rowMajor transA transB m n k alpha a lda b ldb beta c ldc = some c' ∧
      ∀ i < m, ∀ j < n, c' (i * ldc + j) = update alpha (∑ l ∈ Finset.range k,
        a (element (decide (transA = noTrans)) lda i l) *
          b (element (decide (transB = noTrans)) ldb l j)) beta (c (i * ldc + j)) := by
  have hrows (t : ℤ) : byRows rowMajor t = decide (t = noTrans) := by simp [byRows]
  unfold gemm
  rw [if_pos]
  · refine ⟨_, rfl, fun i hi j hj => ?_⟩
    have hcoord : coordinates true ldc (element true ldc i j) = (i, j) :=
      coordinates_element true (by simpa using lt_of_lt_of_le hj hldc)
    have hplace : element true ldc i j = i * ldc + j := if_pos rfl
    rw [hplace] at hcoord
    simp only [hrows, decide_true, Int.toNat_natCast, hcoord]
    rw [if_pos ⟨hi, hj⟩]
  · refine ⟨.inl rfl, hA, hB, by omega, by omega, by omega, ?_, ?_, ?_⟩
    · rw [hrows, leastLd]
      split_ifs at hlda ⊢ <;> simp_all <;> omega
    · rw [hrows, leastLd]
      split_ifs at hldb ⊢ <;> simp_all <;> omega
    · rw [hrows, leastLd]
      simp
      omega

theorem gemv_rowMajor {transA : ℤ} {m n lda : ℕ} (hA : transA = noTrans ∨ transA = trans)
    (hm : 0 < m) (hn : 0 < n) (hlda : n ≤ lda) (alpha beta : R) (a x y : Memory R) :
    ∃ y', gemv rowMajor transA m n alpha a lda x 1 beta y 1 = some y' ∧
      ∀ i < (if transA = noTrans then m else n), y' i = update alpha
        (∑ l ∈ Finset.range (if transA = noTrans then n else m),
          a (element (decide (transA = noTrans)) lda i l) * x l) beta (y i) := by
  have hrows (t : ℤ) : byRows rowMajor t = decide (t = noTrans) := by simp [byRows]
  unfold gemv
  rw [if_pos]
  · refine ⟨_, rfl, fun i hi => ?_⟩
    simp only [hrows, Int.toNat_natCast, vectorElement, Int.natAbs_one, Nat.mod_one, Nat.div_one,
      Nat.mul_one, zero_le_one, if_true, true_and]
    rw [if_pos hi]
  · refine ⟨.inl rfl, hA, by omega, by omega, ?_, one_ne_zero, one_ne_zero⟩
    rw [hrows, leastLd]
    simp
    omega

end TritonCpu.Blas
