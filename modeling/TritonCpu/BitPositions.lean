import Mathlib.Tactic.Ring

/-!
# Positions by one of their bits

A position is a row, one bit of weight `q` and an offset below `q`. Reversing the
bit is an involution that stays in the row of twice the weight, and reversing all
bits below a power of two mirrors the row.
-/

set_option autoImplicit false

namespace TritonCpu.BitPositions

def flipBit (q k : ℕ) : ℕ := if k / q % 2 = 0 then k + q else k - q

def mirror (n k : ℕ) : ℕ := k / n * n + (n - 1 - k % n)

theorem split_row {q c : ℕ} (hc : c < q) (a : ℕ) : (a * q + c) / q = a ∧ (a * q + c) % q = c := by
  have hq : 0 < q := by omega
  rw [Nat.mul_comm, Nat.mul_add_div hq, Nat.mul_add_mod, Nat.div_eq_of_lt hc, Nat.mod_eq_of_lt hc]
  exact ⟨Nat.add_zero a, rfl⟩

theorem mirror_row {n c : ℕ} (hc : c < n) (a : ℕ) : mirror n (a * n + c) = a * n + (n - 1 - c) := by
  rw [mirror, (split_row hc a).1, (split_row hc a).2]

theorem flipBit_row {q b c : ℕ} (hb : b < 2) (hc : c < q) (a : ℕ) :
    flipBit q ((a * 2 + b) * q + c) = (a * 2 + (1 - b)) * q + c := by
  rw [flipBit, (split_row hc _).1, Nat.mul_add_mod_self_right, Nat.mod_eq_of_lt hb]
  obtain rfl | rfl : b = 0 ∨ b = 1 := by omega
  · rw [if_pos rfl, Nat.sub_zero, Nat.add_zero, Nat.add_mul (a * 2) 1 q]
    omega
  · simp only [if_neg Nat.one_ne_zero, Nat.sub_self, Nat.add_zero, Nat.add_mul, Nat.one_mul]
    omega

theorem exists_row {q : ℕ} (hq : 0 < q) (k : ℕ) : ∃ a b c, b < 2 ∧ c < q ∧ k = (a * 2 + b) * q + c :=
  ⟨k / q / 2, k / q % 2, k % q, Nat.mod_lt _ two_pos, Nat.mod_lt _ hq, by
    rw [Nat.div_add_mod', Nat.div_add_mod']⟩

theorem flipBit_flipBit {q : ℕ} (hq : 0 < q) (k : ℕ) : flipBit q (flipBit q k) = k := by
  obtain ⟨a, b, c, hb, hc, rfl⟩ := exists_row hq k
  rw [flipBit_row hb hc, flipBit_row (by omega) hc, Nat.sub_sub_self (Nat.le_of_lt_succ hb)]

theorem high_lt {n q a b c : ℕ} (h : (a * 2 + b) * q + c < n * 2 * q) : a < n := by
  by_contra hle
  have : n * 2 * q ≤ (a * 2 + b) * q := Nat.mul_le_mul_right q (by omega)
  omega

theorem row_lt {q b c : ℕ} (hb : b < 2) (hc : c < q) : b * q + c < 2 * q := by
  have : b * q ≤ 1 * q := Nat.mul_le_mul_right q (Nat.le_of_lt_succ hb)
  omega

theorem flipBit_div {q : ℕ} (hq : 0 < q) (k : ℕ) : flipBit q k / (2 * q) = k / (2 * q) := by
  obtain ⟨a, b, c, hb, hc, rfl⟩ := exists_row hq k
  have hrow : ∀ b < 2, ((a * 2 + b) * q + c) / (2 * q) = a := fun b hb => by
    rw [show (a * 2 + b) * q + c = a * (2 * q) + (b * q + c) by ring]
    exact (split_row (row_lt hb hc) a).1
  rw [flipBit_row hb hc, hrow b hb, hrow (1 - b) (by omega)]

theorem flipBit_mirror {q : ℕ} (hq : 0 < q) (k : ℕ) :
    flipBit q (mirror q k) = mirror (2 * q) k := by
  obtain ⟨a, b, c, hb, hc, rfl⟩ := exists_row hq k
  have hrow : (a * 2 + b) * q + c = a * (2 * q) + (b * q + c) := by ring
  rw [mirror_row hc, flipBit_row hb (by omega), hrow, mirror_row (row_lt hb hc), ← Nat.mul_assoc, Nat.add_mul,
    Nat.add_assoc]
  obtain rfl | rfl : b = 0 ∨ b = 1 := by omega
  · omega
  · omega

end TritonCpu.BitPositions
