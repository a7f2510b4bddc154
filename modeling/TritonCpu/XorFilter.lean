import TritonCpu.XorSpan

/-!
# Combinations of a part of the columns

Columns that are zero add nothing to a combination. When they are left out, the
bits that selected the others move together, and they can be moved back.
-/

set_option autoImplicit false

namespace TritonCpu.XorSpan

open List

variable {α : Type} (p : α → Bool)

/-- The bits of `x` that select columns which are kept. -/
def keepBits : List α → ℕ → ℕ
  | [], _ => 0
  | a :: l, x => if p a then x % 2 + 2 * keepBits l (x / 2) else keepBits l (x / 2)

/-- A bit that selects nothing is put in for every column that is left out. -/
def spreadBits : List α → ℕ → ℕ
  | [], _ => 0
  | a :: l, x => if p a then x % 2 + 2 * spreadBits l (x / 2) else 2 * spreadBits l x

theorem keepBits_lt (l : List α) (x : ℕ) : keepBits p l x < 2 ^ (l.filter p).length := by
  induction l generalizing x with
  | nil => simp [keepBits]
  | cons a l ih =>
    have hrest := ih (x / 2)
    rw [keepBits]
    by_cases ha : p a
    · rw [if_pos ha, filter_cons_of_pos ha, length_cons, Nat.pow_succ]
      omega
    · rw [if_neg ha, filter_cons_of_neg ha]
      exact hrest

theorem spreadBits_lt (l : List α) (x : ℕ) : spreadBits p l x < 2 ^ l.length := by
  induction l generalizing x with
  | nil => simp [spreadBits]
  | cons a l ih =>
    have hkept := ih (x / 2)
    have hleft := ih x
    rw [spreadBits, length_cons, Nat.pow_succ]
    split_ifs <;> omega

theorem combine_cons_bit (c : ℕ) (cs : List ℕ) (x y : ℕ) :
    combine (c :: cs) (x % 2 + 2 * y) = (if x.testBit 0 then c else 0) ^^^ combine cs y := by
  have hlow : (x % 2 + 2 * y).testBit 0 = x.testBit 0 := by
    rw [Nat.testBit_zero, Nat.testBit_zero, Nat.add_mul_mod_self_left, Nat.mod_mod]
  have hhigh : (x % 2 + 2 * y) / 2 = y := by omega
  rw [combine, hlow, hhigh]

variable (f : α → ℕ)

theorem combine_keepBits {l : List α} (h : ∀ a ∈ l, p a = false → f a = 0) (x : ℕ) :
    combine ((l.filter p).map f) (keepBits p l x) = combine (l.map f) x := by
  induction l generalizing x with
  | nil => rfl
  | cons a l ih =>
    have hrest := ih (fun b hb => h b (mem_cons_of_mem _ hb)) (x / 2)
    rw [keepBits, map_cons, combine]
    by_cases ha : p a
    · rw [if_pos ha, filter_cons_of_pos ha, map_cons, combine_cons_bit, hrest]
    · have hzero : f a = 0 := h a mem_cons_self (by simpa using ha)
      rw [if_neg ha, filter_cons_of_neg ha, hrest, hzero, ite_self, Nat.zero_xor]

theorem combine_spreadBits (l : List α) (x : ℕ) :
    combine (l.map f) (spreadBits p l x) = combine ((l.filter p).map f) x := by
  induction l generalizing x with
  | nil => rfl
  | cons a l ih =>
    rw [spreadBits, map_cons]
    by_cases ha : p a
    · rw [if_pos ha, filter_cons_of_pos ha, map_cons, combine_cons_bit, ih, combine]
    · have hskip := combine_cons_bit (f a) (l.map f) 0 (spreadBits p l x)
      rw [Nat.zero_mod, Nat.zero_add, Nat.zero_testBit, if_neg Bool.false_ne_true,
        Nat.zero_xor] at hskip
      rw [if_neg ha, filter_cons_of_neg ha, hskip, ih]

end TritonCpu.XorSpan
