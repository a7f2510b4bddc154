import Mathlib.Algebra.BigOperators.Group.List.Basic
import Mathlib.Algebra.BigOperators.Ring.List
import Mathlib.Algebra.Order.BigOperators.Group.List
import Mathlib.Algebra.Order.Field.Basic
import Mathlib.Algebra.Order.Monoid.Unbundled.WithTop
import Mathlib.Algebra.Order.Ring.WithTop
import Mathlib.Analysis.SpecialFunctions.Pow.Real
import Mathlib.Tactic.FieldSimp
import Mathlib.Tactic.Ring

/-!
# Weighted means in one pass

The mean of values, weighted by the powers of scores, of which some may be
minus infinity. The scores arrive in portions; a state keeps a bound of the
scores, and the sums of the weights and of the weighted values relative to it.
-/

set_option autoImplicit false

namespace TritonCpu.OnlineSoftmax

/-- A power function into the positive numbers; that of minus infinity is zero. -/
structure Exp2 (𝕜 : Type) [Field 𝕜] [LinearOrder 𝕜] where
  exp2 : WithBot 𝕜 → 𝕜
  exp2_bot : exp2 ⊥ = 0
  exp2_pos (x : 𝕜) : 0 < exp2 x
  exp2_add (x y : 𝕜) : exp2 ((x + y : 𝕜) : WithBot 𝕜) = exp2 x * exp2 y

/-- A state: the largest score, and the sums relative to its power. -/
structure State (𝕜 ι : Type) where
  m : WithBot 𝕜
  l : 𝕜
  acc : ι → 𝕜

/-- A score and the values that it weighs. -/
abbrev Key (𝕜 ι : Type) := WithBot 𝕜 × (ι → 𝕜)

section Field

variable {𝕜 ι : Type} [Field 𝕜] [LinearOrder 𝕜] (E : Exp2 𝕜)

def denominator (keys : List (Key 𝕜 ι)) : 𝕜 := (keys.map fun key => E.exp2 key.1).sum

def numerator (keys : List (Key 𝕜 ι)) (d : ι) : 𝕜 :=
  (keys.map fun key => E.exp2 key.1 * key.2 d).sum

def safe (m : WithBot 𝕜) : 𝕜 := if m = ⊥ then 0 else m.unbotD 0

def State.absorb (s : State 𝕜 ι) (m : WithBot 𝕜) (keys : List (Key 𝕜 ι)) : State 𝕜 ι where
  m := m
  l := s.l * E.exp2 (s.m + (-safe m : 𝕜)) +
    (keys.map fun key => E.exp2 (key.1 + (-safe m : 𝕜))).sum
  acc d := s.acc d * E.exp2 (s.m + (-safe m : 𝕜)) +
    (keys.map fun key => E.exp2 (key.1 + (-safe m : 𝕜)) * key.2 d).sum

/-- The reciprocal of the sum, or zero before the first finite score. -/
def State.inv (s : State 𝕜 ι) : 𝕜 := if 0 < s.l ∧ s.m ≠ ⊥ then 1 / s.l else 0

/-- The state after some keys. -/
structure State.After (s : State 𝕜 ι) (keys : List (Key 𝕜 ι)) : Prop where
  unseen : s.m = ⊥ ↔ ∀ key ∈ keys, key.1 = ⊥
  sum : E.exp2 s.m * s.l = denominator E keys
  acc : ∀ d, E.exp2 s.m * s.acc d = numerator E keys d

variable {E}

theorem Exp2.exp2_ne_zero {m : WithBot 𝕜} (h : m ≠ ⊥) : 0 < E.exp2 m := by
  lift m to 𝕜 using h
  exact E.exp2_pos m

theorem Exp2.exp2_mul_relative {m x : WithBot 𝕜} (h : m = ⊥ → x = ⊥) :
    E.exp2 m * E.exp2 (x + (-safe m : 𝕜)) = E.exp2 x := by
  by_cases hx : x = ⊥
  · rw [hx, WithBot.bot_add, E.exp2_bot, mul_zero]
  · have hm : m ≠ ⊥ := fun hm => hx (h hm)
    lift m to 𝕜 using hm
    lift x to 𝕜 using hx
    have hsafe : safe (m : WithBot 𝕜) = m := by simp [safe]
    rw [hsafe, ← WithBot.coe_add, ← E.exp2_add, add_comm x, add_neg_cancel_left]

theorem denominator_append (keys keys' : List (Key 𝕜 ι)) :
    denominator E (keys ++ keys') = denominator E keys + denominator E keys' := by
  simp [denominator]

theorem numerator_append (keys keys' : List (Key 𝕜 ι)) (d : ι) :
    numerator E (keys ++ keys') d = numerator E keys d + numerator E keys' d := by
  simp [numerator]

theorem denominator_relative {m : WithBot 𝕜} {keys : List (Key 𝕜 ι)}
    (h : m = ⊥ → ∀ key ∈ keys, key.1 = ⊥) :
    E.exp2 m * (keys.map fun key => E.exp2 (key.1 + (-safe m : 𝕜))).sum = denominator E keys := by
  rw [denominator, ← List.sum_map_mul_left]
  congr 1
  apply List.map_congr_left
  intro key hkey
  exact Exp2.exp2_mul_relative fun hm => h hm key hkey

theorem numerator_relative {m : WithBot 𝕜} {keys : List (Key 𝕜 ι)}
    (h : m = ⊥ → ∀ key ∈ keys, key.1 = ⊥) (d : ι) :
    E.exp2 m * (keys.map fun key => E.exp2 (key.1 + (-safe m : 𝕜)) * key.2 d).sum =
      numerator E keys d := by
  rw [numerator, ← List.sum_map_mul_left]
  congr 1
  apply List.map_congr_left
  intro key hkey
  rw [← mul_assoc, Exp2.exp2_mul_relative fun hm => h hm key hkey]

theorem State.after_nil {s : State 𝕜 ι} (h : s.m = ⊥) : s.After E [] where
  unseen := by simp [h]
  sum := by rw [h, E.exp2_bot, zero_mul]; rfl
  acc d := by rw [h, E.exp2_bot, zero_mul]; rfl

/-- A portion extends the keys of a state, whatever its new bound, as long as
the bound is finite from the first finite score on. -/
theorem State.After.absorb {s : State 𝕜 ι} {seen keys : List (Key 𝕜 ι)} {m : WithBot 𝕜}
    (hs : s.After E seen) (hm : m = ⊥ ↔ s.m = ⊥ ∧ ∀ key ∈ keys, key.1 = ⊥) :
    (s.absorb E m keys).After E (seen ++ keys) := by
  have hold : m = ⊥ → s.m = ⊥ := fun h => (hm.mp h).1
  have hnew : m = ⊥ → ∀ key ∈ keys, key.1 = ⊥ := fun h => (hm.mp h).2
  have hscale : ∀ x : 𝕜, E.exp2 m * (x * E.exp2 (s.m + (-safe m : 𝕜))) = E.exp2 s.m * x := by
    intro x
    rw [mul_left_comm, Exp2.exp2_mul_relative hold, mul_comm]
  constructor
  · show m = ⊥ ↔ _
    rw [hm, hs.unseen, List.forall_mem_append]
  · show E.exp2 m * (s.l * _ + _) = _
    rw [mul_add, hscale, hs.sum, denominator_relative hnew, denominator_append]
  · intro d
    show E.exp2 m * (s.acc d * _ + _) = _
    rw [mul_add, hscale, hs.acc, numerator_relative hnew, numerator_append]

variable [IsStrictOrderedRing 𝕜] {s : State 𝕜 ι} {keys : List (Key 𝕜 ι)}

theorem denominator_pos (h : ∃ key ∈ keys, key.1 ≠ ⊥) : 0 < denominator E keys := by
  obtain ⟨key, hmem, hkey⟩ := h
  have hnonneg : ∀ x ∈ keys.map (fun key => E.exp2 key.1), 0 ≤ x := by
    intro x hx
    obtain ⟨other, -, rfl⟩ := List.mem_map.mp hx
    by_cases hbot : other.1 = ⊥
    · rw [hbot, E.exp2_bot]
    · exact (Exp2.exp2_ne_zero hbot).le
  calc 0 < E.exp2 key.1 := Exp2.exp2_ne_zero hkey
    _ ≤ denominator E keys :=
      List.single_le_sum hnonneg _ (List.mem_map_of_mem hmem)

theorem State.After.finite (hs : s.After E keys) (h : ∃ key ∈ keys, key.1 ≠ ⊥) :
    s.m ≠ ⊥ ∧ 0 < s.l := by
  have hm : s.m ≠ ⊥ := by
    obtain ⟨key, hmem, hkey⟩ := h
    intro hm
    exact hkey (hs.unseen.mp hm key hmem)
  refine ⟨hm, ?_⟩
  have hpos := denominator_pos (E := E) h
  rw [← hs.sum] at hpos
  exact (pos_iff_pos_of_mul_pos hpos).mp (Exp2.exp2_ne_zero hm)

omit [IsStrictOrderedRing 𝕜] in
theorem State.After.unseen_inv (hs : s.After E keys) (h : ∀ key ∈ keys, key.1 = ⊥) :
    s.m = ⊥ ∧ s.inv = 0 := by
  have hm := hs.unseen.mpr h
  exact ⟨hm, by simp [State.inv, hm]⟩

theorem State.After.acc_mul_inv (hs : s.After E keys) (d : ι) :
    s.acc d * s.inv = numerator E keys d / denominator E keys := by
  by_cases h : ∃ key ∈ keys, key.1 ≠ ⊥
  · obtain ⟨hm, hl⟩ := hs.finite h
    rw [State.inv, if_pos ⟨hl, hm⟩, ← hs.sum, ← hs.acc,
      mul_div_mul_left _ _ (Exp2.exp2_ne_zero hm).ne', mul_one_div]
  · obtain ⟨hm, hinv⟩ := hs.unseen_inv (by simpa using h)
    rw [hinv, ← hs.sum, hm, E.exp2_bot, zero_mul, div_zero, mul_zero]

end Field

noncomputable def realExp2 : Exp2 ℝ where
  exp2 x := if x = ⊥ then 0 else (2 : ℝ) ^ x.unbotD 0
  exp2_bot := if_pos rfl
  exp2_pos x := by
    rw [if_neg (WithBot.coe_ne_bot), WithBot.unbotD_coe]
    exact Real.rpow_pos_of_pos two_pos x
  exp2_add x y := by
    simp only [WithBot.coe_ne_bot, if_false, WithBot.unbotD_coe]
    exact Real.rpow_add two_pos x y

end TritonCpu.OnlineSoftmax
