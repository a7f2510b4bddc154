import Mathlib.Data.Nat.Cast.Basic
import Mathlib.Data.Nat.ModEq
import Mathlib.Algebra.Ring.Basic
import Mathlib.Tactic.Common

/-!
# Aligned groups

A line of `n` elements is cut into aligned groups of `c`. On each group a
function may be constant or grow by a step, and a property may hold of the
first element of each.
-/

set_option autoImplicit false

namespace TritonCpu.AlignedGroups

variable {α β γ : Type}

/-- The first position of the group of `c` elements around `p`. -/
def groupStart (c p : ℕ) : ℕ := p - p % c

theorem groupStart_le (c p : ℕ) : groupStart c p ≤ p := Nat.sub_le p (p % c)

theorem groupStart_add_mod (c p : ℕ) : groupStart c p + p % c = p :=
  Nat.sub_add_cancel (Nat.mod_le p c)

theorem dvd_groupStart (c p : ℕ) : c ∣ groupStart c p := Nat.dvd_sub_mod p

theorem groupStart_eq_mul (c p : ℕ) : groupStart c p = c * (p / c) := by
  have h := Nat.div_add_mod p c
  unfold groupStart
  omega

theorem groupStart_of_dvd {c p : ℕ} (h : c ∣ p) : groupStart c p = p := by
  rw [groupStart, Nat.mod_eq_zero_of_dvd h, Nat.sub_zero]

@[simp] theorem groupStart_one (p : ℕ) : groupStart 1 p = p := groupStart_of_dvd (Nat.one_dvd p)

theorem groupStart_of_lt {c p : ℕ} (h : p < c) : groupStart c p = 0 := by
  rw [groupStart, Nat.mod_eq_of_lt h, Nat.sub_self]

theorem groupStart_groupStart {c k : ℕ} (h : k ∣ c) (p : ℕ) :
    groupStart c (groupStart k p) = groupStart c p := by
  obtain ⟨m, rfl⟩ := h
  rcases Nat.eq_zero_or_pos k with rfl | hk
  · simp [groupStart]
  rw [groupStart_eq_mul (k * m) p, groupStart_eq_mul (k * m), groupStart_eq_mul k p]
  rw [← Nat.div_div_eq_div_mul, Nat.mul_div_cancel_left _ hk, Nat.div_div_eq_div_mul]

theorem mod_groupStart {c k : ℕ} (h : k ∣ c) (p : ℕ) :
    groupStart k p % c + p % k = p % c := by
  have h1 := groupStart_add_mod c (groupStart k p)
  rw [groupStart_groupStart h] at h1
  have h2 := groupStart_add_mod c p
  have h3 := groupStart_add_mod k p
  omega

def Constant (c : ℕ) (f : ℕ → α) (n : ℕ) : Prop := ∀ p < n, f p = f (groupStart c p)

def Heads (c : ℕ) (P : α → Prop) (f : ℕ → α) (n : ℕ) : Prop := ∀ p < n, c ∣ p → P (f p)

section Steps

variable [Ring α]

def Contiguous (c : ℕ) (step : α) (f : ℕ → α) (n : ℕ) : Prop :=
  ∀ p < n, f p = f (groupStart c p) + step * ((p % c : ℕ) : α)

end Steps

section Decidable

variable (c n : ℕ) (f : ℕ → α)

instance [DecidableEq α] : Decidable (Constant c f n) :=
  inferInstanceAs (Decidable (∀ p < n, f p = f (groupStart c p)))

instance (P : α → Prop) [DecidablePred P] : Decidable (Heads c P f n) :=
  inferInstanceAs (Decidable (∀ p < n, c ∣ p → P (f p)))

instance [Ring α] [DecidableEq α] (step : α) : Decidable (Contiguous c step f n) :=
  inferInstanceAs (Decidable (∀ p < n, f p = f (groupStart c p) + step * ((p % c : ℕ) : α)))

end Decidable

section Constant

variable {c k n : ℕ} {f : ℕ → α} {g : ℕ → β}

@[simp] theorem constant_one (f : ℕ → α) (n : ℕ) : Constant 1 f n := by
  intro p _
  rw [groupStart_one]

theorem Constant.mono (h : Constant c f n) (hk : k ∣ c) : Constant k f n := by
  intro p hp
  have hq : groupStart k p < n := Nat.lt_of_le_of_lt (groupStart_le k p) hp
  rw [h p hp, h _ hq, groupStart_groupStart hk]

theorem constant_of_forall (h : ∀ p < n, f p = f 0) (c : ℕ) : Constant c f n := by
  intro p hp
  rw [h p hp, h _ (Nat.lt_of_le_of_lt (groupStart_le c p) hp)]

theorem Constant.map₂ (hf : Constant c f n) (hg : Constant c g n) (op : α → β → γ) :
    Constant c (fun p => op (f p) (g p)) n := by
  intro p hp
  show op (f p) (g p) = _
  rw [hf p hp, hg p hp]

end Constant

section Contiguous

variable [Ring α] {c k n : ℕ} {step : α} {f g : ℕ → α} {P : α → Prop}

@[simp] theorem contiguous_one (step : α) (f : ℕ → α) (n : ℕ) : Contiguous 1 step f n := by
  intro p _
  rw [groupStart_one, Nat.mod_one, Nat.cast_zero, mul_zero, add_zero]

theorem Contiguous.mono (h : Contiguous c step f n) (hk : k ∣ c) : Contiguous k step f n := by
  intro p hp
  have hq : groupStart k p < n := Nat.lt_of_le_of_lt (groupStart_le k p) hp
  rw [h p hp, h _ hq, groupStart_groupStart hk, ← mod_groupStart hk p, Nat.cast_add, mul_add,
    add_assoc]

theorem Contiguous.add_constant (hf : Contiguous c step f n) (hg : Constant c g n) :
    Contiguous c step (fun p => f p + g p) n := by
  intro p hp
  show f p + g p = f (groupStart c p) + g (groupStart c p) + step * ((p % c : ℕ) : α)
  rw [hf p hp, hg p hp]
  exact add_right_comm _ _ _

theorem Contiguous.sub_constant (hf : Contiguous c step f n) (hg : Constant c g n) :
    Contiguous c step (fun p => f p - g p) n := by
  intro p hp
  show f p - g p = f (groupStart c p) - g (groupStart c p) + step * ((p % c : ℕ) : α)
  rw [hf p hp, hg p hp]
  exact add_sub_right_comm _ _ _

theorem Contiguous.congr {h : ℕ → α} (hf : Contiguous c step f n) (heq : ∀ p < n, h p = f p) :
    Contiguous c step h n := by
  intro p hp
  rw [heq p hp, heq _ (Nat.lt_of_le_of_lt (groupStart_le c p) hp)]
  exact hf p hp

end Contiguous

end TritonCpu.AlignedGroups
