import Mathlib.Data.Fintype.EquivFin
import Mathlib.Data.List.GetD
import Mathlib.Data.Nat.Bitwise
import Mathlib.Tactic.Ring

/-!
# Xor combinations of bit columns

A matrix over the field of two elements is the list of its columns, each a
natural number whose bit `r` is the entry in row `r`. A vector is the number
whose bits select columns, and the product of the two is the xor of the
selected columns.
-/

set_option autoImplicit false

namespace TritonCpu.XorSpan

open List

/-- The xor of the columns that the bits of `x` select. -/
def combine : List ℕ → ℕ → ℕ
  | [], _ => 0
  | c :: cs, x => (if x.testBit 0 then c else 0) ^^^ combine cs (x / 2)

/-- Every vector of `K` entries is a combination of the columns. -/
def Onto (K : ℕ) (cs : List ℕ) : Prop :=
  ∀ y < 2 ^ K, ∃ x < 2 ^ cs.length, combine cs x = y

def Independent (cs : List ℕ) : Prop :=
  ∀ x < 2 ^ cs.length, combine cs x = 0 → x = 0

section Combine

variable (cs ds : List ℕ) (x y : ℕ)

@[simp] theorem combine_nil : combine [] x = 0 := rfl

@[simp] theorem combine_zero : combine cs 0 = 0 := by
  induction cs with
  | nil => rfl
  | cons c cs ih => simp [combine, ih]

theorem combine_xor : combine cs (x ^^^ y) = combine cs x ^^^ combine cs y := by
  induction cs generalizing x y with
  | nil => simp
  | cons c cs ih =>
    rw [combine, combine, combine, Nat.xor_div_two, ih, Nat.testBit_xor]
    have hselect : (if (x.testBit 0 ^^ y.testBit 0) then c else 0) =
        (if x.testBit 0 then c else 0) ^^^ (if y.testBit 0 then c else 0) := by
      cases x.testBit 0 <;> cases y.testBit 0 <;> simp
    rw [hselect]
    ac_rfl

theorem combine_two_pow (i : ℕ) : combine cs (2 ^ i) = cs.getD i 0 := by
  induction cs generalizing i with
  | nil => simp
  | cons c cs ih =>
    cases i with
    | zero => simp [combine]
    | succ i =>
      have hhalf : 2 ^ (i + 1) / 2 = 2 ^ i := by rw [Nat.pow_succ]; omega
      rw [combine, hhalf, ih, Nat.testBit_two_pow_of_ne (by omega)]
      simp

theorem combine_append : combine (cs ++ ds) x = combine cs x ^^^ combine ds (x / 2 ^ cs.length) := by
  induction cs generalizing x with
  | nil => simp
  | cons c cs ih =>
    rw [cons_append, combine, combine, ih, Nat.div_div_eq_div_mul, length_cons,
      Nat.pow_succ, Nat.mul_comm 2, Nat.xor_assoc]

theorem combine_mod : combine cs (x % 2 ^ cs.length) = combine cs x := by
  induction cs generalizing x with
  | nil => rfl
  | cons c cs ih =>
    have hhalf : x % 2 ^ (cs.length + 1) / 2 = x / 2 % 2 ^ cs.length := by
      rw [Nat.pow_succ, Nat.mul_comm, Nat.mod_mul_right_div_self]
    rw [length_cons, combine, combine, hhalf, ih, Nat.testBit_mod_two_pow]
    simp

theorem combine_take (R : ℕ) : combine (cs.take R) x = combine cs (x % 2 ^ R) := by
  induction cs generalizing R x with
  | nil => simp
  | cons c cs ih =>
    cases R with
    | zero => simp [Nat.mod_one]
    | succ R =>
      have hhalf : x % 2 ^ (R + 1) / 2 = x / 2 % 2 ^ R := by
        rw [Nat.pow_succ, Nat.mul_comm, Nat.mod_mul_right_div_self]
      rw [take_succ_cons, combine, combine, hhalf, ih, Nat.testBit_mod_two_pow]
      simp

theorem combine_map (f : ℕ → ℕ) (hzero : f 0 = 0) (hxor : ∀ a b, f (a ^^^ b) = f a ^^^ f b) :
    combine (cs.map f) x = f (combine cs x) := by
  induction cs generalizing x with
  | nil => simp [hzero]
  | cons c cs ih =>
    rw [map_cons, combine, combine, ih, hxor]
    split_ifs <;> simp [hzero]

theorem combine_concat (c : ℕ) :
    combine (cs ++ [c]) x = combine cs x ^^^ if x.testBit cs.length then c else 0 := by
  have hbit : (x / 2 ^ cs.length).testBit 0 = x.testBit cs.length := by
    rw [Nat.testBit_div_two_pow, Nat.zero_add]
  rw [combine_append, combine, hbit, combine_nil, Nat.xor_zero]

theorem mod_xor_bit (n : ℕ) :
    x % 2 ^ n ^^^ (if x.testBit n then 2 ^ n else 0) = x % 2 ^ (n + 1) := by
  apply Nat.eq_of_testBit_eq
  intro i
  rw [Nat.testBit_xor, Nat.testBit_mod_two_pow, Nat.testBit_mod_two_pow]
  by_cases hi : n = i
  · subst hi
    cases x.testBit n <;> simp
  · have hlt : (i < n + 1) ↔ i < n := by omega
    cases x.testBit n <;> simp [hlt, Nat.testBit_two_pow_of_ne hi]

theorem combine_units (n : ℕ) : combine ((List.range n).map (2 ^ ·)) x = x % 2 ^ n := by
  induction n with
  | zero => simp [Nat.mod_one]
  | succ n ih =>
    rw [range_succ, map_append, map_singleton, combine_concat, ih, length_map,
      length_range, mod_xor_bit]

variable {cs ds x y}

theorem combine_lt {K : ℕ} (h : ∀ c ∈ cs, c < 2 ^ K) : combine cs x < 2 ^ K := by
  induction cs generalizing x with
  | nil => simp
  | cons c cs ih =>
    apply Nat.xor_lt_two_pow
    · split_ifs
      · exact h c (by simp)
      · simp
    · exact ih fun d hd => h d (by simp [hd])

theorem combine_congr {ds : List ℕ} (hlen : cs.length = ds.length) {x : ℕ}
    (h : ∀ i (hi : i < cs.length) (hi' : i < ds.length), x.testBit i = true → cs[i] = ds[i]) :
    combine cs x = combine ds x := by
  induction cs generalizing ds x with
  | nil => rw [length_eq_zero_iff.mp hlen.symm]
  | cons c cs ih =>
    cases ds with
    | nil => simp at hlen
    | cons d ds =>
      have htail : combine cs (x / 2) = combine ds (x / 2) := by
        apply ih (by simpa using hlen)
        intro i hi hi' hbit
        rw [Nat.testBit_div_two] at hbit
        exact h (i + 1) (by simpa using hi) (by simpa using hi') hbit
      rw [combine, combine, htail]
      cases hbit : x.testBit 0 with
      | false => simp
      | true =>
        have hhead : c = d := h 0 (by simp) (by simp) hbit
        rw [hhead]

theorem testBit_combine_eq_false {r : ℕ} (h : ∀ c ∈ cs, c.testBit r = false) (x : ℕ) :
    (combine cs x).testBit r = false := by
  induction cs generalizing x with
  | nil => simp
  | cons c cs ih =>
    rw [combine, Nat.testBit_xor, ih (fun d hd => h d (by simp [hd]))]
    split_ifs
    · simp [h c]
    · simp

theorem combine_eq_iff (hlen : cs.length = ds.length) :
    (∀ x, combine cs x = combine ds x) ↔ cs = ds := by
  constructor
  · intro h
    apply ext_getElem hlen
    intro i hi hi'
    have hcol := h (2 ^ i)
    rwa [combine_two_pow, combine_two_pow, getD_eq_getElem _ _ hi,
      getD_eq_getElem _ _ hi'] at hcol
  · rintro rfl x
    rfl

end Combine

section Onto

variable {K : ℕ} {cs ds : List ℕ}

theorem eq_of_independent (h : Independent cs) {x y : ℕ} (hx : x < 2 ^ cs.length)
    (hy : y < 2 ^ cs.length) (hxy : combine cs x = combine cs y) : x = y := by
  have hzero : x ^^^ y = 0 := by
    apply h _ (Nat.xor_lt_two_pow hx hy)
    rw [combine_xor, hxy, Nat.xor_self]
  exact Nat.xor_eq_zero_iff.mp hzero

theorem onto_of_independent (hlt : ∀ c ∈ cs, c < 2 ^ K) (hlen : cs.length = K)
    (h : Independent cs) : Onto K cs := by
  subst hlen
  let f : Fin (2 ^ cs.length) → Fin (2 ^ cs.length) := fun x => ⟨combine cs x, combine_lt hlt⟩
  have hinj : Function.Injective f := fun a b hab =>
    Fin.ext (eq_of_independent h a.isLt b.isLt (Fin.val_eq_of_eq hab))
  intro y hy
  obtain ⟨x, hx⟩ := Finite.surjective_of_injective hinj ⟨y, hy⟩
  exact ⟨x, x.isLt, Fin.val_eq_of_eq hx⟩

theorem length_le_of_independent (hlt : ∀ c ∈ cs, c < 2 ^ K) (h : Independent cs) :
    cs.length ≤ K := by
  let f : Fin (2 ^ cs.length) → Fin (2 ^ K) := fun x => ⟨combine cs x, combine_lt hlt⟩
  have hinj : Function.Injective f := fun a b hab =>
    Fin.ext (eq_of_independent h a.isLt b.isLt (Fin.val_eq_of_eq hab))
  have hcard := Fintype.card_le_of_injective f hinj
  rw [Fintype.card_fin, Fintype.card_fin] at hcard
  exact (Nat.pow_le_pow_iff_right (by omega)).mp hcard

theorem le_length_of_onto (h : Onto K cs) : K ≤ cs.length := by
  choose f hlt hf using h
  let g : Fin (2 ^ K) → Fin (2 ^ cs.length) := fun y => ⟨f y y.isLt, hlt y y.isLt⟩
  have hinj : Function.Injective g := by
    intro a b hab
    have hval : f a a.isLt = f b b.isLt := Fin.val_eq_of_eq hab
    exact Fin.ext ((hf a a.isLt).symm.trans ((congrArg (combine cs) hval).trans (hf b b.isLt)))
  have hcard := Fintype.card_le_of_injective g hinj
  rw [Fintype.card_fin, Fintype.card_fin] at hcard
  exact (Nat.pow_le_pow_iff_right (by omega)).mp hcard

theorem combine_filter (cs : List ℕ) (x : ℕ) :
    ∃ x' < 2 ^ (cs.filter (· ≠ 0)).length, combine (cs.filter (· ≠ 0)) x' = combine cs x := by
  induction cs generalizing x with
  | nil => exact ⟨0, by simp, rfl⟩
  | cons c cs ih =>
    obtain ⟨x', hx', heq⟩ := ih (x / 2)
    by_cases hc : c = 0
    · subst hc
      refine ⟨x', by simpa using hx', ?_⟩
      rw [filter_cons_of_neg (by simp), combine, heq]
      simp
    · rw [filter_cons_of_pos (by simpa using hc)]
      refine ⟨Nat.bit (x.testBit 0) x', ?_, ?_⟩
      · have hbit := Bool.toNat_le (x.testBit 0)
        rw [length_cons, Nat.pow_succ, Nat.bit_val]
        omega
      · rw [combine, combine, Nat.testBit_bit_zero, Nat.bit_div_two, heq]

theorem onto_filter (h : Onto K cs) : Onto K (cs.filter (· ≠ 0)) := by
  intro y hy
  obtain ⟨x, -, hx⟩ := h y hy
  obtain ⟨x', hx', heq⟩ := combine_filter cs x
  exact ⟨x', hx', heq.trans hx⟩

theorem eq_of_kernel (hker : ∀ x, combine cs x = 0 ↔ combine ds x = 0) (x y : ℕ) :
    combine cs x = combine cs y ↔ combine ds x = combine ds y := by
  rw [← Nat.xor_eq_zero_iff, ← combine_xor, hker, combine_xor, Nat.xor_eq_zero_iff]

theorem onto_of_kernel (hlen : cs.length = ds.length) (hds : ∀ d ∈ ds, d < 2 ^ K)
    (hker : ∀ x, combine cs x = 0 ↔ combine ds x = 0) (h : Onto K cs) : Onto K ds := by
  choose f hlt hf using h
  let g : Fin (2 ^ K) → Fin (2 ^ K) := fun y => ⟨combine ds (f y y.isLt), combine_lt hds⟩
  have hinj : Function.Injective g := by
    intro a b hab
    have hval : combine ds (f a a.isLt) = combine ds (f b b.isLt) := Fin.val_eq_of_eq hab
    have hback := (eq_of_kernel hker _ _).mpr hval
    exact Fin.ext (by rw [← hf a a.isLt, hback, hf b b.isLt])
  intro y hy
  obtain ⟨x, hx⟩ := Finite.surjective_of_injective hinj ⟨y, hy⟩
  exact ⟨f x x.isLt, hlen ▸ hlt x x.isLt, Fin.val_eq_of_eq hx⟩

end Onto

end TritonCpu.XorSpan
