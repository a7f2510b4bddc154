import TritonCpu.InjectiveMat

/-!
# Solving for columns by elimination

Two lists of columns with distinguishable zero columns stand side by side. When
the first columns are independent, the reduced form has the identity in front,
and the columns of the second list are replaced by their coordinates over the
first.
-/

set_option autoImplicit false

namespace TritonCpu

open XorSpan List

/-- The non-zero columns among the first `R` are independent. -/
def NonzeroIndependent (R : ℕ) (cs : List ℕ) : Prop :=
  ∀ x < 2 ^ R, (∀ j, x.testBit j = true → cs.getD j 0 ≠ 0) → combine cs x = 0 → x = 0

section Solve

variable {K K' R : ℕ} {cs cs' ds : List ℕ}

theorem units_of_bits (hech : Echelon ds) (hR : R ≤ ds.length)
    (hbits : ∀ c < R, (ds.getD c 0).testBit c = true) :
    ds.take R = (List.range R).map (2 ^ ·) := by
  induction R with
  | zero => simp
  | succ R ih =>
    have hprev := ih (by omega) fun c hc => hbits c (by omega)
    have hlt : R < ds.length := by omega
    have hcol := hech R hlt
    rw [hprev, rank_units] at hcol
    have hbit := hbits R (by omega)
    rw [getD_eq_getElem _ _ hlt] at hbit
    rw [take_succ_eq_append_getElem hlt, hprev, range_succ, map_append,
      map_singleton]
    rcases hcol.eq_or_lt with heq | hsmall
    · rw [heq]
    · rw [Nat.testBit_lt_two_pow hsmall] at hbit
      exact absurd hbit (by simp)

theorem bits_of_units (hR : R ≤ ds.length) (hunits : ds.take R = (List.range R).map (2 ^ ·))
    {r c : ℕ} (hc : c < R) : (ds.getD c 0).testBit r = (r == c) := by
  have hcol : ds.getD c 0 = 2 ^ c := by
    have htake : (ds.take R).getD c 0 = ds.getD c 0 := by
      rw [getD_eq_getElem _ _ (by simp; omega), getElem_take,
        getD_eq_getElem _ _ (by omega)]
    rw [← htake, hunits, getD_eq_getElem _ _ (by simpa using hc)]
    simp
  rw [hcol, Nat.testBit_two_pow, Bool.eq_iff_iff, decide_eq_true_iff, beq_iff_eq]
  exact eq_comm

theorem independent_take_expandZeros (hlt : ∀ c ∈ cs, c < 2 ^ K) (hR : R ≤ cs.length) :
    Independent ((expandZeros K cs).take R) ↔ NonzeroIndependent R cs := by
  have hlen : ((expandZeros K cs).take R).length = R := by
    rw [length_take, length_expandZeros, Nat.min_eq_left hR]
  have hcancel : ∀ x < 2 ^ R, combine ((expandZeros K cs).take R) x = 0 ↔
      combine cs x = 0 ∧ ∀ j, x.testBit j = true → cs.getD j 0 ≠ 0 := by
    intro x hx
    rw [combine_take, Nat.mod_eq_of_lt hx, combine_expandZeros_eq_zero hlt le_rfl]
    refine and_congr_right fun _ => ⟨fun h j hbit => ?_, fun h j hj hbit => ?_⟩
    · have hj : j < cs.length := by
        by_contra hout
        have hbig : x < 2 ^ j := hx.trans_le (Nat.pow_le_pow_right (by omega) (by omega))
        rw [Nat.testBit_lt_two_pow hbig] at hbit
        exact absurd hbit (by simp)
      rw [getD_eq_getElem _ _ hj]
      exact h j hj hbit
    · have hne := h j hbit
      rwa [getD_eq_getElem _ _ hj] at hne
  rw [Independent, hlen, NonzeroIndependent]
  constructor
  · intro h x hx hsel hzero
    exact h x hx ((hcancel x hx).mpr ⟨hzero, hsel⟩)
  · intro h x hx hzero
    obtain ⟨hcols, hsel⟩ := (hcancel x hx).mp hzero
    exact h x hx hsel hcols

/-- The first columns of the reduced form are the identity exactly when the
non-zero columns among the first are independent. -/
theorem identity_iff (hlt : ∀ c ∈ cs, c < 2 ^ K) (hR : R ≤ cs.length) (hech : Echelon ds)
    (hds : R ≤ ds.length)
    (hker : ∀ x, combine (expandZeros K cs ++ expandZeros K' cs') x = 0 ↔ combine ds x = 0) :
    (∀ r < R, ∀ c < R, (ds.getD c 0).testBit r = (r == c)) ↔ NonzeroIndependent R cs := by
  have htake : (expandZeros K cs ++ expandZeros K' cs').take R = (expandZeros K cs).take R :=
    take_append_of_le_length (by rwa [length_expandZeros])
  have hall : R ≤ (expandZeros K cs ++ expandZeros K' cs').length := by
    rw [length_append, length_expandZeros]
    omega
  rw [← independent_take_expandZeros hlt hR, ← htake]
  constructor
  · intro hbits
    have hunits := units_of_bits hech hds fun c hc => by simpa using hbits c hc c hc
    exact independent_of_units hker hall hunits
  · intro hind r _ c hc
    exact bits_of_units hds (units_of_independent hech hker hall hds hind) hc

/-- The low coordinates of a reduced column solve for the column it replaces, as
far as the rows of the first list go. -/
theorem combine_reduced (hlt : ∀ c ∈ cs, c < 2 ^ K) (hlt' : ∀ c ∈ cs', c < 2 ^ K') (hK : K' ≤ K)
    (hR : R = K + cs.count 0) (hRle : R ≤ cs.length) (hech : Echelon ds)
    (hds : ds.length = cs.length + cs'.length)
    (hker : ∀ x, combine (expandZeros K cs ++ expandZeros K' cs') x = 0 ↔ combine ds x = 0)
    (hind : NonzeroIndependent R cs) {c : ℕ} (hc : c < cs'.length) :
    combine cs (ds.getD (cs.length + c) 0 % 2 ^ R) = (expandZeros K' cs').getD c 0 % 2 ^ K := by
  have hind' := (independent_take_expandZeros hlt hRle).mpr hind
  have htake : (expandZeros K cs ++ expandZeros K' cs').take R = (expandZeros K cs).take R :=
    take_append_of_le_length (by rwa [length_expandZeros])
  have hunits : ds.take R = (List.range R).map (2 ^ ·) := by
    apply units_of_independent hech hker
    · rw [length_append, length_expandZeros]
      omega
    · omega
    · rwa [htake]
  have hcol : (expandZeros K cs ++ expandZeros K' cs').getD (cs.length + c) 0 =
      (expandZeros K' cs').getD c 0 := by
    rw [getD_append_right _ _ _ _ (by simp), length_expandZeros, Nat.add_sub_cancel_left]
  have hc' : c < (expandZeros K' cs').length := by rwa [length_expandZeros]
  by_cases hsmall : (expandZeros K' cs').getD c 0 < 2 ^ R
  · -- the column is a combination of the first ones
    have hspan : Onto R ((expandZeros K cs).take R) := by
      apply onto_of_independent _ (by rw [length_take, length_expandZeros]; omega) hind'
      intro d hd
      rw [hR]
      exact expandZeros_lt hlt le_rfl d (mem_of_mem_take hd)
    obtain ⟨y, hy, hyq⟩ := hspan _ hsmall
    rw [length_take, length_expandZeros, Nat.min_eq_left hRle] at hy
    rw [combine_take, Nat.mod_eq_of_lt hy] at hyq
    have hyn : y < 2 ^ cs.length := hy.trans_le (Nat.pow_le_pow_right (by omega) hRle)
    have hboth : combine (expandZeros K cs ++ expandZeros K' cs') y =
        (expandZeros K' cs').getD c 0 := by
      rw [combine_append, length_expandZeros, Nat.div_eq_of_lt hyn, combine_zero, Nat.xor_zero, hyq]
    rw [reduced_of_combine hker hunits hy (hboth.trans hcol.symm), Nat.mod_eq_of_lt hy, ← hyq,
      combine_expandZeros_mod hlt le_rfl]
  · -- the column is zero in the layout and has a row of its own below the first list
    rw [getD_eq_getElem _ _ hc', getElem_expandZeros hc' hc] at hsmall ⊢
    have hzero : cs'[c] = 0 := by
      by_contra hne
      rw [if_neg hne] at hsmall
      exact hsmall ((hlt' _ (getElem_mem hc)).trans_le
        (Nat.pow_le_pow_right (by omega) (by omega)))
    rw [if_pos hzero] at hsmall ⊢
    have hrow : R ≤ K' + (cs'.take c).count 0 := by
      by_contra hlow
      exact hsmall (Nat.pow_lt_pow_right (by omega) (by omega))
    have hunused : ∀ x, combine (expandZeros K cs ++ expandZeros K' cs') x = 0 →
        x.testBit (cs.length + c) = false := by
      intro x hx
      have hfirst : (combine (expandZeros K cs) x).testBit (K' + (cs'.take c).count 0) = false := by
        apply Nat.testBit_lt_two_pow
        refine (combine_lt (expandZeros_lt hlt le_rfl)).trans_le ?_
        exact Nat.pow_le_pow_right (by omega) (by omega)
      have hbit := testBit_combine_expandZeros hlt' le_rfl hc hzero (x / 2 ^ cs.length)
      rw [combine_append, length_expandZeros] at hx
      have hsum := congrArg (fun y => y.testBit (K' + (cs'.take c).count 0)) hx
      simp only [Nat.testBit_xor, hfirst, hbit, Nat.testBit_div_two_pow, Nat.zero_testBit] at hsum
      rw [Nat.add_comm]
      simpa using hsum
    rw [reduced_of_unused hech hker hunits (by omega) (by omega) hunused, combine_zero]
    exact (Nat.mod_eq_zero_of_dvd (Nat.pow_dvd_pow 2 (by omega))).symm

/-- With the same columns on both sides, the second half of the reduced form is
the identity as well, zero columns included. -/
theorem reduced_self (hlt : ∀ c ∈ cs, c < 2 ^ K) (hech : Echelon ds)
    (hds : ds.length = cs.length + cs.length)
    (hker : ∀ x, combine (expandZeros K cs ++ expandZeros K cs) x = 0 ↔ combine ds x = 0)
    (hind : NonzeroIndependent cs.length cs) {c : ℕ} (hc : c < cs.length) :
    ds.getD (cs.length + c) 0 = 2 ^ c := by
  have hind' := (independent_take_expandZeros hlt le_rfl).mpr hind
  have htake : (expandZeros K cs ++ expandZeros K cs).take cs.length =
      (expandZeros K cs).take cs.length :=
    take_append_of_le_length (by rw [length_expandZeros])
  have hunits : ds.take cs.length = (List.range cs.length).map (2 ^ ·) := by
    apply units_of_independent hech hker
    · rw [length_append, length_expandZeros]
      omega
    · omega
    · rwa [htake]
  have hlow : 2 ^ c < 2 ^ cs.length := Nat.pow_lt_pow_right (by omega) hc
  apply reduced_of_combine hker hunits hlow
  rw [combine_two_pow, getD_append _ _ _ _ (by rwa [length_expandZeros]),
    getD_append_right _ _ _ _ (by simp), length_expandZeros, Nat.add_sub_cancel_left]

/-- Independent columns that span all rows leave, with the rows of the zero
columns, exactly one row for each column. -/
theorem rows_eq_length (hlt : ∀ c ∈ cs, c < 2 ^ K) (honto : Onto K cs)
    (hind : NonzeroIndependent cs.length cs) : K + cs.count 0 = cs.length := by
  have hind' := (independent_take_expandZeros hlt le_rfl).mpr hind
  rw [take_of_length_le (by rw [length_expandZeros])] at hind'
  have hle := length_le_of_independent (expandZeros_lt hlt le_rfl) hind'
  rw [length_expandZeros] at hle
  exact le_antisymm (add_count_le_length honto) hle

end Solve

end TritonCpu
