import Mathlib.Data.Nat.Factorization.Basic
import TritonCpu.F2Reduce

/-!
# The elimination of `f2reduce`

Row by row: the row with the lowest leading column is brought up, and that
column is cleared in all other rows. The rows below keep only columns to the
right of the last pivot.
-/

set_option autoImplicit false

namespace TritonCpu

open XorSpan List

/-- `m & (-m)` on `uint64_t`. -/
def lowestBit (m : ℕ) : ℕ := m &&& (2 ^ 64 - m) % 2 ^ 64

/-- `(m & (-m)) - 1` on `uint64_t`. -/
def lowMask (m : ℕ) : ℕ := (lowestBit m + (2 ^ 64 - 1)) % 2 ^ 64

/-- The inner loop over the rows after `matrix[r]`: it swaps a row of a lower
mask into `matrix[r]` and stops at the lowest mask there can be. It returns
`matrix[r]`, its mask and the rows after it. -/
def selectPivot (next_b : ℕ) : ℕ → ℕ → List ℕ → ℕ × ℕ × List ℕ
  | m, b, [] => (m, b, [])
  | m, b, this_row :: rows =>
    let a := lowMask this_row
    if a < b then
      if a = next_b then (this_row, a, m :: rows)
      else
        let r := selectPivot next_b this_row a rows
        (r.1, r.2.1, m :: r.2.2)
    else if b = next_b then (m, b, this_row :: rows)
    else
      let r := selectPivot next_b m b rows
      (r.1, r.2.1, this_row :: r.2.2)

/-- `if (matrix[s] & ml) { matrix[s] ^= m; }` -/
def eliminate (m row : ℕ) : ℕ := if row &&& lowestBit m ≠ 0 then row ^^^ m else row

/-- The outer loop; `above` are the rows before `matrix[r]`. -/
def rrefRows (final_b : ℕ) : ℕ → ℕ → List ℕ → List ℕ → List ℕ
  | 0, _, above, below => above ++ below
  | _ + 1, _, above, [] => above
  | n + 1, next_b, above, m :: below =>
    let r := selectPivot next_b m (lowMask m) below
    if r.2.1 = 2 ^ 64 - 1 then above ++ r.1 :: r.2.2
    else
      let above' := above.map (eliminate r.1) ++ [r.1]
      let below' := r.2.2.map (eliminate r.1)
      if r.2.1 = final_b then above' ++ below'
      else rrefRows final_b n ((2 * r.2.1 + 1) % 2 ^ 64) above' below'

def inplaceRrefSmall (matrix : List ℕ) (cols : ℕ) : List ℕ :=
  rrefRows (2 ^ (cols - 1) - 1) matrix.length 0 [] matrix

/-- `inplace_rref_strided` for at most 64 rows and 64 columns. -/
def inplaceRrefStrided (matrix : List ℕ) (cols : ℕ) : List ℕ :=
  if matrix.length ≤ 1 then matrix else inplaceRrefSmall matrix cols

section LowestBit

theorem exists_odd {m : ℕ} (hm : m ≠ 0) : ∃ k q, m = 2 ^ k * (2 * q + 1) := by
  obtain ⟨k, u, hu, hmu⟩ := Nat.exists_eq_two_pow_mul_odd hm
  obtain ⟨q, rfl⟩ := hu
  exact ⟨k, q, hmu⟩

theorem lowestBit_eq {m : ℕ} (hm : m ≠ 0) (hlt : m < 2 ^ 64) :
    ∃ k < 64, m.testBit k = true ∧ m % 2 ^ k = 0 ∧ lowestBit m = 2 ^ k := by
  obtain ⟨k, q, rfl⟩ := exists_odd hm
  have hk : k < 64 := by
    by_contra hbig
    have hpow : (2 : ℕ) ^ 64 ≤ 2 ^ k := Nat.pow_le_pow_right (by omega) (by omega)
    have hmul : 2 ^ k * 1 ≤ 2 ^ k * (2 * q + 1) := Nat.mul_le_mul_left _ (by omega)
    omega
  have hsplit : (2 : ℕ) ^ 64 = 2 ^ k * (2 * 2 ^ (63 - k)) := by
    rw [← pow_succ', ← pow_add]
    congr 1
    omega
  have hq : q < 2 ^ (63 - k) := by
    rw [hsplit] at hlt
    have := Nat.lt_of_mul_lt_mul_left hlt
    omega
  have hneg : (2 ^ 64 - 2 ^ k * (2 * q + 1)) % 2 ^ 64 =
      2 ^ k * (2 * (2 ^ (63 - k) - (q + 1)) + 1) := by
    have hpos : 0 < 2 ^ k * (2 * q + 1) := Nat.mul_pos (Nat.two_pow_pos k) (by omega)
    rw [Nat.mod_eq_of_lt (by omega), hsplit, ← Nat.mul_sub]
    congr 1
    omega
  have hbit : ∀ i, (2 ^ k * (2 * q + 1) &&& 2 ^ k * (2 * (2 ^ (63 - k) - (q + 1)) + 1)).testBit i =
      (2 ^ k).testBit i := by
    intro i
    rw [Nat.testBit_and, Nat.testBit_two_pow_mul, Nat.testBit_two_pow_mul, Nat.testBit_two_pow]
    by_cases hi : i < k
    · simp [show ¬ k ≤ i by omega, show k ≠ i by omega]
    · obtain ⟨j, rfl⟩ : ∃ j, i = k + j := ⟨i - k, by omega⟩
      rw [Nat.add_sub_cancel_left]
      cases j with
      | zero => simp [Nat.testBit_zero]
      | succ j =>
        rw [Nat.testBit_succ, Nat.testBit_succ, show (2 * q + 1) / 2 = q by omega,
          show (2 * (2 ^ (63 - k) - (q + 1)) + 1) / 2 = 2 ^ (63 - k) - (q + 1) by omega,
          Nat.testBit_two_pow_sub_succ hq]
        cases q.testBit j <;> simp
  refine ⟨k, hk, ?_, Nat.mul_mod_right _ _, ?_⟩
  · rw [Nat.testBit_two_pow_mul]
    simp [Nat.testBit_zero]
  · rw [lowestBit, hneg]
    exact Nat.eq_of_testBit_eq hbit

theorem lowMask_eq {m : ℕ} (hm : m ≠ 0) (hlt : m < 2 ^ 64) :
    ∃ k < 64, m.testBit k = true ∧ m % 2 ^ k = 0 ∧ lowestBit m = 2 ^ k ∧ lowMask m = 2 ^ k - 1 := by
  obtain ⟨k, hk, hbit, hmod, hlow⟩ := lowestBit_eq hm hlt
  refine ⟨k, hk, hbit, hmod, hlow, ?_⟩
  have hpos : 0 < 2 ^ k := Nat.two_pow_pos k
  have hpow : (2 : ℕ) ^ k < 2 ^ 64 := Nat.pow_lt_pow_right (by omega) hk
  rw [lowMask, hlow]
  omega

@[simp] theorem lowMask_zero : lowMask 0 = 2 ^ 64 - 1 := by decide

theorem le_lowMask_iff {m k : ℕ} (hlt : m < 2 ^ 64) (hk : k ≤ 64) :
    2 ^ k - 1 ≤ lowMask m ↔ m % 2 ^ k = 0 := by
  have hpow : (2 : ℕ) ^ k ≤ 2 ^ 64 := Nat.pow_le_pow_right (by omega) hk
  by_cases hm : m = 0
  · subst hm
    simp only [lowMask_zero, Nat.zero_mod, iff_true]
    omega
  · obtain ⟨j, -, hbit, hmod, -, hmask⟩ := lowMask_eq hm hlt
    rw [hmask]
    constructor
    · intro hle
      have hkj : k ≤ j := by
        by_contra hlt'
        have : (2 : ℕ) ^ j < 2 ^ k := Nat.pow_lt_pow_right (by omega) (by omega)
        have : 0 < 2 ^ j := Nat.two_pow_pos j
        omega
      exact Nat.mod_eq_zero_of_dvd ((Nat.pow_dvd_pow 2 hkj).trans (Nat.dvd_of_mod_eq_zero hmod))
    · intro hzero
      have hkj : k ≤ j := by
        by_contra hlt'
        have hclear : (m % 2 ^ k).testBit j = true := by
          rw [Nat.testBit_mod_two_pow, hbit]
          simp
          omega
        rw [hzero, Nat.zero_testBit] at hclear
        exact absurd hclear (by simp)
      have : (2 : ℕ) ^ k ≤ 2 ^ j := Nat.pow_le_pow_right (by omega) hkj
      omega

end LowestBit

theorem selectPivot_spec (next_b : ℕ) (m : ℕ) (rows : List ℕ)
    (hnext : ∀ row ∈ m :: rows, next_b ≤ lowMask row) :
    ((selectPivot next_b m (lowMask m) rows).1 ::
        (selectPivot next_b m (lowMask m) rows).2.2).Perm (m :: rows) ∧
      (selectPivot next_b m (lowMask m) rows).2.1 =
        lowMask (selectPivot next_b m (lowMask m) rows).1 ∧
      ∀ row ∈ m :: rows, (selectPivot next_b m (lowMask m) rows).2.1 ≤ lowMask row := by
  induction rows generalizing m with
  | nil => simp [selectPivot]
  | cons this_row rows ih =>
    have hthis : ∀ row ∈ this_row :: rows, next_b ≤ lowMask row :=
      fun row hrow => hnext row (mem_cons_of_mem m hrow)
    have hm : ∀ row ∈ m :: rows, next_b ≤ lowMask row := by
      intro row hrow
      rcases mem_cons.mp hrow with rfl | hrow
      · exact hnext _ mem_cons_self
      · exact hthis row (mem_cons_of_mem _ hrow)
    rw [selectPivot]
    by_cases hswap : lowMask this_row < lowMask m
    · simp only [if_pos hswap]
      by_cases hbreak : lowMask this_row = next_b
      · simp only [if_pos hbreak]
        refine ⟨List.Perm.swap _ _ _, trivial, ?_⟩
        rw [hbreak]
        exact hnext
      · simp only [if_neg hbreak]
        obtain ⟨hperm, hmask, hmin⟩ := ih this_row hthis
        refine ⟨?_, hmask, ?_⟩
        · exact (List.Perm.swap _ _ _).trans (hperm.cons m)
        · intro row hrow
          rcases mem_cons.mp hrow with rfl | hrow
          · exact (hmin _ mem_cons_self).trans hswap.le
          · exact hmin row hrow
    · simp only [if_neg hswap]
      by_cases hbreak : lowMask m = next_b
      · simp only [if_pos hbreak]
        refine ⟨List.Perm.refl _, trivial, ?_⟩
        rw [hbreak]
        exact hnext
      · simp only [if_neg hbreak]
        obtain ⟨hperm, hmask, hmin⟩ := ih m hm
        refine ⟨?_, hmask, ?_⟩
        · exact (List.Perm.swap _ _ _).trans
            ((hperm.cons this_row).trans (List.Perm.swap _ _ _))
        · intro row hrow
          rcases mem_cons.mp hrow with rfl | hrow
          · exact hmin _ mem_cons_self
          · rcases mem_cons.mp hrow with rfl | hrow
            · exact (hmin _ mem_cons_self).trans (Nat.le_of_not_lt hswap)
            · exact hmin row (mem_cons_of_mem _ hrow)

section Kernel

variable {n : ℕ} {ms : List ℕ}

theorem transposeBits_succ : transposeBits (n + 1) ms =
    transposeBits n ms ++ [maskOf (ms.map fun m => m.testBit n)] := by
  rw [transposeBits, range_succ, map_append, map_singleton, ← transposeBits]

/-- The product of one row with `x`, in bit 0. -/
def rowProduct (n row x : ℕ) : ℕ := combine (transposeBits n [row]) x

theorem rowProduct_succ (n row x : ℕ) : rowProduct (n + 1) row x =
    rowProduct n row x ^^^ if x.testBit n && row.testBit n then 1 else 0 := by
  rw [rowProduct, transposeBits_succ, combine_concat, length_transposeBits, rowProduct]
  congr 1
  cases x.testBit n <;> cases hbit : row.testBit n <;> simp [maskOf, hbit]

theorem rowProduct_xor (n a b x : ℕ) :
    rowProduct n (a ^^^ b) x = rowProduct n a x ^^^ rowProduct n b x := by
  induction n with
  | zero => simp [rowProduct, transposeBits]
  | succ n ih =>
    rw [rowProduct_succ, rowProduct_succ, rowProduct_succ, ih, Nat.testBit_xor]
    have hbit : (if x.testBit n && (a.testBit n ^^ b.testBit n) then 1 else 0) =
        (if x.testBit n && a.testBit n then 1 else 0) ^^^
          (if x.testBit n && b.testBit n then 1 else 0) := by
      cases x.testBit n <;> cases a.testBit n <;> cases b.testBit n <;> rfl
    rw [hbit]
    ac_rfl

theorem testBit_combine_transposeBits (n : ℕ) (ms : List ℕ) (x r : ℕ) :
    (combine (transposeBits n ms) x).testBit r = (rowProduct n (ms.getD r 0) x).testBit 0 := by
  induction n with
  | zero => simp [transposeBits, rowProduct]
  | succ n ih =>
    have hbit : (maskOf (ms.map fun m => m.testBit n)).testBit r = (ms.getD r 0).testBit n := by
      rw [testBit_maskOf, ← Nat.zero_testBit n]
      exact getD_map _ _ (fun m : ℕ => m.testBit n)
    rw [transposeBits_succ, combine_concat, rowProduct_succ, Nat.testBit_xor, Nat.testBit_xor, ih,
      length_transposeBits]
    congr 1
    generalize ms.getD r 0 = row at hbit ⊢
    cases x.testBit n with
    | false => simp
    | true => cases hrow : row.testBit n <;> simp [hbit, hrow]

theorem rowProduct_lt (n row x : ℕ) : rowProduct n row x < 2 := by
  have hlt : rowProduct n row x < 2 ^ [row].length := combine_lt transposeBits_lt
  rwa [length_singleton, pow_one] at hlt

theorem kernel_iff_rows (n : ℕ) (ms : List ℕ) (x : ℕ) :
    combine (transposeBits n ms) x = 0 ↔ ∀ row ∈ ms, rowProduct n row x = 0 := by
  constructor
  · intro h row hrow
    obtain ⟨r, hr, rfl⟩ := getElem_of_mem hrow
    have hbit := testBit_combine_transposeBits n ms x r
    rw [h, Nat.zero_testBit, getD_eq_getElem _ _ hr, Nat.testBit_zero] at hbit
    have hlt := rowProduct_lt n ms[r] x
    have hmod : ¬ rowProduct n ms[r] x % 2 = 1 := by simpa using hbit.symm
    omega
  · intro h
    apply Nat.eq_of_testBit_eq
    intro r
    rw [testBit_combine_transposeBits, Nat.zero_testBit]
    by_cases hr : r < ms.length
    · rw [getD_eq_getElem _ _ hr, h _ (getElem_mem hr), Nat.zero_testBit]
    · rw [getD_eq_default _ _ (by omega)]
      have hzero : rowProduct n 0 x = 0 := by
        have hself := rowProduct_xor n 0 0 x
        rwa [Nat.xor_self, Nat.xor_self] at hself
      rw [hzero, Nat.zero_testBit]

theorem eliminate_product {m row x : ℕ} (hm : rowProduct n m x = 0) :
    rowProduct n (eliminate m row) x = rowProduct n row x := by
  rw [eliminate]
  split_ifs
  · rw [rowProduct_xor, hm, Nat.xor_zero]
  · rfl

theorem kernel_eliminate (n m : ℕ) (above below : List ℕ) (x : ℕ) :
    combine (transposeBits n (above.map (eliminate m) ++ [m] ++ below.map (eliminate m))) x = 0 ↔
      combine (transposeBits n (above ++ m :: below)) x = 0 := by
  rw [kernel_iff_rows, kernel_iff_rows]
  constructor
  · intro h row hrow
    have hm : rowProduct n m x = 0 := h m (by simp)
    rcases mem_append.mp hrow with habove | hbelow
    · rw [← eliminate_product hm]
      apply h
      simp only [append_assoc, mem_append, mem_map]
      exact Or.inl ⟨row, habove, rfl⟩
    · rcases mem_cons.mp hbelow with rfl | hbelow
      · exact hm
      · rw [← eliminate_product hm]
        exact h _ (by simp only [mem_append, mem_map]; exact Or.inr ⟨row, hbelow, rfl⟩)
  · intro h row hrow
    have hm : rowProduct n m x = 0 := h m (by simp)
    simp only [mem_append, mem_map, mem_singleton] at hrow
    rcases hrow with (⟨row, habove, rfl⟩ | rfl) | ⟨row, hbelow, rfl⟩
    · rw [eliminate_product hm]
      exact h row (mem_append_left _ habove)
    · exact hm
    · rw [eliminate_product hm]
      exact h row (mem_append_right _ (mem_cons_of_mem _ hbelow))

end Kernel

/-- The first `j` columns are reduced, with their pivots in the rows `above`. -/
structure Eliminated (j : ℕ) (above below : List ℕ) : Prop where
  echelon : Echelon (transposeBits j (above ++ below))
  rank_eq : rank (transposeBits j (above ++ below)) = above.length
  clear : ∀ row ∈ below, row % 2 ^ j = 0

theorem transposeBits_congr {j : ℕ} {ms ms' : List ℕ}
    (h : ms.map (· % 2 ^ j) = ms'.map (· % 2 ^ j)) : transposeBits j ms = transposeBits j ms' := by
  apply map_congr_left
  intro i hi
  have hij : i < j := mem_range.mp hi
  have hbits : ∀ ms : List ℕ, (ms.map fun m => m.testBit i) =
      (ms.map (· % 2 ^ j)).map fun m => m.testBit i := by
    intro ms
    simp [Nat.testBit_mod_two_pow, hij]
  rw [hbits, h, ← hbits]

theorem maskOf_unit (a b : ℕ) :
    maskOf (List.replicate a false ++ [true] ++ List.replicate b false) = 2 ^ a := by
  have hzero : ∀ b, maskOf (List.replicate b false) = 0 := by
    intro b
    induction b with
    | zero => rfl
    | succ b ih => rw [replicate_succ, maskOf, ih]; rfl
  induction a with
  | zero => simp [maskOf, hzero]
  | succ a ih =>
    rw [replicate_succ, cons_append, cons_append, maskOf, ih, Nat.bit_false_apply,
      pow_succ']

section Eliminated

variable {j : ℕ} {above below : List ℕ}

theorem column_lt (hclear : ∀ row ∈ below, row.testBit j = false) :
    maskOf ((above ++ below).map fun m => m.testBit j) < 2 ^ above.length := by
  apply Nat.lt_pow_two_of_testBit
  intro i hi
  rw [testBit_maskOf]
  by_cases hlen : i < (above ++ below).length
  · rw [getD_eq_getElem _ _ (by simpa using hlen), getElem_map,
      getElem_append_right hi]
    exact hclear _ (getElem_mem _)
  · rw [getD_eq_default _ _ (by simpa using Nat.le_of_not_lt hlen)]

theorem testBit_of_mod {row i j : ℕ} (h : row % 2 ^ j = 0) (hij : i < j) : row.testBit i = false := by
  have hbit := congrArg (fun v : ℕ => v.testBit i) h
  simpa [Nat.testBit_mod_two_pow, hij] using hbit

theorem Eliminated.extend (h : Eliminated j above below) {j' : ℕ} (hle : j ≤ j')
    (hclear : ∀ row ∈ below, row % 2 ^ j' = 0) : Eliminated j' above below := by
  induction j', hle using Nat.le_induction with
  | base => exact h
  | succ k hjk ih =>
    have hprev := ih fun row hrow => by
      have hdvd := Nat.dvd_of_mod_eq_zero (hclear row hrow)
      exact Nat.mod_eq_zero_of_dvd ((Nat.pow_dvd_pow 2 (by omega)).trans hdvd)
    have hcol : maskOf ((above ++ below).map fun m => m.testBit k) < 2 ^ above.length :=
      column_lt fun row hrow => testBit_of_mod (hclear row hrow) (by omega)
    refine ⟨?_, ?_, hclear⟩
    · rw [transposeBits_succ, echelon_concat, hprev.rank_eq]
      exact ⟨hprev.echelon, hcol.le⟩
    · rw [transposeBits_succ, rank_concat, hprev.rank_eq, if_neg hcol.ne]

theorem eliminate_eq {m k : ℕ} (hlow : lowestBit m = 2 ^ k) (row : ℕ) :
    eliminate m row = if row.testBit k then row ^^^ m else row := by
  rw [eliminate, hlow, Nat.and_two_pow]
  cases row.testBit k with
  | true => simp
  | false => simp

theorem eliminate_mod {m k : ℕ} (hlow : lowestBit m = 2 ^ k) (hmod : m % 2 ^ k = 0) (row : ℕ) :
    eliminate m row % 2 ^ k = row % 2 ^ k := by
  rw [eliminate_eq hlow]
  split_ifs
  · rw [Nat.xor_mod_two_pow, hmod, Nat.xor_zero]
  · rfl

theorem testBit_eliminate {m k : ℕ} (hlow : lowestBit m = 2 ^ k) (hbit : m.testBit k = true)
    (row : ℕ) : (eliminate m row).testBit k = false := by
  rw [eliminate_eq hlow]
  split_ifs with hrow
  · rw [Nat.testBit_xor, hrow, hbit]
    rfl
  · simpa using hrow

theorem Eliminated.pivot {m k : ℕ} (h : Eliminated k above (m :: below))
    (hlow : lowestBit m = 2 ^ k) (hbit : m.testBit k = true) :
    Eliminated (k + 1) (above.map (eliminate m) ++ [m]) (below.map (eliminate m)) := by
  have hmod : m % 2 ^ k = 0 := h.clear m mem_cons_self
  have hsame : transposeBits k (above.map (eliminate m) ++ [m] ++ below.map (eliminate m)) =
      transposeBits k (above ++ m :: below) := by
    apply transposeBits_congr
    have hmap : ∀ rows : List ℕ, (rows.map (eliminate m)).map (· % 2 ^ k) = rows.map (· % 2 ^ k) := by
      intro rows
      rw [map_map]
      exact map_congr_left fun row _ => eliminate_mod hlow hmod row
    simp only [map_append, map_cons, append_assoc, singleton_append, hmap]
  have hcol : maskOf ((above.map (eliminate m) ++ [m] ++ below.map (eliminate m)).map
      fun row => row.testBit k) = 2 ^ above.length := by
    have hclear : ∀ rows : List ℕ, (rows.map (eliminate m)).map (fun row => row.testBit k) =
        List.replicate rows.length false := by
      intro rows
      rw [map_map, eq_replicate_iff]
      constructor
      · simp
      · intro b hb
        obtain ⟨row, -, rfl⟩ := mem_map.mp hb
        exact testBit_eliminate hlow hbit row
    rw [map_append, map_append, hclear, hclear, map_singleton, hbit]
    exact maskOf_unit _ _
  refine ⟨?_, ?_, ?_⟩
  · rw [transposeBits_succ, echelon_concat, hsame, h.rank_eq, hcol]
    exact ⟨h.echelon, le_rfl⟩
  · rw [transposeBits_succ, rank_concat, hsame, h.rank_eq, hcol, if_pos rfl]
    simp
  · intro row hrow
    obtain ⟨below_row, hbelow, rfl⟩ := mem_map.mp hrow
    apply Nat.eq_of_testBit_eq
    intro i
    rw [Nat.testBit_mod_two_pow, Nat.zero_testBit]
    by_cases hi : i < k
    · have hzero := eliminate_mod hlow hmod below_row
      rw [h.clear _ (mem_cons_of_mem _ hbelow)] at hzero
      rw [testBit_of_mod hzero hi, Bool.and_false]
    · by_cases hik : i = k
      · rw [hik, testBit_eliminate hlow hbit, Bool.and_false]
      · simp
        omega

theorem Eliminated.perm (h : Eliminated j above below) {below' : List ℕ}
    (hperm : below'.Perm below) : Eliminated j above below' := by
  have hclear : ∀ row ∈ below', row % 2 ^ j = 0 := fun row hrow => h.clear row (hperm.subset hrow)
  have hzero : ∀ rows : List ℕ, (∀ row ∈ rows, row % 2 ^ j = 0) →
      rows.map (· % 2 ^ j) = List.replicate rows.length 0 := by
    intro rows hrows
    rw [eq_replicate_iff]
    refine ⟨length_map _, fun v hv => ?_⟩
    obtain ⟨row, hrow, rfl⟩ := mem_map.mp hv
    exact hrows row hrow
  have hsame : transposeBits j (above ++ below') = transposeBits j (above ++ below) := by
    apply transposeBits_congr
    rw [map_append, map_append, hzero _ hclear, hzero _ h.clear, hperm.length_eq]
  exact ⟨hsame ▸ h.echelon, hsame ▸ h.rank_eq, hclear⟩

end Eliminated

theorem kernel_perm (n : ℕ) {ms ms' : List ℕ} (h : ms.Perm ms') (x : ℕ) :
    combine (transposeBits n ms) x = 0 ↔ combine (transposeBits n ms') x = 0 := by
  rw [kernel_iff_rows, kernel_iff_rows]
  exact ⟨fun hrows row hrow => hrows row (h.symm.subset hrow),
    fun hrows row hrow => hrows row (h.subset hrow)⟩

theorem IsRref.of_kernel {n : ℕ} {rows rows₁ rows' : List ℕ} (h : IsRref n rows₁ rows')
    (hlen : rows₁.length = rows.length)
    (hker : ∀ x, combine (transposeBits n rows) x = 0 ↔ combine (transposeBits n rows₁) x = 0) :
    IsRref n rows rows' :=
  ⟨h.length_eq.trans hlen, h.lt, h.echelon, fun x => (hker x).trans (h.kernel x)⟩

theorem eliminate_lt {n m row : ℕ} (hm : m < 2 ^ n) (hrow : row < 2 ^ n) :
    eliminate m row < 2 ^ n := by
  rw [eliminate]
  split_ifs
  · exact Nat.xor_lt_two_pow hrow hm
  · exact hrow

theorem rrefRows_spec {n cols : ℕ} (hcols : cols ≤ 64) (hpos : 0 < cols) {j : ℕ} (hj : j ≤ cols)
    {above below : List ℕ} (hn : below.length = n) (hlt : ∀ row ∈ above ++ below, row < 2 ^ cols)
    (h : Eliminated j above below) :
    IsRref cols (above ++ below)
      (rrefRows (2 ^ (cols - 1) - 1) n (2 ^ j - 1) above below) := by
  have hdone : ∀ {j above below}, j ≤ cols → (∀ row ∈ above ++ below, row < 2 ^ cols) →
      Eliminated j above below → (∀ row ∈ below, row % 2 ^ cols = 0) →
      IsRref cols (above ++ below) (above ++ below) := by
    intro j above below hj hlt h hclear
    exact ⟨rfl, hlt, (h.extend hj hclear).echelon, fun x => Iff.rfl⟩
  induction n generalizing j above below with
  | zero =>
    obtain rfl := length_eq_zero_iff.mp hn
    exact hdone hj hlt h (by simp)
  | succ n ih =>
    obtain ⟨m, below, rfl⟩ := exists_cons_of_length_eq_add_one hn
    have hword : (2 : ℕ) ^ cols ≤ 2 ^ 64 := Nat.pow_le_pow_right (by omega) hcols
    have hnext : ∀ row ∈ m :: below, 2 ^ j - 1 ≤ lowMask row := by
      intro row hrow
      rw [le_lowMask_iff ((hlt row (mem_append_right _ hrow)).trans_le hword) (hj.trans hcols)]
      exact h.clear row hrow
    obtain ⟨hperm, hmask, hmin⟩ := selectPivot_spec (2 ^ j - 1) m below hnext
    rw [rrefRows]
    generalize selectPivot (2 ^ j - 1) m (lowMask m) below = r at hperm hmask hmin
    obtain ⟨p, b, rest⟩ := r
    simp only at hperm hmask hmin ⊢
    have hmoved : (above ++ p :: rest).Perm (above ++ m :: below) := hperm.append_left above
    have hlt' : ∀ row ∈ above ++ p :: rest, row < 2 ^ cols :=
      fun row hrow => hlt row (hmoved.subset hrow)
    have hstart := h.perm hperm
    have hclear : ∀ k ≤ 64, 2 ^ k - 1 ≤ b → ∀ row ∈ p :: rest, row % 2 ^ k = 0 := by
      intro k hk hle row hrow
      rw [← le_lowMask_iff ((hlt' row (mem_append_right _ hrow)).trans_le hword) hk]
      exact hle.trans (hmin row (hperm.subset hrow))
    apply IsRref.of_kernel _ hmoved.length_eq fun x => (kernel_perm cols hmoved x).symm
    by_cases hempty : b = 2 ^ 64 - 1
    · rw [if_pos hempty]
      apply hdone hj hlt' hstart
      intro row hrow
      have hdvd := Nat.dvd_of_mod_eq_zero (hclear 64 le_rfl hempty.ge row hrow)
      exact Nat.mod_eq_zero_of_dvd ((Nat.pow_dvd_pow 2 hcols).trans hdvd)
    · have hp : p ≠ 0 := by
        intro hzero
        rw [hmask, hzero, lowMask_zero] at hempty
        exact hempty rfl
      have hplt : p < 2 ^ cols := hlt' p (by simp)
      obtain ⟨k, hk, hbit, -, hlow, hmask'⟩ := lowMask_eq hp (hplt.trans_le hword)
      rw [hmask'] at hmask
      have hkcols : k < cols := by
        by_contra hbig
        have hpow : p < 2 ^ k := hplt.trans_le (Nat.pow_le_pow_right (by omega) (by omega))
        rw [Nat.testBit_lt_two_pow hpow] at hbit
        exact absurd hbit (by simp)
      have hjk : j ≤ k := by
        by_contra hsmall
        have hzero := hstart.clear p mem_cons_self
        rw [testBit_of_mod hzero (by omega)] at hbit
        exact absurd hbit (by simp)
      have hpivot := (hstart.extend hjk (hclear k hk.le hmask.ge)).pivot hlow hbit
      have hlt'' : ∀ row ∈ above.map (eliminate p) ++ [p] ++ rest.map (eliminate p),
          row < 2 ^ cols := by
        intro row hrow
        simp only [mem_append, mem_map, mem_singleton] at hrow
        rcases hrow with (⟨row, habove, rfl⟩ | rfl) | ⟨row, hrest, rfl⟩
        · exact eliminate_lt hplt (hlt' row (by simp [habove]))
        · exact hplt
        · exact eliminate_lt hplt (hlt' row (by simp [hrest]))
      rw [if_neg hempty]
      apply IsRref.of_kernel _ (by simp) fun x => (kernel_eliminate cols p above rest x).symm
      by_cases hfinal : b = 2 ^ (cols - 1) - 1
      · rw [if_pos hfinal]
        have hlast : k + 1 = cols := by
          have hpow : (2 : ℕ) ^ k = 2 ^ (cols - 1) := by
            have h1 := Nat.two_pow_pos k
            have h2 := Nat.two_pow_pos (cols - 1)
            omega
          have := Nat.pow_right_injective le_rfl hpow
          omega
        apply hdone hlast.le hlt'' hpivot
        rw [← hlast]
        exact hpivot.clear
      · rw [if_neg hfinal]
        have hword' : (2 * b + 1) % 2 ^ 64 = 2 ^ (k + 1) - 1 := by
          have h1 := Nat.two_pow_pos k
          have h2 : (2 : ℕ) ^ k ≤ 2 ^ 63 := Nat.pow_le_pow_right (by omega) (by omega)
          rw [hmask, pow_succ]
          omega
        rw [hword']
        have hrest : (rest.map (eliminate p)).length = n := by
          have hlen := hperm.length_eq
          simp only [length_cons] at hlen hn
          rw [length_map]
          omega
        exact ih (by omega) hrest hlt'' hpivot

theorem inplaceRrefStrided_isRref (rows : List ℕ) (cols : ℕ) (hlt : ∀ r ∈ rows, r < 2 ^ cols)
    (hcols : cols ≤ 64) (hpos : 0 < cols ∨ rows.length ≤ 1) :
    IsRref cols rows (inplaceRrefStrided rows cols) := by
  have hstart : Eliminated 0 [] rows :=
    ⟨fun j hj => by simp at hj, rfl, fun row _ => Nat.mod_one row⟩
  rw [inplaceRrefStrided]
  by_cases hone : rows.length ≤ 1
  · rw [if_pos hone]
    refine ⟨rfl, hlt, ?_, fun x => Iff.rfl⟩
    intro j hj
    have hcol := transposeBits_lt _ (getElem_mem hj)
    have hbits : (2 : ℕ) ^ rows.length ≤ 2 ^ 1 := Nat.pow_le_pow_right (by omega) hone
    have hpow := Nat.two_pow_pos (rank ((transposeBits cols rows).take j))
    omega
  · rw [if_neg hone, inplaceRrefSmall]
    exact rrefRows_spec hcols (by omega) (Nat.zero_le _) rfl (by simpa using hlt) hstart

/-- `f2reduce` on matrices that fit. -/
def f2reduce : F2Reduce := ⟨inplaceRrefStrided, inplaceRrefStrided_isRref⟩

end TritonCpu
