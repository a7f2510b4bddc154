import TritonCpu.LinearLayout

/-!
# Making the columns distinguishable

Before it is inverted, the matrix of a layout gets one more row for each zero
column, with a single entry in that column. Over the columns this replaces the
zero columns by fresh units, from the number of rows on.
-/

set_option autoImplicit false

namespace TritonCpu

open XorSpan BitFields List

def getInjectiveMat (layout : RawLayout) : Except LayoutError (List ℕ) :=
  let mat := layout.getMatrix
  let colBits := mat.foldl (· ||| ·) 0
  (List.range layout.getTotalInDimSizeLog2).foldlM (fun expanded c => do
    let bit ← shiftOne c
    pure (if colBits &&& bit = 0 then expanded ++ [bit] else expanded)) mat

/-- Zero columns become the units from row `m` on. -/
def expandZeros : ℕ → List ℕ → List ℕ
  | _, [] => []
  | m, c :: cs => if c = 0 then 2 ^ m :: expandZeros (m + 1) cs else c :: expandZeros m cs

section ExpandZeros

variable {K m : ℕ} {cs : List ℕ}

@[simp] theorem length_expandZeros : (expandZeros m cs).length = cs.length := by
  induction cs generalizing m with
  | nil => rfl
  | cons c cs ih =>
    rw [expandZeros]
    split_ifs <;> simp [ih]

theorem getElem_expandZeros {i : ℕ} (hi : i < (expandZeros m cs).length)
    (hi' : i < cs.length) : (expandZeros m cs)[i] =
      if cs[i] = 0 then 2 ^ (m + (cs.take i).count 0) else cs[i] := by
  induction cs generalizing m i with
  | nil => simp at hi'
  | cons c cs ih =>
    by_cases hc : c = 0
    · subst hc
      cases i with
      | zero => simp [expandZeros]
      | succ i =>
        have hcol := ih (m := m + 1) (i := i) (by simpa using hi') (by simpa using hi')
        simp only [expandZeros, if_true, getElem_cons_succ, take_succ_cons,
          count_cons_self]
        rw [hcol, Nat.add_right_comm, Nat.add_assoc]
    · cases i with
      | zero => simp [expandZeros, hc]
      | succ i =>
        have hcol := ih (m := m) (i := i) (by simpa using hi') (by simpa using hi')
        simp only [expandZeros, if_neg hc, getElem_cons_succ, take_succ_cons]
        rw [hcol, count_cons_of_ne hc]

theorem expandZeros_lt (h : ∀ c ∈ cs, c < 2 ^ K) (hm : K ≤ m) :
    ∀ c ∈ expandZeros m cs, c < 2 ^ (m + cs.count 0) := by
  intro c hc
  obtain ⟨i, hi, rfl⟩ := getElem_of_mem hc
  have hi' : i < cs.length := by simpa using hi
  rw [getElem_expandZeros hi hi']
  split_ifs with hzero
  · apply Nat.pow_lt_pow_right (by omega)
    have hsplit := take_append_drop i cs
    have hcount : cs.count 0 = (cs.take i).count 0 + (cs.drop i).count 0 := by
      rw [← count_append, hsplit]
    have hmem : 0 < (cs.drop i).count 0 := by
      rw [count_pos_iff, drop_eq_getElem_cons hi', hzero]
      exact mem_cons_self
    omega
  · exact (h _ (getElem_mem hi')).trans_le (Nat.pow_le_pow_right (by omega) (by omega))

theorem combine_expandZeros_mod (h : ∀ c ∈ cs, c < 2 ^ K) (hm : K ≤ m) (x : ℕ) :
    combine (expandZeros m cs) x % 2 ^ K = combine cs x := by
  rw [← combine_map _ _ (fun y => y % 2 ^ K) (Nat.zero_mod _) (fun a b => Nat.xor_mod_two_pow)]
  congr 1
  apply ext_getElem (by simp)
  intro i hi hi'
  rw [getElem_map, getElem_expandZeros (by simpa using hi) hi']
  split_ifs with hzero
  · rw [hzero]
    exact Nat.mod_eq_zero_of_dvd (Nat.pow_dvd_pow 2 (by omega))
  · exact Nat.mod_eq_of_lt (h _ (getElem_mem hi'))

theorem testBit_combine_expandZeros (h : ∀ c ∈ cs, c < 2 ^ K) (hm : K ≤ m) {j : ℕ}
    (hj : j < cs.length) (hzero : cs[j] = 0) (x : ℕ) :
    (combine (expandZeros m cs) x).testBit (m + (cs.take j).count 0) = x.testBit j := by
  induction cs generalizing m j x with
  | nil => simp at hj
  | cons c cs ih =>
    have htail : ∀ d ∈ cs, d < 2 ^ K := fun d hd => h d (mem_cons_of_mem _ hd)
    have hsmall : ∀ i, m ≤ i → c.testBit i = false := fun i hi =>
      Nat.testBit_lt_two_pow ((h c mem_cons_self).trans_le
        (Nat.pow_le_pow_right (by omega) (by omega)))
    by_cases hc : c = 0
    · subst hc
      rw [expandZeros, if_pos rfl, combine, Nat.testBit_xor]
      cases j with
      | zero =>
        have hrest : (combine (expandZeros (m + 1) cs) (x / 2)).testBit m = false := by
          apply testBit_combine_eq_false
          intro d hd
          obtain ⟨i, hi, rfl⟩ := getElem_of_mem hd
          have hi' : i < cs.length := by simpa using hi
          rw [getElem_expandZeros hi hi']
          split_ifs
          · exact Nat.testBit_two_pow_of_ne (by omega)
          · exact Nat.testBit_lt_two_pow ((htail _ (getElem_mem hi')).trans_le
              (Nat.pow_le_pow_right (by omega) hm))
        simp only [take_zero, count_nil, Nat.add_zero, hrest, Bool.xor_false]
        cases x.testBit 0 <;> simp
      | succ j =>
        have hbit := ih htail (m := m + 1) (by omega) (j := j) (by simpa using hj)
          (by simpa using hzero) (x / 2)
        have hne : m ≠ m + ((0 :: cs).take (j + 1)).count 0 := by
          rw [take_succ_cons, count_cons_self]
          omega
        have hindex : m + ((0 :: cs).take (j + 1)).count 0 = m + 1 + (cs.take j).count 0 := by
          rw [take_succ_cons, count_cons_self]
          omega
        have hfirst : (if x.testBit 0 then 2 ^ m else 0).testBit
            (m + ((0 :: cs).take (j + 1)).count 0) = false := by
          split_ifs
          · exact Nat.testBit_two_pow_of_ne hne
          · exact Nat.zero_testBit _
        rw [hfirst, hindex, hbit, Nat.testBit_div_two]
        simp
    · rw [expandZeros, if_neg hc, combine, Nat.testBit_xor]
      cases j with
      | zero => exact absurd hzero hc
      | succ j =>
        have hbit := ih htail hm (j := j) (by simpa using hj) (by simpa using hzero) (x / 2)
        have hfirst : (if x.testBit 0 then c else 0).testBit (m + (cs.take j).count 0) = false := by
          split_ifs
          · exact hsmall _ (by omega)
          · exact Nat.zero_testBit _
        rw [take_succ_cons, count_cons_of_ne hc, hfirst, hbit, Nat.testBit_div_two]
        simp

theorem combine_expandZeros_eq_zero (h : ∀ c ∈ cs, c < 2 ^ K) (hm : K ≤ m) (x : ℕ) :
    combine (expandZeros m cs) x = 0 ↔
      combine cs x = 0 ∧ ∀ j (_ : j < cs.length), x.testBit j = true → cs[j] ≠ 0 := by
  constructor
  · intro hzero
    refine ⟨?_, fun j hj hbit hcol => ?_⟩
    · rw [← combine_expandZeros_mod h hm, hzero, Nat.zero_mod]
    · have hrow := testBit_combine_expandZeros h hm hj hcol x
      rw [hzero, Nat.zero_testBit, hbit] at hrow
      exact absurd hrow (by simp)
  · rintro ⟨hzero, hsel⟩
    rw [← hzero]
    apply combine_congr length_expandZeros
    intro i hi hi' hbit
    rw [getElem_expandZeros hi hi', if_neg (hsel i hi' hbit)]

/-- Columns that span all rows are at least as many as the rows, also after the
zero columns got theirs. -/
theorem add_count_le_length (honto : Onto K cs) : K + cs.count 0 ≤ cs.length := by
  have hle := le_length_of_onto (onto_filter honto)
  have hlen : cs.length = cs.count 0 + (cs.filter (· ≠ 0)).length := by
    rw [count_eq_countP, ← countP_eq_length_filter,
      length_eq_countP_add_countP (· == 0)]
    congr 1
    apply countP_congr
    intro c _
    simp
  omega

end ExpandZeros

section Rows

def zeroRows (n : ℕ) (cs : List ℕ) : List ℕ :=
  ((List.range n).filter fun c => cs.getD c 0 == 0).map (2 ^ ·)

theorem maskOf_append (as bs : List Bool) :
    maskOf (as ++ bs) = maskOf as + 2 ^ as.length * maskOf bs := by
  induction as with
  | nil => simp [maskOf]
  | cons a as ih =>
    rw [cons_append, maskOf, maskOf, ih, Nat.bit_val, Nat.bit_val, length_cons,
      Nat.pow_succ]
    ring

theorem maskOf_false {bs : List Bool} (h : ∀ b ∈ bs, b = false) : maskOf bs = 0 := by
  induction bs with
  | nil => rfl
  | cons b bs ih =>
    rw [maskOf, ih fun b' hb' => h b' (mem_cons_of_mem _ hb'), h b mem_cons_self]
    rfl

theorem zeroRows_succ (n : ℕ) (cs : List ℕ) :
    zeroRows (n + 1) cs = zeroRows n cs ++ if cs.getD n 0 = 0 then [2 ^ n] else [] := by
  rw [zeroRows, range_succ, filter_append, map_append, ← zeroRows,
    filter_singleton]
  by_cases hzero : cs.getD n 0 = 0
  · rw [if_pos hzero, hzero]
    rfl
  · rw [if_neg hzero, beq_false_of_ne hzero]
    rfl

theorem length_zeroRows {n : ℕ} {cs : List ℕ} (hn : n ≤ cs.length) :
    (zeroRows n cs).length = (cs.take n).count 0 := by
  induction n with
  | zero => simp [zeroRows]
  | succ n ih =>
    have hlt : n < cs.length := by omega
    rw [zeroRows_succ, length_append, ih (by omega), take_succ_eq_append_getElem hlt,
      count_append, getD_eq_getElem _ _ hlt]
    by_cases hzero : cs[n] = 0
    · rw [if_pos hzero, hzero]
      rfl
    · rw [if_neg hzero, count_singleton, beq_false_of_ne hzero]
      rfl

theorem column_zeroRows {n c : ℕ} {cs : List ℕ} (hn : n ≤ cs.length) (hc : c < n) :
    maskOf ((zeroRows n cs).map fun r => r.testBit c) =
      if cs.getD c 0 = 0 then 2 ^ (cs.take c).count 0 else 0 := by
  induction n with
  | zero => omega
  | succ n ih =>
    rw [zeroRows_succ, map_append, maskOf_append]
    by_cases hlast : c = n
    · subst hlast
      have hold : maskOf ((zeroRows c cs).map fun r => r.testBit c) = 0 := by
        apply maskOf_false
        intro b hb
        obtain ⟨r, hr, rfl⟩ := mem_map.mp hb
        obtain ⟨i, hi, rfl⟩ := mem_map.mp hr
        rw [mem_filter, mem_range] at hi
        exact Nat.testBit_two_pow_of_ne (by omega)
      rw [hold, length_map, length_zeroRows (by omega)]
      by_cases hzero : cs.getD c 0 = 0
      · rw [if_pos hzero, if_pos hzero]
        simp [maskOf]
      · rw [if_neg hzero, if_neg hzero]
        rfl
    · have hnew : maskOf ((if cs.getD n 0 = 0 then [2 ^ n] else []).map fun r => r.testBit c) = 0 := by
        apply maskOf_false
        intro b hb
        obtain ⟨r, hr, rfl⟩ := mem_map.mp hb
        split_ifs at hr with hzero
        · rw [mem_singleton.mp hr]
          exact Nat.testBit_two_pow_of_ne (by omega)
        · simp at hr
      rw [hnew, ih (by omega) (by omega), Nat.mul_zero, Nat.add_zero]

theorem transposeBits_zeroRows {K n : ℕ} {mat cs : List ℕ} (hcs : transposeBits n mat = cs)
    (hK : mat.length = K) : transposeBits n (mat ++ zeroRows n cs) = expandZeros K cs := by
  have hlen : cs.length = n := by rw [← hcs, length_transposeBits]
  apply ext_getElem (by simp [hlen])
  intro c hc hc'
  have hcn : c < n := by simpa using hc
  have hccs : c < cs.length := by omega
  have hcol : maskOf (mat.map fun r => r.testBit c) = cs[c] := by
    simp only [← hcs, transposeBits, getElem_map, getElem_range]
  rw [getElem_expandZeros hc' hccs]
  simp only [transposeBits, getElem_map, getElem_range, map_append]
  rw [maskOf_append, length_map, hK, column_zeroRows hlen.ge hcn, hcol,
    getD_eq_getElem _ _ hccs]
  by_cases hzero : cs[c] = 0
  · rw [if_pos hzero, if_pos hzero, hzero, Nat.zero_add, Nat.pow_add]
  · rw [if_neg hzero, if_neg hzero, Nat.mul_zero, Nat.add_zero]

theorem testBit_foldl_or (m : List ℕ) (acc c : ℕ) :
    (m.foldl (· ||| ·) acc).testBit c = (acc.testBit c || m.any fun r => r.testBit c) := by
  induction m generalizing acc with
  | nil => simp
  | cons r m ih => rw [foldl_cons, ih, Nat.testBit_or, any_cons, Bool.or_assoc]

theorem foldlM_zeroRows (mat : List ℕ) (colBits n : ℕ) (hn : n ≤ 31) :
    (List.range n).foldlM (fun expanded c => do
      let bit ← shiftOne c
      pure (if colBits &&& bit = 0 then expanded ++ [bit] else expanded)) mat =
      Except.ok (mat ++ ((List.range n).filter fun c => !colBits.testBit c).map (2 ^ ·)) := by
  induction n with
  | zero => simp [pure, Except.pure]
  | succ n ih =>
    rw [range_succ, foldlM_append, ih (by omega), filter_append, map_append]
    simp only [foldlM_cons, foldlM_nil, shiftOne_ok (show n < 31 by omega), bind,
      Except.bind, pure, Except.pure, Nat.and_two_pow, filter_singleton]
    cases colBits.testBit n <;> simp

/-- A matrix with the extended columns of a layout. -/
structure ExtendedMat (layout : RawLayout) (mat : List ℕ) : Prop where
  length_eq : mat.length = layout.getTotalOutDimSizeLog2 + layout.flatColumns.count 0
  lt : ∀ r ∈ mat, r < 2 ^ layout.getTotalInDimSizeLog2
  columns : transposeBits layout.getTotalInDimSizeLog2 mat =
    expandZeros layout.getTotalOutDimSizeLog2 layout.flatColumns

theorem getInjectiveMat_ok (layout : RawLayout)
    (hfits : ∀ b ∈ layout.flatBases, Fits b layout.outWidths)
    (hn : layout.getTotalInDimSizeLog2 ≤ 31) :
    ∃ mat, getInjectiveMat layout = .ok mat ∧ ExtendedMat layout mat := by
  have hlen := length_flatColumns layout
  have hmat := getMatrix_eq layout hfits
  have hcols : transposeBits layout.getTotalInDimSizeLog2 layout.getMatrix = layout.flatColumns := by
    have hback := transposeBits_transposeBits (flatColumns_lt layout hfits)
    rw [hlen] at hback
    rw [hmat, hback]
  have hK : layout.getMatrix.length = layout.getTotalOutDimSizeLog2 := by
    rw [hmat, length_transposeBits]
  have hzero : ∀ c < layout.getTotalInDimSizeLog2,
      (!(layout.getMatrix.foldl (· ||| ·) 0).testBit c) = (layout.flatColumns.getD c 0 == 0) := by
    intro c hc
    have hcol : c < (transposeBits layout.getTotalInDimSizeLog2 layout.getMatrix).length := by
      simpa using hc
    rw [testBit_foldl_or, Nat.zero_testBit, Bool.false_or, Bool.eq_iff_iff, Bool.not_eq_true',
      beq_iff_eq, ← hcols, getD_eq_getElem _ _ hcol]
    constructor
    · intro hany
      apply Nat.eq_of_testBit_eq
      intro r
      rw [testBit_transposeBits, Nat.zero_testBit]
      by_cases hr : r < layout.getMatrix.length
      · rw [getD_eq_getElem _ _ hr]
        simpa using (any_eq_false.mp hany) _ (getElem_mem hr)
      · rw [getD_eq_default _ _ (by omega), Nat.zero_testBit]
    · intro hcolzero
      apply any_eq_false.mpr
      intro row hrow
      obtain ⟨r, hr, rfl⟩ := getElem_of_mem hrow
      have hbit := testBit_transposeBits hcol r
      rw [hcolzero, Nat.zero_testBit, getD_eq_getElem _ _ hr] at hbit
      simp [← hbit]
  have hfilter : ((List.range layout.getTotalInDimSizeLog2).filter fun c =>
      !(layout.getMatrix.foldl (· ||| ·) 0).testBit c).map (2 ^ ·) =
        zeroRows layout.getTotalInDimSizeLog2 layout.flatColumns := by
    rw [zeroRows]
    congr 1
    apply filter_congr
    intro c hc
    exact hzero c (mem_range.mp hc)
  refine ⟨layout.getMatrix ++ zeroRows layout.getTotalInDimSizeLog2 layout.flatColumns, ?_, ?_, ?_,
    transposeBits_zeroRows hcols hK⟩
  · rw [getInjectiveMat, foldlM_zeroRows _ _ _ hn, hfilter]
  · rw [length_append, hK, length_zeroRows hlen.ge, take_of_length_le hlen.le]
  · intro r hr
    rcases mem_append.mp hr with hr | hr
    · rw [hmat] at hr
      rw [← hlen]
      exact transposeBits_lt r hr
    · obtain ⟨i, hi, rfl⟩ := mem_map.mp hr
      rw [mem_filter, mem_range] at hi
      exact Nat.pow_lt_pow_right (by omega) hi.1

end Rows

end TritonCpu
