import TritonCpu.InvertAndCompose

/-!
# When `invertAndCompose` inverts

The result `C` of `A.invertAndCompose(B)` is right when `B(C(x))` is `A(x)` for
every input `x` of `A`. The first columns of `B` must be independent apart from
zero columns, and the rows of `A`, which are packed with the sizes of `A`, must
stand where the rows of `B` stand.
-/

set_option autoImplicit false

namespace TritonCpu

open XorSpan BitFields LinearLayout List

def zeroBasis (basis : List ℕ) : Bool := basis.all (· == 0)

def numInjectiveRows (L : RawLayout) : ℕ :=
  L.getTotalOutDimSizeLog2 + L.flatBases.countP zeroBasis

/-- No selection of non-zero bases among the first, as many as the extended
matrix has rows, cancels in every output dimension. -/
def FirstBasesIndependent (L : RawLayout) : Prop :=
  ∀ x < 2 ^ numInjectiveRows L,
    (∀ j, x.testBit j = true → zeroBasis (L.flatBases.getD j []) = false) →
    (∀ outDim ∈ L.getOutDimNames, combine (L.column outDim) x = 0) → x = 0

/-- The rows of `A` stand where the rows of `B` stand: the sizes are the same,
or no basis of `A` is zero and none has an output after the first dimension in
which `A` is smaller. -/
def RowsAligned (A B : RawLayout) : Prop :=
  (∀ outDim ∈ A.getOutDimNames, A.getOutDimSizeLog2 outDim = B.getOutDimSizeLog2 outDim) ∨
    (∀ b ∈ A.flatBases, zeroBasis b = false) ∧
      ∀ (s t : ℕ) (hst : s < t) (ht : t < A.getOutDimNames.length),
        A.getOutDimSizeLog2 A.getOutDimNames[s] < B.getOutDimSizeLog2 A.getOutDimNames[s] →
          ∀ b ∈ A.flatBases, b.getD t 0 = 0

theorem zeroBasis_iff {b : List ℕ} : zeroBasis b = true ↔ ∀ v ∈ b, v = 0 := by
  simp [zeroBasis]

section Raw

variable (L : RawLayout) (hfits : ∀ b ∈ L.flatBases, Fits b L.outWidths)

include hfits

theorem combine_column {t : ℕ} (ht : t < L.getOutDimNames.length) (x : ℕ) :
    combine (L.column L.getOutDimNames[t]) x =
      (unpack L.outWidths (combine L.flatColumns x)).getD t 0 := by
  rw [RawLayout.column, getOutDimIndex_getElem L ht, RawLayout.flatColumns, combine_field hfits]

theorem combine_flatColumns_eq_iff (x y : ℕ) (hy : y < 2 ^ L.getTotalOutDimSizeLog2) :
    combine L.flatColumns x = y ↔ ∀ (t : ℕ) (ht : t < L.getOutDimNames.length),
      combine (L.column L.getOutDimNames[t]) x = (unpack L.outWidths y).getD t 0 := by
  constructor
  · rintro rfl t ht
    exact combine_column L hfits ht x
  · intro h
    have hunpack : unpack L.outWidths (combine L.flatColumns x) = unpack L.outWidths y := by
      apply ext_getElem (by simp)
      intro t ht ht'
      have htn : t < L.getOutDimNames.length := by
        rw [← length_outWidths]
        simpa using ht
      have hfield := h t htn
      rwa [combine_column L hfits htn, getD_eq_getElem _ _ ht,
        getD_eq_getElem _ _ ht'] at hfield
    have hlt := combine_lt (flatColumns_lt L hfits) (x := x)
    rw [getTotalOutDimSizeLog2_eq] at hlt hy
    rw [← pack_unpack hlt, hunpack, pack_unpack hy]

theorem combine_flatColumns_eq_zero (x : ℕ) : combine L.flatColumns x = 0 ↔
    ∀ outDim ∈ L.getOutDimNames, combine (L.column outDim) x = 0 := by
  rw [combine_flatColumns_eq_iff L hfits x 0 (Nat.two_pow_pos _)]
  constructor
  · intro h outDim hmem
    obtain ⟨t, ht, rfl⟩ := getElem_of_mem hmem
    rw [h t ht, getD_unpack_zero]
  · intro h t ht
    rw [h _ (getElem_mem ht), getD_unpack_zero]

theorem length_basis {b : List ℕ} (hb : b ∈ L.flatBases) : b.length = L.getOutDimNames.length := by
  rw [(hfits b hb).length_eq, length_outWidths]

theorem flatColumns_eq_zero {j : ℕ} :
    L.flatColumns.getD j 0 = 0 ↔ zeroBasis (L.flatBases.getD j []) = true := by
  by_cases hj : j < L.flatBases.length
  · have hj' : j < L.flatColumns.length := by rwa [RawLayout.flatColumns, length_map]
    have hmem := getElem_mem hj
    rw [getD_eq_getElem _ _ hj, getD_eq_getElem _ _ hj', zeroBasis_iff]
    simp only [RawLayout.flatColumns, getElem_map]
    exact pack_eq_zero (hfits _ hmem).length_eq
  · have hj' : L.flatColumns.length ≤ j := by
      rw [RawLayout.flatColumns, length_map]
      omega
    rw [getD_eq_default _ _ hj', getD_eq_default _ _ (by omega)]
    simp [zeroBasis]

theorem count_flatColumns : L.flatColumns.count 0 = L.flatBases.countP zeroBasis := by
  rw [count_eq_countP, RawLayout.flatColumns, countP_map]
  apply countP_congr
  intro b hb
  rw [Function.comp_apply, beq_iff_eq, pack_eq_zero (hfits b hb).length_eq, zeroBasis_iff]

end Raw

section Transposed

variable (B : LinearLayout) {newOutDims : List String}

theorem getTotalInDimSizeLog2_transposedOuts (newOutDims : List String) :
    (B.transposedOuts newOutDims).getTotalInDimSizeLog2 = B.getTotalInDimSizeLog2 := by
  rw [← length_flatBases, flatBases_transposedOuts, length_map, length_flatBases]

variable (hperm : newOutDims.Perm B.getOutDimNames)

include hperm

theorem fits_transposedOuts : ∀ b ∈ (B.transposedOuts newOutDims).flatBases,
    Fits b (B.transposedOuts newOutDims).outWidths := fun b hb =>
  fits_of_lt (size_pow_transposedOuts B hperm) (basis_lt_transposedOuts B hperm b hb)

theorem zeroBasis_permuteBasis {b : List ℕ} (hb : b ∈ B.flatBases) :
    zeroBasis (permuteBasis (newOutDims.map B.getOutDimIndex) b) = zeroBasis b := by
  rw [Bool.eq_iff_iff, zeroBasis_iff, zeroBasis_iff]
  simp only [permuteBasis, map_map, mem_map, Function.comp_apply,
    forall_exists_index, and_imp, forall_apply_eq_imp_iff₂]
  constructor
  · intro h v hv
    obtain ⟨t, ht, rfl⟩ := getElem_of_mem hv
    have htn : t < B.getOutDimNames.length := by
      rwa [← length_basis B.toRawLayout B.fits hb]
    have hzero := h _ (hperm.mem_iff.mpr (getElem_mem htn))
    rwa [getOutDimIndex_getElem B.toRawLayout htn, getD_eq_getElem _ _ ht] at hzero
  · intro h d _
    by_cases ht : B.getOutDimIndex d < b.length
    · rw [getD_eq_getElem _ _ ht]
      exact h _ (getElem_mem ht)
    · rw [getD_eq_default _ _ (by omega)]

theorem zeroBasis_transposedOuts (j : ℕ) :
    zeroBasis ((B.transposedOuts newOutDims).flatBases.getD j []) =
      zeroBasis (B.flatBases.getD j []) := by
  rw [flatBases_transposedOuts]
  by_cases hj : j < B.flatBases.length
  · rw [getD_eq_getElem _ _ (by simpa using hj), getD_eq_getElem _ _ hj,
      getElem_map, zeroBasis_permuteBasis B hperm (getElem_mem hj)]
  · rw [getD_eq_default _ _ (by simpa using hj), getD_eq_default _ _ (by omega)]

theorem getTotalOutDimSizeLog2_transposedOuts :
    (B.transposedOuts newOutDims).getTotalOutDimSizeLog2 = B.getTotalOutDimSizeLog2 := by
  rw [getTotalOutDimSizeLog2_eq,
    outWidths_transposedOuts B (hperm.nodup_iff.mpr B.outDims.nodup), (hperm.map _).sum_nat]
  rfl

theorem numInjectiveRows_transposedOuts :
    numInjectiveRows (B.transposedOuts newOutDims) = numInjectiveRows B.toRawLayout := by
  rw [numInjectiveRows, numInjectiveRows, getTotalOutDimSizeLog2_transposedOuts B hperm,
    flatBases_transposedOuts, countP_map]
  congr 1
  apply countP_congr
  intro b hb
  rw [Function.comp_apply, zeroBasis_permuteBasis B hperm hb]

theorem nonzeroIndependent_transposedOuts :
    NonzeroIndependent (numInjectiveRows (B.transposedOuts newOutDims))
      (B.transposedOuts newOutDims).flatColumns ↔ FirstBasesIndependent B.toRawLayout := by
  have hnodup : newOutDims.Nodup := hperm.nodup_iff.mpr B.outDims.nodup
  have hfits := fits_transposedOuts B hperm
  have hsel : ∀ x j : ℕ, (x.testBit j = true → (B.transposedOuts newOutDims).flatColumns.getD j 0 ≠ 0) ↔
      (x.testBit j = true → zeroBasis (B.flatBases.getD j []) = false) := by
    intro x j
    rw [ne_eq, flatColumns_eq_zero _ hfits, zeroBasis_transposedOuts B hperm, Bool.not_eq_true]
  have hzero : ∀ x, combine (B.transposedOuts newOutDims).flatColumns x = 0 ↔
      ∀ outDim ∈ B.getOutDimNames, combine (B.column outDim) x = 0 := by
    intro x
    rw [combine_flatColumns_eq_zero _ hfits, getOutDimNames_transposedOuts B hnodup]
    constructor
    · intro h outDim hmem
      have hmem' := hperm.mem_iff.mpr hmem
      rw [← column_transposedOuts B hnodup hmem']
      exact h outDim hmem'
    · intro h outDim hmem
      rw [column_transposedOuts B hnodup hmem]
      exact h outDim (hperm.mem_iff.mp hmem)
  simp only [NonzeroIndependent, FirstBasesIndependent, hsel, hzero,
    numInjectiveRows_transposedOuts B hperm]

end Transposed

section Aligned

theorem sum_lt_of_ne {ks ks' : List ℕ} (hle : List.Forall₂ (· ≤ ·) ks ks') (hne : ks ≠ ks') :
    ks.sum < ks'.sum := by
  have hsum : ks.sum ≤ ks'.sum ∧ (ks.sum = ks'.sum → ks = ks') := by
    clear hne
    induction hle with
    | nil => exact ⟨le_rfl, fun _ => rfl⟩
    | @cons k k' ks ks' hk _ ih =>
      rw [sum_cons, sum_cons]
      refine ⟨by omega, fun heq => ?_⟩
      rw [ih.2 (by omega), show k = k' by omega]
  exact hsum.1.lt_of_ne fun heq => hne (hsum.2 heq)

theorem exists_first_zero {m : ℕ} {cs : List ℕ} (h : 0 ∈ cs) :
    ∃ c < cs.length, cs.getD c 0 = 0 ∧ (expandZeros m cs).getD c 0 = 2 ^ m := by
  have hlt : cs.idxOf 0 < cs.length := idxOf_lt_length_of_mem h
  have hzero : cs[cs.idxOf 0] = 0 := getElem_idxOf hlt
  refine ⟨cs.idxOf 0, hlt, by rw [getD_eq_getElem _ _ hlt, hzero], ?_⟩
  have hlt' : cs.idxOf 0 < (expandZeros m cs).length := by rwa [length_expandZeros]
  have hcount : (cs.take (cs.idxOf 0)).count 0 = 0 := by
    rw [count_eq_zero]
    intro hmem
    obtain ⟨i, hi, hi0⟩ := getElem_of_mem hmem
    rw [length_take] at hi
    rw [getElem_take] at hi0
    have hle : cs.idxOf 0 ≤ i := by
      by_contra hbefore
      have hne := not_of_lt_findIdx (Nat.lt_of_not_le hbefore)
      simp [hi0] at hne
    omega
  rw [getD_eq_getElem _ _ hlt', getElem_expandZeros hlt' hlt, if_pos hzero, hcount,
    Nat.add_zero]

/-- Packing the bases of `A` with its own sizes gives the rows that `B` needs
exactly when the rows are aligned. -/
theorem rowsAligned_iff (A : LinearLayout) (B : RawLayout)
    (hle : ∀ outDim ∈ A.getOutDimNames, A.getOutDimSizeLog2 outDim ≤ B.getOutDimSizeLog2 outDim) :
    (∀ c < A.getTotalInDimSizeLog2,
      (expandZeros A.getTotalOutDimSizeLog2 A.flatColumns).getD c 0 %
          2 ^ (A.getOutDimNames.map B.getOutDimSizeLog2).sum =
        pack (A.getOutDimNames.map B.getOutDimSizeLog2) (A.flatBases.getD c [])) ↔
      RowsAligned A.toRawLayout B := by
  have hwidths : List.Forall₂ (· ≤ ·) A.outWidths (A.getOutDimNames.map B.getOutDimSizeLog2) := by
    rw [← map_getOutDimSizeLog2]
    simp only [forall₂_map_left_iff, forall₂_map_right_iff, forall₂_same]
    exact hle
  have hsame : (∀ outDim ∈ A.getOutDimNames,
      A.getOutDimSizeLog2 outDim = B.getOutDimSizeLog2 outDim) ↔
        A.outWidths = A.getOutDimNames.map B.getOutDimSizeLog2 := by
    rw [← map_getOutDimSizeLog2, map_inj_left]
  have hlen := length_flatColumns A.toRawLayout
  have hlen' := length_flatBases A.toRawLayout
  have hcol : ∀ c (hc : c < A.getTotalInDimSizeLog2), ∃ b ∈ A.flatBases,
      A.flatBases.getD c [] = b ∧ A.flatColumns.getD c 0 = pack A.outWidths b ∧
      (zeroBasis b = false → (expandZeros A.getTotalOutDimSizeLog2 A.flatColumns).getD c 0 =
        pack A.outWidths b) ∧
      (zeroBasis b = true → ∃ k, (expandZeros A.getTotalOutDimSizeLog2 A.flatColumns).getD c 0 =
        2 ^ (A.getTotalOutDimSizeLog2 + k)) := by
    intro c hc
    have hb : c < A.flatBases.length := by omega
    have hcs : c < A.flatColumns.length := by omega
    have hex : c < (expandZeros A.getTotalOutDimSizeLog2 A.flatColumns).length := by
      rwa [length_expandZeros]
    have hpack : A.flatColumns[c] = pack A.outWidths A.flatBases[c] := by
      simp only [RawLayout.flatColumns, getElem_map]
    have hzero : A.flatColumns[c] = 0 ↔ zeroBasis A.flatBases[c] = true := by
      have hiff := flatColumns_eq_zero A.toRawLayout A.fits (j := c)
      rwa [getD_eq_getElem _ _ hcs, getD_eq_getElem _ _ hb] at hiff
    refine ⟨A.flatBases[c], getElem_mem hb, getD_eq_getElem _ _ hb, ?_, ?_, ?_⟩
    · rw [getD_eq_getElem _ _ hcs, hpack]
    · intro hne
      rw [getD_eq_getElem _ _ hex, getElem_expandZeros hex hcs, if_neg, hpack]
      rw [hzero, hne]
      simp
    · intro hz
      refine ⟨(A.flatColumns.take c).count 0, ?_⟩
      rw [getD_eq_getElem _ _ hex, getElem_expandZeros hex hcs, if_pos (hzero.mpr hz)]
  have htotal := getTotalOutDimSizeLog2_eq A.toRawLayout
  constructor
  · intro hrows
    by_cases heq : A.outWidths = A.getOutDimNames.map B.getOutDimSizeLog2
    · exact Or.inl (hsame.mpr heq)
    have hsum := sum_lt_of_ne hwidths heq
    -- a zero column would put its new row among the rows of the output
    have hnozero : ∀ b ∈ A.flatBases, zeroBasis b = false := by
      intro b hb
      by_contra hz
      rw [Bool.not_eq_false, zeroBasis_iff] at hz
      have hmem : 0 ∈ A.flatColumns := by
        refine mem_map.mpr ⟨b, hb, ?_⟩
        exact (pack_eq_zero (A.fits b hb).length_eq).mpr hz
      obtain ⟨c, hc, hc0, hcx⟩ := exists_first_zero (m := A.getTotalOutDimSizeLog2) hmem
      obtain ⟨b', hb', hbc, hpack, -, -⟩ := hcol c (by omega)
      have hrow := hrows c (by omega)
      rw [hc0] at hpack
      have hall := (pack_eq_zero (A.fits b' hb').length_eq).mp hpack.symm
      rw [hcx, hbc, Nat.mod_eq_of_lt (Nat.pow_lt_pow_right (by omega) (by omega)),
        (pack_eq_zero ((A.fits b' hb').length_eq.trans hwidths.length_eq)).mpr hall] at hrow
      exact absurd hrow (Nat.two_pow_pos _).ne'
    refine Or.inr ⟨hnozero, fun s t hst ht hnarrow b hb => ?_⟩
    obtain ⟨c, hc, rfl⟩ := getElem_of_mem hb
    obtain ⟨b', hb', hbc, -, hnonzero, -⟩ := hcol c (by omega)
    have hrow := hrows c (by omega)
    rw [hbc, hnonzero (hnozero b' hb'), Nat.mod_eq_of_lt] at hrow
    · rw [getD_eq_getElem _ _ hc] at hbc
      rw [hbc]
      apply (pack_eq_pack_iff hwidths (A.fits b' hb').length_eq).mp hrow s t hst
      rw [← map_getOutDimSizeLog2, getD_eq_getElem _ _ (by simp; omega),
        getD_eq_getElem _ _ (by simp; omega), getElem_map, getElem_map]
      exact hnarrow
    · exact (pack_lt (A.fits b' hb')).trans (Nat.pow_lt_pow_right (by omega) hsum)
  · intro haligned c hc
    obtain ⟨b, hb, hbc, hpack, hnonzero, hzero⟩ := hcol c hc
    rw [hbc]
    cases hz : zeroBasis b with
    | false =>
      rw [hnonzero hz]
      have heq : pack A.outWidths b = pack (A.getOutDimNames.map B.getOutDimSizeLog2) b := by
        rcases haligned with hsizes | ⟨-, hlater⟩
        · rw [hsame.mp hsizes]
        · apply (pack_eq_pack_iff hwidths (A.fits b hb).length_eq).mpr
          intro s t hst hnarrow
          by_cases ht : t < A.getOutDimNames.length
          · rw [← map_getOutDimSizeLog2, getD_eq_getElem _ _ (by simp; omega),
              getD_eq_getElem _ _ (by simp; omega), getElem_map,
              getElem_map] at hnarrow
            exact hlater s t hst ht hnarrow b hb
          · rw [getD_eq_default _ _]
            rw [length_basis A.toRawLayout A.fits hb]
            omega
      have hlt : pack A.outWidths b < 2 ^ (A.getOutDimNames.map B.getOutDimSizeLog2).sum := by
        refine (pack_lt (A.fits b hb)).trans_le (Nat.pow_le_pow_right (by omega) ?_)
        exact List.Forall₂.sum_le_sum hwidths
      rw [Nat.mod_eq_of_lt hlt, heq]
    | true =>
      rcases haligned with hsizes | ⟨hnone, -⟩
      · obtain ⟨k, hk⟩ := hzero hz
        rw [hk, htotal, hsame.mp hsizes,
          (pack_eq_zero ((A.fits b hb).length_eq.trans hwidths.length_eq)).mpr
            (zeroBasis_iff.mp hz)]
        exact Nat.mod_eq_zero_of_dvd (Nat.pow_dvd_pow 2 (by omega))
      · rw [hnone b hb] at hz
        exact absurd hz (by simp)

end Aligned

section Reduced

variable (f2 : F2Reduce) {A T : RawLayout} {matThis matOuter : List ℕ}
  (hA : ∀ b ∈ A.flatBases, Fits b A.outWidths) (hT : ∀ b ∈ T.flatBases, Fits b T.outWidths)
  (honto : Onto T.getTotalOutDimSizeLog2 T.flatColumns)
  (hle : A.getTotalOutDimSizeLog2 ≤ T.getTotalOutDimSizeLog2)
  (hcols : A.getTotalInDimSizeLog2 + T.getTotalInDimSizeLog2 ≤ 64)
  (hthis : ExtendedMat A matThis) (houter : ExtendedMat T matOuter)

include honto houter

theorem flatBasis_lt (m : List ℕ) (c : ℕ) :
    flatBasis m matOuter.length T.getTotalInDimSizeLog2 c < 2 ^ T.getTotalInDimSizeLog2 := by
  have hspan := add_count_le_length honto
  rw [length_flatColumns, ← houter.length_eq] at hspan
  refine (maskOf_lt _).trans_le (Nat.pow_le_pow_right (by omega) ?_)
  simpa using hspan

include hle hcols hthis

theorem reduced_combined :
    IsRref (A.getTotalInDimSizeLog2 + T.getTotalInDimSizeLog2)
      (combinedMatrix matThis matOuter T.getTotalInDimSizeLog2)
      (f2.inplaceRrefStrided (combinedMatrix matThis matOuter T.getTotalInDimSizeLog2)
        (A.getTotalInDimSizeLog2 + T.getTotalInDimSizeLog2)) := by
  apply f2.isRref _ _ (combined_lt houter.lt hthis.lt) hcols
  rcases Nat.eq_zero_or_pos (A.getTotalInDimSizeLog2 + T.getTotalInDimSizeLog2) with hzero | hpos
  · right
    have hspan := add_count_le_length honto
    have hcount := count_le_length (a := 0) (l := A.flatColumns)
    rw [length_flatColumns] at hspan hcount
    have hrows := hthis.length_eq
    have hrows' := houter.length_eq
    rw [combinedMatrix, length_map, length_range]
    omega
  · exact Or.inl hpos

include hT

theorem firstHalfIsIdentity_reduced :
    firstHalfIsIdentity (f2.inplaceRrefStrided
        (combinedMatrix matThis matOuter T.getTotalInDimSizeLog2)
        (A.getTotalInDimSizeLog2 + T.getTotalInDimSizeLog2))
      (min matOuter.length T.getTotalInDimSizeLog2) = true ↔
      NonzeroIndependent (numInjectiveRows T) T.flatColumns := by
  have hrref := reduced_combined f2 honto hle hcols hthis houter
  have hspan := add_count_le_length honto
  rw [length_flatColumns] at hspan
  have hR : min matOuter.length T.getTotalInDimSizeLog2 = numInjectiveRows T := by
    rw [houter.length_eq, numInjectiveRows, ← count_flatColumns T hT]
    omega
  have hRle : numInjectiveRows T ≤ T.getTotalInDimSizeLog2 := by
    rw [numInjectiveRows, ← count_flatColumns T hT]
    exact hspan
  have hker := hrref.kernel
  rw [transposeBits_combined houter.lt, houter.columns, hthis.columns] at hker
  rw [hR, firstHalfIsIdentity_iff (hRle.trans (Nat.le_add_left _ _))]
  exact identity_iff (flatColumns_lt T hT) (by rwa [length_flatColumns]) hrref.echelon
    (by rw [length_transposeBits]; omega) hker

include hA

theorem combine_flatBasis (hind : NonzeroIndependent (numInjectiveRows T) T.flatColumns) {c : ℕ}
    (hc : c < A.getTotalInDimSizeLog2) :
    combine T.flatColumns (flatBasis (f2.inplaceRrefStrided
        (combinedMatrix matThis matOuter T.getTotalInDimSizeLog2)
        (A.getTotalInDimSizeLog2 + T.getTotalInDimSizeLog2))
      matOuter.length T.getTotalInDimSizeLog2 c) =
      (expandZeros A.getTotalOutDimSizeLog2 A.flatColumns).getD c 0 %
        2 ^ T.getTotalOutDimSizeLog2 := by
  have hrref := reduced_combined f2 honto hle hcols hthis houter
  have hspan := add_count_le_length honto
  have hker := hrref.kernel
  rw [transposeBits_combined houter.lt, houter.columns, hthis.columns] at hker
  rw [numInjectiveRows, ← count_flatColumns T hT, ← houter.length_eq] at hind
  have hsolve := combine_reduced (flatColumns_lt T hT) (flatColumns_lt A hA) hle houter.length_eq
    (houter.length_eq ▸ hspan) hrref.echelon
    (by rw [length_transposeBits, length_flatColumns, length_flatColumns, Nat.add_comm]) hker hind
    (by rwa [length_flatColumns])
  rw [length_flatColumns] at hsolve
  rwa [flatBasis_eq (show T.getTotalInDimSizeLog2 + c <
    A.getTotalInDimSizeLog2 + T.getTotalInDimSizeLog2 by omega)]

end Reduced

section Result

variable {inDim1D outDim1D : String} {bases : List ℕ} {n : ℕ}

theorem flatBases_flatLayout :
    (flatLayout inDim1D outDim1D bases (2 ^ n)).flatBases = bases.map fun b => [b] :=
  append_nil _

variable (inDim1D outDim1D bases n) in
theorem outWidths_flatLayout : (flatLayout inDim1D outDim1D bases (2 ^ n)).outWidths = [n] := by
  show [Nat.log2 (2 ^ n)] = [n]
  rw [Nat.log2_two_pow]

theorem getTotalInDimSizeLog2_flatLayout :
    (flatLayout inDim1D outDim1D bases (2 ^ n)).getTotalInDimSizeLog2 = bases.length := by
  rw [← length_flatBases, flatBases_flatLayout, length_map]

theorem getTotalOutDimSizeLog2_flatLayout :
    (flatLayout inDim1D outDim1D bases (2 ^ n)).getTotalOutDimSizeLog2 = n := by
  rw [getTotalOutDimSizeLog2_eq, outWidths_flatLayout, sum_singleton]

theorem flatColumns_flatLayout :
    (flatLayout inDim1D outDim1D bases (2 ^ n)).flatColumns = bases := by
  rw [RawLayout.flatColumns, flatBases_flatLayout, outWidths_flatLayout, map_map]
  refine (map_congr_left fun b _ => ?_).trans (map_id _)
  simp [pack]

variable (inDim1D outDim1D) in
theorem create_flatLayout_ok (f2 : F2Reduce) (hn : n < 31) (hlen : bases.length ≤ 64)
    (hlt : ∀ b ∈ bases, b < 2 ^ n) : ∃ L : LinearLayout,
      create f2 (flatLayout inDim1D outDim1D bases (2 ^ n)) false = .ok L ∧
        L.toRawLayout = flatLayout inDim1D outDim1D bases (2 ^ n) := by
  apply create_ok
  · intro size hsize
    have hsize' : size = 2 ^ n := by simpa [flatLayout, MapVector.values, MapVector.single] using hsize
    exact isPowerOf2_32_iff.mpr ⟨n, hn, hsize'⟩
  · intro basis hbasis
    rw [flatBases_flatLayout] at hbasis
    obtain ⟨b, hb, rfl⟩ := mem_map.mp hbasis
    exact List.Forall₂.cons (hlt b hb) List.Forall₂.nil
  · rwa [getTotalInDimSizeLog2_flatLayout]
  · rw [getTotalOutDimSizeLog2_flatLayout]
    omega
  · intro h
    exact absurd h (by simp)

variable (L : RawLayout)

def sizedInDims : List (String × ℕ) :=
  L.getInDimNames.map fun dim => (dim, 2 ^ L.getInDimSizeLog2 dim)

theorem inDimSizes_ok (hn : L.getTotalInDimSizeLog2 < 31) : inDimSizes L = .ok (sizedInDims L) := by
  apply mapM_ok
  intro dim _
  rw [RawLayout.getInDimSize, shiftOne_ok ((getInDimSizeLog2_le_total L dim).trans_lt hn)]
  rfl

theorem map_fst_sizedInDims : (sizedInDims L).map Prod.fst = L.getInDimNames := by
  rw [sizedInDims, map_map]
  exact map_id _

theorem pow_sizedInDims (hn : L.getTotalInDimSizeLog2 < 31) :
    ∀ e ∈ sizedInDims L, isPowerOf2_32 e.2 = true := by
  intro e he
  obtain ⟨dim, _, rfl⟩ := mem_map.mp he
  exact isPowerOf2_32_iff.mpr ⟨_, (getInDimSizeLog2_le_total L dim).trans_lt hn, rfl⟩

theorem logs_sizedInDims : (sizedInDims L).map (fun e => Nat.log2 e.2) = L.inWidths := by
  rw [← map_getInDimSizeLog2, sizedInDims, map_map]
  apply map_congr_left
  intro dim _
  exact Nat.log2_two_pow

theorem reshape_flatLayout_ok (f2 : F2Reduce) {flat : LinearLayout} {A B : RawLayout}
    (hA : A.getTotalInDimSizeLog2 < 31) (hB : B.getTotalInDimSizeLog2 < 31)
    (hflat : flat.toRawLayout = flatLayout inDim1D outDim1D bases (2 ^ B.getTotalInDimSizeLog2))
    (hlen : bases.length = A.getTotalInDimSizeLog2) :
    ∃ C : LinearLayout, (do
        let reshaped ← flat.reshapeIns f2 (sizedInDims A)
        reshaped.reshapeOuts f2 (sizedInDims B)) = .ok C ∧
      C.getInDimNames = A.getInDimNames ∧ C.inWidths = A.inWidths ∧
      C.getOutDimNames = B.getInDimNames ∧ C.outWidths = B.inWidths ∧ C.flatColumns = bases := by
  have htotal : flat.getTotalInDimSizeLog2 = A.getTotalInDimSizeLog2 := by
    rw [hflat, getTotalInDimSizeLog2_flatLayout, hlen]
  obtain ⟨L1, hins, hbases1, houts1, hnames1, hwidths1⟩ := reshapeIns_ok f2 flat
    ((map_fst_sizedInDims A).symm ▸ A.bases.nodup) (pow_sizedInDims A hA)
    (by rw [logs_sizedInDims, ← getTotalInDimSizeLog2_eq, htotal]) (htotal ▸ hA)
  have hwide1 : L1.outWidths = [B.getTotalInDimSizeLog2] := by
    rw [← outWidths_flatLayout inDim1D outDim1D bases, ← hflat]
    exact congrArg (fun m => m.values.map Nat.log2) houts1
  have hcols1 : L1.flatColumns = bases := by
    rw [RawLayout.flatColumns, hbases1, hwide1, hflat, ← outWidths_flatLayout inDim1D outDim1D bases]
    exact flatColumns_flatLayout
  have htotal1 : L1.getTotalOutDimSizeLog2 = B.getTotalInDimSizeLog2 := by
    rw [getTotalOutDimSizeLog2_eq, hwide1, sum_singleton]
  obtain ⟨C, houts, hbasesC, hentries, hnamesC, hwidthsC⟩ := reshapeOuts_ok f2 L1
    ((map_fst_sizedInDims B).symm ▸ B.bases.nodup) (pow_sizedInDims B hB)
    (by rw [logs_sizedInDims, ← getTotalInDimSizeLog2_eq, htotal1]) (htotal1 ▸ hB)
  have hwideC : C.outWidths = B.inWidths := by
    rw [RawLayout.outWidths, MapVector.values, hentries, logs_of_dims, logs_sizedInDims]
  refine ⟨C, ?_, ?_, ?_, ?_, hwideC, ?_⟩
  · rw [hins]
    exact houts
  · rw [hnamesC, hnames1, map_fst_sizedInDims]
  · rw [hwidthsC, hwidths1, logs_sizedInDims]
  · rw [RawLayout.getOutDimNames, MapVector.keys, hentries, map_fst_sizedInDims]
  · rw [RawLayout.flatColumns, hbasesC, hwideC, logs_sizedInDims, map_map, hcols1]
    refine (map_congr_left fun b hb => ?_).trans (map_id _)
    have hlt := flatColumns_lt L1.toRawLayout L1.fits b (hcols1.symm ▸ hb)
    rw [htotal1, getTotalInDimSizeLog2_eq] at hlt
    rw [Function.comp_apply, pack_unpack hlt, id]

end Result

section Run

variable (f2 : F2Reduce) (A B : LinearLayout)
  (hperm : A.getOutDimNames.Perm B.getOutDimNames) (hsurj : B.surjective = true)
  (hle : ∀ outDim ∈ A.getOutDimNames, A.getOutDimSizeLog2 outDim ≤ B.getOutDimSizeLog2 outDim)
  (hcols : A.getTotalInDimSizeLog2 + B.getTotalInDimSizeLog2 ≤ 64)

theorem firstDim_ok {dims : List String} (h : dims ≠ []) : ∃ dim, firstDim dims = .ok dim := by
  cases dims with
  | nil => exact absurd rfl h
  | cons dim dims => exact ⟨dim, rfl⟩

theorem firstDim_eq_ok {dims : List String} {dim : String} (h : firstDim dims = .ok dim) :
    dims ≠ [] := by
  rintro rfl
  simp [firstDim] at h

include hperm hle in
theorem totalOut_le : A.getTotalOutDimSizeLog2 ≤
    (B.transposedOuts A.getOutDimNames).getTotalOutDimSizeLog2 := by
  have hsum : (A.getOutDimNames.map A.getOutDimSizeLog2).sum ≤
      (A.getOutDimNames.map B.getOutDimSizeLog2).sum := sum_le_sum hle
  rw [getTotalOutDimSizeLog2_transposedOuts B hperm]
  rwa [(hperm.map B.getOutDimSizeLog2).sum_nat] at hsum

variable (hins : A.getInDimNames ≠ []) (houts : A.getOutDimNames ≠ [])
  (hA : A.getTotalInDimSizeLog2 < 31) (hB : B.getTotalInDimSizeLog2 < 31)
  (hind : FirstBasesIndependent B.toRawLayout)

include hperm hsurj hle hcols hins houts hA hB hind

/-- The result has the dimensions of `A` and `B`, and its columns are read off
the reduced matrix. -/
theorem invertAndCompose_bases :
    ∃ (C : LinearLayout) (matThis matOuter : List ℕ), A.invertAndCompose f2 B = .ok C ∧
      C.getInDimNames = A.getInDimNames ∧ C.inWidths = A.inWidths ∧
      C.getOutDimNames = B.getInDimNames ∧ C.outWidths = B.inWidths ∧
      ExtendedMat A.toRawLayout matThis ∧
      ExtendedMat (B.transposedOuts A.getOutDimNames) matOuter ∧
      C.flatColumns = (List.range A.getTotalInDimSizeLog2).map
        (flatBasis (f2.inplaceRrefStrided (combinedMatrix matThis matOuter
            B.getTotalInDimSizeLog2) (A.getTotalInDimSizeLog2 + B.getTotalInDimSizeLog2))
          matOuter.length B.getTotalInDimSizeLog2) := by
  have hT := fits_transposedOuts B hperm
  have honto := onto_transposedOuts B hperm hsurj
  have hKle := totalOut_le A B hperm hle
  have htotalT := getTotalInDimSizeLog2_transposedOuts B A.getOutDimNames
  obtain ⟨matThis, hmatThis, hthis⟩ := getInjectiveMat_ok A.toRawLayout A.fits (by omega)
  obtain ⟨T, htranspose, hrawT⟩ := transposeOuts_ok f2 B hperm
  obtain ⟨matOuter, hmatOuter, houter⟩ :=
    getInjectiveMat_ok (B.transposedOuts A.getOutDimNames) hT (by omega)
  have hcolsT : A.getTotalInDimSizeLog2 +
      (B.transposedOuts A.getOutDimNames).getTotalInDimSizeLog2 ≤ 64 := htotalT ▸ hcols
  have hindT := (nonzeroIndependent_transposedOuts B hperm).mpr hind
  have hidentity := (firstHalfIsIdentity_reduced f2 hT honto hKle hcolsT hthis houter).mpr hindT
  rw [htotalT] at hidentity
  generalize hm : f2.inplaceRrefStrided (combinedMatrix matThis matOuter
    B.getTotalInDimSizeLog2) (A.getTotalInDimSizeLog2 + B.getTotalInDimSizeLog2) = m at hidentity
  obtain ⟨inDim1D, hin1⟩ := firstDim_ok hins
  obtain ⟨outDim1D, hout1⟩ := firstDim_ok houts
  let bases := (List.range A.getTotalInDimSizeLog2).map
    (flatBasis m matOuter.length B.getTotalInDimSizeLog2)
  have hlen : bases.length = A.getTotalInDimSizeLog2 := by simp [bases]
  have hlt : ∀ b ∈ bases, b < 2 ^ B.getTotalInDimSizeLog2 := by
    intro b hb
    obtain ⟨c, -, rfl⟩ := mem_map.mp hb
    rw [← htotalT]
    exact flatBasis_lt honto houter m c
  obtain ⟨flat, hcreate, hflat⟩ := create_flatLayout_ok inDim1D outDim1D f2 hB (by omega) hlt
  obtain ⟨C, hreshape, hnames, hwidths, hnamesOut, hwidthsOut, hcolumns⟩ :=
    reshape_flatLayout_ok f2 hA hB hflat hlen
  refine ⟨C, matThis, matOuter, ?_, hnames, hwidths, hnamesOut, hwidthsOut, hthis, houter, ?_⟩
  · have hdims : assertDimsEqualIgnoringOrder A.getOutDimNames B.getOutDimNames = .ok () := by
      rw [assertDimsEqualIgnoringOrder, if_pos]
      simp [hperm.mem_iff]
    have hsizes : (A.getOutDimNames.all fun outDim =>
        decide (A.getOutDimSize outDim ≤ B.getOutDimSize outDim)) = true := by
      rw [all_eq_true]
      intro outDim hmem
      exact decide_eq_true (Nat.pow_le_pow_right (by omega) (hle outDim hmem))
    have hsize : B.getTotalInDimSize = .ok (2 ^ B.getTotalInDimSizeLog2) := shiftOne_ok hB
    rw [invertAndCompose, hdims, assertThat_ok hsizes, assertThat_ok hsurj, hmatThis, htranspose]
    simp only [bind, Except.bind, hrawT, hmatOuter, htotalT, hm, hidentity, if_true,
      assertThat_ok (decide_eq_true hcols), hin1, hout1, hsize, inDimSizes_ok _ hA,
      inDimSizes_ok _ hB]
    rw [hcreate]
    exact hreshape
  · rw [hcolumns, hm]

theorem invertAndCompose_ok :
    ∃ C : LinearLayout, A.invertAndCompose f2 B = .ok C ∧
      C.getInDimNames = A.getInDimNames ∧ C.inWidths = A.inWidths ∧
      C.getOutDimNames = B.getInDimNames ∧ C.outWidths = B.inWidths ∧
      ∀ c < A.getTotalInDimSizeLog2,
        combine (B.transposedOuts A.getOutDimNames).flatColumns (C.flatColumns.getD c 0) =
          (expandZeros A.getTotalOutDimSizeLog2 A.flatColumns).getD c 0 %
            2 ^ (A.getOutDimNames.map B.getOutDimSizeLog2).sum := by
  obtain ⟨C, matThis, matOuter, hC, hnames, hwidths, hnamesOut, hwidthsOut, hthis, houter,
    hcolumns⟩ := invertAndCompose_bases f2 A B hperm hsurj hle hcols hins houts hA hB hind
  refine ⟨C, hC, hnames, hwidths, hnamesOut, hwidthsOut, fun c hc => ?_⟩
  have htotalT := getTotalInDimSizeLog2_transposedOuts B A.getOutDimNames
  have hrows : (B.transposedOuts A.getOutDimNames).getTotalOutDimSizeLog2 =
      (A.getOutDimNames.map B.getOutDimSizeLog2).sum := by
    rw [getTotalOutDimSizeLog2_eq,
      outWidths_transposedOuts B (hperm.nodup_iff.mpr B.outDims.nodup)]
  have hsolve := combine_flatBasis f2 A.fits (fits_transposedOuts B hperm)
    (onto_transposedOuts B hperm hsurj) (totalOut_le A B hperm hle) (htotalT ▸ hcols) hthis houter
    ((nonzeroIndependent_transposedOuts B hperm).mpr hind) hc
  rw [htotalT, hrows] at hsolve
  rw [hcolumns, getD_eq_getElem _ _ (by simpa using hc)]
  simpa only [getElem_map, getElem_range] using hsolve

omit hins houts hA hB hind in
/-- A result is only returned when the first non-zero bases of `B` are
independent, and both layouts are small enough. -/
theorem invertAndCompose_eq_ok {C : LinearLayout} (h : A.invertAndCompose f2 B = .ok C) :
    A.getInDimNames ≠ [] ∧ A.getOutDimNames ≠ [] ∧ A.getTotalInDimSizeLog2 < 31 ∧
      B.getTotalInDimSizeLog2 < 31 ∧ FirstBasesIndependent B.toRawLayout := by
  have hT := fits_transposedOuts B hperm
  have honto := onto_transposedOuts B hperm hsurj
  have hKle := totalOut_le A B hperm hle
  have htotalT := getTotalInDimSizeLog2_transposedOuts B A.getOutDimNames
  rw [invertAndCompose] at h
  obtain ⟨_, -, h⟩ := bind_eq_ok h
  obtain ⟨_, -, h⟩ := bind_eq_ok h
  obtain ⟨_, -, h⟩ := bind_eq_ok h
  obtain ⟨matThis, hmatThis, h⟩ := bind_eq_ok h
  obtain ⟨T, htranspose, h⟩ := bind_eq_ok h
  obtain ⟨matOuter, hmatOuter, h⟩ := bind_eq_ok h
  obtain ⟨_, -, h⟩ := bind_eq_ok h
  obtain ⟨T', htranspose', hrawT⟩ := transposeOuts_ok f2 B hperm
  obtain rfl : T = T' := Except.ok.inj (htranspose.symm.trans htranspose')
  rw [hrawT] at hmatOuter h
  dsimp only at h
  split_ifs at h with hidentity
  obtain ⟨inDim1D, hin1, h⟩ := bind_eq_ok h
  obtain ⟨outDim1D, hout1, h⟩ := bind_eq_ok h
  obtain ⟨size, hsize, h⟩ := bind_eq_ok h
  obtain ⟨flat, hcreate, h⟩ := bind_eq_ok h
  obtain ⟨_, -, h⟩ := bind_eq_ok h
  obtain ⟨_, -, h⟩ := bind_eq_ok h
  obtain ⟨reshaped, hreshape, -⟩ := bind_eq_ok h
  -- the sizes of both layouts are computed on the way
  obtain ⟨hB, rfl⟩ := shiftOne_eq_ok hsize
  have hA : A.getTotalInDimSizeLog2 < 31 := by
    rw [reshapeIns] at hreshape
    obtain ⟨_, -, hreshape⟩ := bind_eq_ok hreshape
    obtain ⟨total, htotal, -⟩ := bind_eq_ok hreshape
    have hlt := (shiftOne_eq_ok htotal).1
    rwa [create_eq_ok hcreate, getTotalInDimSizeLog2_flatLayout, length_map,
      length_range] at hlt
  obtain ⟨matThis', hmatThis', hthis⟩ := getInjectiveMat_ok A.toRawLayout A.fits (by omega)
  obtain rfl : matThis = matThis' := Except.ok.inj (hmatThis.symm.trans hmatThis')
  obtain ⟨matOuter', hmatOuter', houter⟩ :=
    getInjectiveMat_ok (B.transposedOuts A.getOutDimNames) hT (by omega)
  obtain rfl : matOuter = matOuter' := Except.ok.inj (hmatOuter.symm.trans hmatOuter')
  rw [← htotalT] at hcols
  refine ⟨firstDim_eq_ok hin1, firstDim_eq_ok hout1, hA, hB, ?_⟩
  exact (nonzeroIndependent_transposedOuts B hperm).mp
    ((firstHalfIsIdentity_reduced f2 hT honto hKle hcols hthis houter).mp hidentity)

end Run

end TritonCpu
