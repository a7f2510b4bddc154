import Mathlib
import TritonCpu.InvertAndComposeCorrect
import TritonCpu.LayoutValue

/-!
# `B(C(x)) = A(x)`

The bases of the result solve for the columns of `A`, so applying the result and
then `B` is applying `A` exactly when the rows of both matrices are aligned.
-/

set_option autoImplicit false

namespace TritonCpu

open XorSpan BitFields LinearLayout List

/-- `A.invertAndCompose(B)` returns a layout `C` from the input dimensions of
`A` to those of `B`, and `B(C(x))` is `A(x)` in every output dimension. -/
def InvertsAndComposes (f2 : F2Reduce) (A B : LinearLayout) : Prop :=
  ∃ C : LinearLayout, A.invertAndCompose f2 B = .ok C ∧
    (C.getInDimNames = A.getInDimNames ∧ C.inWidths = A.inWidths) ∧
    (C.getOutDimNames = B.getInDimNames ∧ C.outWidths = B.inWidths) ∧
    ∀ x, Fits x A.inWidths → ∃ y z w, C.apply (A.getInDimNames.zip x) = .ok y ∧
      B.apply y = .ok z ∧ A.apply (A.getInDimNames.zip x) = .ok w ∧
      ∀ outDim ∈ A.getOutDimNames, z.lookup outDim = w.lookup outDim

/-- When it does. -/
structure Invertible (A B : RawLayout) : Prop where
  inDims : A.getInDimNames ≠ []
  outDims : A.getOutDimNames ≠ []
  inBits : A.getTotalInDimSizeLog2 < 31
  outerInBits : B.getTotalInDimSizeLog2 < 31
  independent : FirstBasesIndependent B
  aligned : RowsAligned A B

theorem inWidths_le (L : RawLayout) (h : L.getTotalInDimSizeLog2 < 31) :
    ∀ k ∈ L.inWidths, k ≤ 31 := by
  intro k hk
  have hle := le_sum_of_mem hk
  rw [← getTotalInDimSizeLog2_eq] at hle
  omega

section Inverse

variable (f2 : F2Reduce) (A B C : LinearLayout)

theorem apply_result (hnames : C.getInDimNames = A.getInDimNames) (hwidths : C.inWidths = A.inWidths)
    (hnamesOut : C.getOutDimNames = B.getInDimNames) (hwidthsOut : C.outWidths = B.inWidths)
    (hA : A.getTotalInDimSizeLog2 < 31) {x : List ℕ} (hx : Fits x A.inWidths) :
    C.apply (A.getInDimNames.zip x) = .ok (B.getInDimNames.zip
      (unpack B.inWidths (combine C.flatColumns (pack A.inWidths x)))) := by
  have happly := apply_zip C.toRawLayout (hwidths.symm ▸ hx)
    (hwidths.symm ▸ inWidths_le A.toRawLayout hA)
  rw [hnames] at happly
  rw [happly, hwidths]
  congr 1
  have hlen : (unpack B.inWidths (combine C.flatColumns (pack A.inWidths x))).length =
      B.getInDimNames.length := by
    rw [length_unpack, length_inWidths]
  apply ext_getElem (by simp [hnamesOut, hlen])
  intro t ht ht'
  have htC : t < C.getOutDimNames.length := by simpa using ht
  simp only [getElem_map, getElem_zip]
  refine Prod.ext ?_ ?_
  · simp only [hnamesOut]
  · have hfield := combine_column C.toRawLayout C.fits htC (pack A.inWidths x)
    rw [hfield, hwidthsOut, getD_eq_getElem]

theorem composes_iff (hnames : C.getInDimNames = A.getInDimNames) (hwidths : C.inWidths = A.inWidths)
    (hnamesOut : C.getOutDimNames = B.getInDimNames) (hwidthsOut : C.outWidths = B.inWidths)
    (hperm : A.getOutDimNames.Perm B.getOutDimNames)
    (hA : A.getTotalInDimSizeLog2 < 31) (hB : B.getTotalInDimSizeLog2 < 31) :
    (∀ x, Fits x A.inWidths → ∃ y z w, C.apply (A.getInDimNames.zip x) = .ok y ∧
      B.apply y = .ok z ∧ A.apply (A.getInDimNames.zip x) = .ok w ∧
      ∀ outDim ∈ A.getOutDimNames, z.lookup outDim = w.lookup outDim) ↔
    ∀ c < A.getTotalInDimSizeLog2, ∀ outDim ∈ A.getOutDimNames,
      combine (B.column outDim) (C.flatColumns.getD c 0) = (A.column outDim).getD c 0 := by
  have hbound : ∀ x, combine C.flatColumns x < 2 ^ B.inWidths.sum := by
    intro x
    have hlt := combine_lt (x := x) (flatColumns_lt C.toRawLayout C.fits)
    rwa [getTotalOutDimSizeLog2_eq, hwidthsOut] at hlt
  have hB' : ∀ x, B.apply (B.getInDimNames.zip (unpack B.inWidths (combine C.flatColumns x))) =
      .ok (B.getOutDimNames.map fun outDim =>
        (outDim, combine (B.column outDim) (combine C.flatColumns x))) := by
    intro x
    rw [apply_zip B.toRawLayout (fits_unpack _ _) (inWidths_le B.toRawLayout hB),
      pack_unpack (hbound x)]
  have hequal : ∀ x, Fits x A.inWidths → ((∃ y z w, C.apply (A.getInDimNames.zip x) = .ok y ∧
      B.apply y = .ok z ∧ A.apply (A.getInDimNames.zip x) = .ok w ∧
      ∀ outDim ∈ A.getOutDimNames, z.lookup outDim = w.lookup outDim) ↔
        ∀ outDim ∈ A.getOutDimNames, combine (B.column outDim)
          (combine C.flatColumns (pack A.inWidths x)) =
            combine (A.column outDim) (pack A.inWidths x)) := by
    intro x hx
    have hC := apply_result A B C hnames hwidths hnamesOut hwidthsOut hA hx
    have hAx := apply_zip A.toRawLayout hx (inWidths_le A.toRawLayout hA)
    constructor
    · rintro ⟨y, z, w, hy, hz, hw, hzw⟩ outDim hmem
      obtain rfl := Except.ok.inj (hC.symm.trans hy)
      obtain rfl := Except.ok.inj ((hB' _).symm.trans hz)
      obtain rfl := Except.ok.inj (hAx.symm.trans hw)
      have hval := hzw outDim hmem
      rw [lookup_map _ (hperm.mem_iff.mp hmem), lookup_map _ hmem] at hval
      exact Option.some.inj hval
    · intro h
      refine ⟨_, _, _, hC, hB' _, hAx, fun outDim hmem => ?_⟩
      rw [lookup_map _ (hperm.mem_iff.mp hmem), lookup_map _ hmem, h outDim hmem]
  have hflat : C.flatColumns.length = A.getTotalInDimSizeLog2 := by
    rw [length_flatColumns, getTotalInDimSizeLog2_eq, hwidths, getTotalInDimSizeLog2_eq]
  have hcol : ∀ outDim, (A.column outDim).length = A.getTotalInDimSizeLog2 := by
    intro outDim
    rw [RawLayout.column, length_map, length_flatBases]
  have hcompose : ∀ outDim x, combine (B.column outDim) (combine C.flatColumns x) =
      combine (C.flatColumns.map (combine (B.column outDim))) x := fun outDim x =>
    (combine_map _ _ _ (combine_zero _) (combine_xor _)).symm
  constructor
  · intro h c hc outDim hmem
    have hlt : 2 ^ c < 2 ^ A.inWidths.sum :=
      Nat.pow_lt_pow_right (by omega) (by rwa [← getTotalInDimSizeLog2_eq])
    have hval := (hequal _ (fits_unpack _ (2 ^ c))).mp (h _ (fits_unpack _ (2 ^ c))) outDim hmem
    rwa [pack_unpack hlt, combine_two_pow, combine_two_pow] at hval
  · intro h x hx
    rw [hequal x hx]
    intro outDim hmem
    have hcolumns : C.flatColumns.map (combine (B.column outDim)) = A.column outDim := by
      apply ext_getElem (by rw [length_map, hflat, hcol])
      intro c hc hc'
      have hcA : c < A.getTotalInDimSizeLog2 := by rwa [← hcol outDim]
      have hval := h c hcA outDim hmem
      rw [getD_eq_getElem _ _ (by omega), getD_eq_getElem _ _ hc'] at hval
      rw [getElem_map, hval]
    rw [hcompose, hcolumns]

theorem columns_iff (hperm : A.getOutDimNames.Perm B.getOutDimNames)
    (hle : ∀ outDim ∈ A.getOutDimNames, A.getOutDimSizeLog2 outDim ≤ B.getOutDimSizeLog2 outDim)
    {c : ℕ} (hc : c < A.getTotalInDimSizeLog2) (x : ℕ) :
    (∀ outDim ∈ A.getOutDimNames, combine (B.column outDim) x = (A.column outDim).getD c 0) ↔
      combine (B.transposedOuts A.getOutDimNames).flatColumns x =
        pack (A.getOutDimNames.map B.getOutDimSizeLog2) (A.flatBases.getD c []) := by
  have hnodup : A.getOutDimNames.Nodup := A.outDims.nodup
  have hT := fits_transposedOuts B hperm
  have hwidths := outWidths_transposedOuts B hnodup
  have hnames := getOutDimNames_transposedOuts B hnodup
  have hb : c < A.flatBases.length := by rwa [length_flatBases]
  have hfit : Fits A.flatBases[c] (A.getOutDimNames.map B.getOutDimSizeLog2) := by
    have hA := A.fits _ (getElem_mem hb)
    rw [← map_getOutDimSizeLog2] at hA
    simp only [Fits, forall₂_map_right_iff] at hA ⊢
    have hmem : ∀ d ∈ A.getOutDimNames, A.getOutDimSizeLog2 d ≤ B.getOutDimSizeLog2 d := hle
    revert hA hmem
    generalize A.flatBases[c] = b
    generalize A.getOutDimNames = names
    intro hA hmem
    induction hA with
    | nil => exact List.Forall₂.nil
    | @cons v d b names hv _ ih =>
      exact List.Forall₂.cons (hv.trans_le
        (Nat.pow_le_pow_right (by omega) (hmem d mem_cons_self)))
        (ih fun e he => hmem e (mem_cons_of_mem _ he))
  have hlt := pack_lt hfit
  rw [getD_eq_getElem _ _ hb, combine_flatColumns_eq_iff _ hT x _
    (by rw [getTotalOutDimSizeLog2_eq, hwidths]; exact hlt), hwidths, unpack_pack hfit]
  have hentry : ∀ (t : ℕ) (ht : t < A.getOutDimNames.length),
      (A.column A.getOutDimNames[t]).getD c 0 = A.flatBases[c].getD t 0 := by
    intro t ht
    rw [RawLayout.column, getD_eq_getElem _ _ (by simpa using hb), getElem_map,
      getOutDimIndex_getElem A.toRawLayout ht]
  constructor
  · intro h t ht
    simp only [hnames] at ht ⊢
    rw [column_transposedOuts B hnodup (getElem_mem ht), h _ (getElem_mem ht),
      hentry t ht]
  · intro h outDim hmem
    obtain ⟨t, ht, rfl⟩ := getElem_of_mem hmem
    have hval := h t (by rwa [hnames])
    simp only [hnames] at hval
    rwa [column_transposedOuts B hnodup hmem, ← hentry t ht] at hval

section Requirements

variable (hperm : A.getOutDimNames.Perm B.getOutDimNames) (hsurj : B.surjective = true)
  (hle : ∀ outDim ∈ A.getOutDimNames, A.getOutDimSizeLog2 outDim ≤ B.getOutDimSizeLog2 outDim)
  (hcols : A.getTotalInDimSizeLog2 + B.getTotalInDimSizeLog2 ≤ 64)

include hperm hsurj hle hcols

theorem invertible_of_invertsAndComposes (h : InvertsAndComposes f2 A B) :
    Invertible A.toRawLayout B.toRawLayout := by
  obtain ⟨C, hC, ⟨hnames, hwidths⟩, ⟨hnamesOut, hwidthsOut⟩, hinverse⟩ := h
  obtain ⟨hins, houts, hA, hB, hind⟩ := invertAndCompose_eq_ok f2 A B hperm hsurj hle hcols hC
  obtain ⟨C', hC', -, -, -, -, hsolve⟩ :=
    invertAndCompose_ok f2 A B hperm hsurj hle hcols hins houts hA hB hind
  obtain rfl : C = C' := Except.ok.inj (hC.symm.trans hC')
  have hbases := (composes_iff A B C hnames hwidths hnamesOut hwidthsOut hperm hA hB).mp hinverse
  refine ⟨hins, houts, hA, hB, hind, (rowsAligned_iff A B.toRawLayout hle).mp fun c hc => ?_⟩
  rw [← hsolve c hc]
  exact (columns_iff A B hperm hle hc _).mp (hbases c hc)

theorem invertsAndComposes_of_invertible (h : Invertible A.toRawLayout B.toRawLayout) :
    InvertsAndComposes f2 A B := by
  obtain ⟨hins, houts, hA, hB, hind, haligned⟩ := h
  obtain ⟨C, hC, hnames, hwidths, hnamesOut, hwidthsOut, hsolve⟩ :=
    invertAndCompose_ok f2 A B hperm hsurj hle hcols hins houts hA hB hind
  refine ⟨C, hC, ⟨hnames, hwidths⟩, ⟨hnamesOut, hwidthsOut⟩, ?_⟩
  rw [composes_iff A B C hnames hwidths hnamesOut hwidthsOut hperm hA hB]
  intro c hc
  rw [columns_iff A B hperm hle hc, hsolve c hc]
  exact (rowsAligned_iff A B.toRawLayout hle).mpr haligned c hc

end Requirements

/-- `invertAndCompose` inverts exactly when the layouts have dimensions and
fewer than 31 input bits, the first non-zero bases of `B` are independent, and
the rows of `A` stand where the rows of `B` stand. -/
theorem invertAndCompose_iff (hperm : A.getOutDimNames.Perm B.getOutDimNames)
    (hsurj : B.surjective = true)
    (hle : ∀ outDim ∈ A.getOutDimNames, A.getOutDimSizeLog2 outDim ≤ B.getOutDimSizeLog2 outDim)
    (hcols : A.getTotalInDimSizeLog2 + B.getTotalInDimSizeLog2 ≤ 64) :
    InvertsAndComposes f2 A B ↔ Invertible A.toRawLayout B.toRawLayout :=
  ⟨invertible_of_invertsAndComposes f2 A B hperm hsurj hle hcols,
    invertsAndComposes_of_invertible f2 A B hperm hsurj hle hcols⟩

end Inverse

section Layouts

/-- `(offset) -> (dim1 = offset, dim0 = offset / 2)`, two by two elements. -/
def swappedSquare : LinearLayout :=
  oneInputLayout "offset" [[1, 0], [0, 1]] ⟨[("dim1", 2), ("dim0", 2)], by decide⟩
    (by decide) (by decide) (by decide) (by decide)

theorem squareDims_nodup : ([("dim0", 2), ("dim1", 2)].map Prod.fst).Nodup := by decide

theorem squareDims_isPowerOf2 : ∀ size ∈
    (⟨[("dim0", 2), ("dim1", 2)], squareDims_nodup⟩ : MapVector ℕ).values,
    isPowerOf2_32 size = true := by decide

/-- `(lane) -> (dim0 = lane, dim1 = lane + lane / 2)`, two by two elements. -/
def skewedSquare : LinearLayout :=
  oneInputLayout "lane" [[1, 1], [0, 1]] ⟨[("dim0", 2), ("dim1", 2)], squareDims_nodup⟩
    squareDims_isPowerOf2 (by decide) (by decide) (by decide)

/-- `(lane) -> (dim0 = 0, dim1 = lane)`, one by two elements. -/
def singleRow : LinearLayout :=
  oneInputLayout "lane" [[0, 1]] ⟨[("dim0", 1), ("dim1", 2)], by decide⟩
    (by decide) (by decide) (by decide) (by decide)

theorem swappedSquare_surjective : swappedSquare.surjective = true := by decide +kernel

theorem swappedSquare_independent : FirstBasesIndependent swappedSquare.toRawLayout := by
  intro x hx _ hzero
  have hdecide : ∀ x < 4, combine (swappedSquare.column "dim0") x = 0 →
      combine (swappedSquare.column "dim1") x = 0 → x = 0 := by decide
  exact hdecide x hx (hzero "dim0" (by decide)) (hzero "dim1" (by decide))

/-- The shared memory offset of every lane of a skewed square. -/
theorem invertAndCompose_square : InvertsAndComposes f2reduce skewedSquare swappedSquare :=
  (invertAndCompose_iff f2reduce skewedSquare swappedSquare (by decide) swappedSquare_surjective
    (by decide) (by decide)).mpr
    { inDims := by decide
      outDims := by decide
      inBits := by decide
      outerInBits := by decide
      independent := swappedSquare_independent
      aligned := Or.inl (by decide) }

/-- A layout of one row is not inverted by a layout of two: its bit of `dim1`
is packed where the other has its bit of `dim0`. -/
theorem singleRow_not_inverted :
    (singleRow.getOutDimNames.Perm swappedSquare.getOutDimNames ∧
      swappedSquare.surjective = true ∧
      (∀ outDim ∈ singleRow.getOutDimNames,
        singleRow.getOutDimSizeLog2 outDim ≤ swappedSquare.getOutDimSizeLog2 outDim) ∧
      singleRow.getTotalInDimSizeLog2 + swappedSquare.getTotalInDimSizeLog2 ≤ 64) ∧
    ¬ InvertsAndComposes f2reduce singleRow swappedSquare := by
  have hrequired : singleRow.getOutDimNames.Perm swappedSquare.getOutDimNames ∧
      swappedSquare.surjective = true ∧
      (∀ outDim ∈ singleRow.getOutDimNames,
        singleRow.getOutDimSizeLog2 outDim ≤ swappedSquare.getOutDimSizeLog2 outDim) ∧
      singleRow.getTotalInDimSizeLog2 + swappedSquare.getTotalInDimSizeLog2 ≤ 64 :=
    ⟨by decide, swappedSquare_surjective, by decide, by decide⟩
  refine ⟨hrequired, fun h => ?_⟩
  obtain ⟨hperm, hsurj, hle, hcols⟩ := hrequired
  have hinv := invertible_of_invertsAndComposes f2reduce singleRow swappedSquare hperm hsurj hle hcols h
  rcases hinv.aligned with hsame | ⟨-, hrow⟩
  · exact absurd (hsame "dim0" (by decide)) (by decide)
  · exact absurd (hrow 0 1 (by decide) (by decide) (by decide) [0, 1] (by decide)) (by decide)

end Layouts

end TritonCpu
