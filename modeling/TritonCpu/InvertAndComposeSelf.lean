import TritonCpu.InvertAndComposeInverse

/-!
# Converting a layout to itself

`A.invertAndCompose(A)` is the identity on the input dimensions of `A` when the
non-zero bases of `A` are independent. The zero bases keep their place because
each has a row of its own in the matrix that is reduced.
-/

set_option autoImplicit false

namespace TritonCpu

open XorSpan BitFields LinearLayout

/-- No selection of non-zero bases cancels in every output dimension. -/
def NonzeroBasesIndependent (L : RawLayout) : Prop :=
  ∀ x < 2 ^ L.getTotalInDimSizeLog2,
    (∀ j, x.testBit j = true → zeroBasis (L.flatBases.getD j []) = false) →
    (∀ outDim ∈ L.getOutDimNames, combine (L.column outDim) x = 0) → x = 0

/-- `C` passes on every input of `A`, from the input dimensions of `A` to the
same dimensions. -/
structure IdentityOn (A C : RawLayout) : Prop where
  inNames : C.getInDimNames = A.getInDimNames
  inWidths : C.inWidths = A.inWidths
  outNames : C.getOutDimNames = A.getInDimNames
  outWidths : C.outWidths = A.inWidths
  apply : ∀ x, Fits x A.inWidths →
    C.apply (A.getInDimNames.zip x) = .ok (A.getInDimNames.zip x)

/-- Converting `A` to itself moves nothing. -/
def ConvertsToItself (f2 : F2Reduce) (A : LinearLayout) : Prop :=
  ∃ C : LinearLayout, A.invertAndCompose f2 A = .ok C ∧ IdentityOn A.toRawLayout C.toRawLayout

section Self

variable (A : LinearLayout)

theorem permuteBasis_self {b : List ℕ} (hb : b ∈ A.flatBases) :
    permuteBasis (A.getOutDimNames.map A.getOutDimIndex) b = b := by
  have hlen := length_basis A.toRawLayout A.fits hb
  apply List.ext_getElem (by rw [permuteBasis, List.length_map, List.length_map, hlen])
  intro t ht ht'
  simp only [permuteBasis, List.getElem_map]
  rw [getOutDimIndex_getElem, List.getD_eq_getElem]

theorem flatColumns_transposedOuts_self :
    (A.transposedOuts A.getOutDimNames).flatColumns = A.flatColumns := by
  have hnodup : A.getOutDimNames.Nodup := A.outDims.nodup
  rw [RawLayout.flatColumns, outWidths_transposedOuts A hnodup, map_getOutDimSizeLog2,
    flatBases_transposedOuts, List.map_map, RawLayout.flatColumns]
  apply List.map_congr_left
  intro b hb
  rw [Function.comp_apply, permuteBasis_self A hb]

theorem nonzeroIndependent_flatColumns (hind : NonzeroBasesIndependent A.toRawLayout) :
    NonzeroIndependent A.flatColumns.length A.flatColumns := by
  intro x hx hsel hzero
  rw [length_flatColumns] at hx
  apply hind x hx
  · intro j hj
    rw [← Bool.not_eq_true, ← flatColumns_eq_zero A.toRawLayout A.fits]
    exact hsel j hj
  · exact (combine_flatColumns_eq_zero A.toRawLayout A.fits x).mp hzero

variable (hsurj : A.surjective = true) (hind : NonzeroBasesIndependent A.toRawLayout)

include hsurj hind

theorem numInjectiveRows_eq : numInjectiveRows A.toRawLayout = A.getTotalInDimSizeLog2 := by
  rw [numInjectiveRows, ← count_flatColumns A.toRawLayout A.fits, ← length_flatColumns]
  exact rows_eq_length (flatColumns_lt A.toRawLayout A.fits) (A.surjective_iff.mp hsurj)
    (nonzeroIndependent_flatColumns A hind)

theorem firstBasesIndependent_self : FirstBasesIndependent A.toRawLayout := by
  rw [FirstBasesIndependent, numInjectiveRows_eq A hsurj hind]
  exact hind

variable (f2 : F2Reduce) (hsmall : A.getTotalInDimSizeLog2 < 31) (hins : A.getInDimNames ≠ [])
  (houts : A.getOutDimNames ≠ [])

include hsmall hins houts

theorem invertAndCompose_self_bases : ∃ C : LinearLayout, A.invertAndCompose f2 A = .ok C ∧
    C.getInDimNames = A.getInDimNames ∧ C.inWidths = A.inWidths ∧
    C.getOutDimNames = A.getInDimNames ∧ C.outWidths = A.inWidths ∧
    C.flatColumns = (List.range A.getTotalInDimSizeLog2).map (2 ^ ·) := by
  have hperm := List.Perm.refl A.getOutDimNames
  have hcols : A.getTotalInDimSizeLog2 + A.getTotalInDimSizeLog2 ≤ 64 := by omega
  have hle : ∀ outDim ∈ A.getOutDimNames,
      A.getOutDimSizeLog2 outDim ≤ A.getOutDimSizeLog2 outDim := fun _ _ => le_rfl
  have hself := flatColumns_transposedOuts_self A
  have htotalT := getTotalInDimSizeLog2_transposedOuts A A.getOutDimNames
  have htotalOutT := getTotalOutDimSizeLog2_transposedOuts A hperm
  obtain ⟨C, matThis, matOuter, hC, hnames, hwidths, hnamesOut, hwidthsOut, hthis, houter,
    hcolumns⟩ := invertAndCompose_bases f2 A A hperm hsurj hle hcols hins houts hsmall hsmall
      (firstBasesIndependent_self A hsurj hind)
  refine ⟨C, hC, hnames, hwidths, hnamesOut, hwidthsOut, ?_⟩
  have hrref := reduced_combined f2 (onto_transposedOuts A hperm hsurj)
    (totalOut_le A A hperm hle) (htotalT.symm ▸ hcols) hthis houter
  have hker := hrref.kernel
  rw [transposeBits_combined houter.lt, houter.columns, hthis.columns, hself, htotalOutT] at hker
  rw [hcolumns]
  apply List.map_congr_left
  intro c hc
  rw [List.mem_range] at hc
  have hreduced := reduced_self (flatColumns_lt A.toRawLayout A.fits) hrref.echelon
    (by rw [length_transposeBits, length_flatColumns, htotalT]) hker
    (nonzeroIndependent_flatColumns A hind) (c := c) (by rwa [length_flatColumns])
  rw [length_flatColumns, htotalT] at hreduced
  have hrows : matOuter.length = A.getTotalInDimSizeLog2 := by
    rw [houter.length_eq, hself, htotalOutT, count_flatColumns A.toRawLayout A.fits]
    exact numInjectiveRows_eq A hsurj hind
  rw [flatBasis_eq (show A.getTotalInDimSizeLog2 + c <
    A.getTotalInDimSizeLog2 + A.getTotalInDimSizeLog2 by omega), hreduced, hrows]
  exact Nat.mod_eq_of_lt (Nat.pow_lt_pow_right (by omega) hc)

theorem convertsToItself_of_dims : ConvertsToItself f2 A := by
  obtain ⟨C, hC, hnames, hwidths, hnamesOut, hwidthsOut, hcolumns⟩ :=
    invertAndCompose_self_bases A hsurj hind f2 hsmall hins houts
  refine ⟨C, hC, hnames, hwidths, hnamesOut, hwidthsOut, fun x hx => ?_⟩
  have hlt : pack A.inWidths x < 2 ^ A.getTotalInDimSizeLog2 := by
    rw [getTotalInDimSizeLog2_eq]
    exact pack_lt hx
  rw [apply_result A A C hnames hwidths hnamesOut hwidthsOut hsmall hx, hcolumns, combine_units,
    Nat.mod_eq_of_lt hlt, unpack_pack hx]

end Self

/-- A surjective layout with independent non-zero bases is converted to itself
by the identity exactly when it has dimensions on both sides. -/
theorem invertAndCompose_self_iff (f2 : F2Reduce) (A : LinearLayout) (hsurj : A.surjective = true)
    (hind : NonzeroBasesIndependent A.toRawLayout) (hsmall : A.getTotalInDimSizeLog2 < 31) :
    ConvertsToItself f2 A ↔ A.getInDimNames ≠ [] ∧ A.getOutDimNames ≠ [] := by
  constructor
  · rintro ⟨C, hC, -⟩
    obtain ⟨hins, houts, -⟩ := invertAndCompose_eq_ok f2 A A (List.Perm.refl _) hsurj
      (fun _ _ => le_rfl) (by omega) hC
    exact ⟨hins, houts⟩
  · rintro ⟨hins, houts⟩
    exact convertsToItself_of_dims A hsurj hind f2 hsmall hins houts

/-- `(lane) -> (dim0 = lane / 2, dim1 = lane / 4)`, two by two elements, the
lanes in pairs that hold the same element. -/
def pairedLanes : LinearLayout :=
  oneInputLayout "lane" [[0, 0], [1, 0], [0, 1]] ⟨[("dim0", 2), ("dim1", 2)], squareDims_nodup⟩
    squareDims_isPowerOf2 (by decide) (by decide) (by decide)

/-- The lanes of a pair stay apart. -/
theorem invertAndCompose_self_pairedLanes : ConvertsToItself f2reduce pairedLanes := by
  refine (invertAndCompose_self_iff f2reduce pairedLanes (by decide +kernel) ?_ (by decide)).mpr
    ⟨by decide, by decide⟩
  intro x hx hsel hzero
  have hdecide : ∀ x < 8, combine (pairedLanes.column "dim0") x = 0 →
      combine (pairedLanes.column "dim1") x = 0 → x.testBit 0 = false → x = 0 := by decide
  refine hdecide x hx (hzero "dim0" (by decide)) (hzero "dim1" (by decide)) ?_
  rw [← Bool.not_eq_true]
  exact fun hbit => absurd (hsel 0 hbit) (by decide)

/-- The layout that `LinearLayout::empty()` returns. -/
def emptyLayout : LinearLayout where
  bases := MapVector.empty
  outDims := MapVector.empty
  surjective := computeSurjective f2reduce ⟨MapVector.empty, MapVector.empty⟩
  size_pow := by decide
  basis_lt := by decide
  numCols_le := by decide
  numRows_le := by decide
  surjective_iff := computeSurjective_iff f2reduce _ (by decide) (by decide) (by decide)

/-- The name of the first dimension is read although there is none. -/
theorem empty_not_convertsToItself :
    (emptyLayout.surjective = true ∧ NonzeroBasesIndependent emptyLayout.toRawLayout ∧
      emptyLayout.getTotalInDimSizeLog2 < 31) ∧
    ¬ ConvertsToItself f2reduce emptyLayout := by
  refine ⟨⟨by decide +kernel, fun x hx _ _ => ?_, by decide⟩, ?_⟩
  · exact Nat.lt_one_iff.mp hx
  · rintro ⟨C, hC, -⟩
    obtain ⟨hins, -⟩ := invertAndCompose_eq_ok f2reduce emptyLayout emptyLayout
      (List.Perm.refl _) (by decide +kernel) (by decide) (by decide) hC
    exact hins rfl

end TritonCpu
