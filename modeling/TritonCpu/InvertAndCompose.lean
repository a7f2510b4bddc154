import TritonCpu.LayoutReshape
import TritonCpu.SolveColumns

/-!
# Inverting one layout and composing it with another

`A.invertAndCompose(B)` puts the matrices of both layouts side by side, reduces
them, and reads the result off behind the identity that replaced the matrix of
`B`.
-/

set_option autoImplicit false

namespace TritonCpu

open XorSpan BitFields LinearLayout List

/-- `matThis` to the right of `matOuter`. -/
def combinedMatrix (matThis matOuter : List ℕ) (numColsOuter : ℕ) : List ℕ :=
  (List.range (max matThis.length matOuter.length)).map fun r =>
    matOuter.getD r 0 ||| (matThis.getD r 0 <<< numColsOuter)

def firstHalfIsIdentity (m : List ℕ) (n : ℕ) : Bool :=
  (List.range n).all fun r => (List.range n).all fun c => (m.getD r 0).testBit c == (r == c)

def flatBasis (m : List ℕ) (numRowsOuter numColsOuter c : ℕ) : ℕ :=
  maskOf ((List.range numRowsOuter).map fun r => (m.getD r 0).testBit (numColsOuter + c))

/-- `*dims.begin()` -/
def firstDim : List String → Except LayoutError String
  | [] => .error .undefined
  | dim :: _ => .ok dim

def inDimSizes (layout : RawLayout) : Except LayoutError (List (String × ℕ)) :=
  layout.getInDimNames.mapM fun dim => do
    let size ← layout.getInDimSize dim
    pure (dim, size)

def flatLayout (inDim1D outDim1D : String) (bases : List ℕ) (totalInDimSize : ℕ) : RawLayout :=
  ⟨MapVector.single inDim1D (bases.map fun b => [b]), MapVector.single outDim1D totalInDimSize⟩

def LinearLayout.invertAndCompose (f2 : F2Reduce) (this outer : LinearLayout) :
    Except LayoutError LinearLayout := do
  assertDimsEqualIgnoringOrder this.getOutDimNames outer.getOutDimNames
  assertThat "getOutDimSize(outDim) <= outer.getOutDimSize(outDim)"
    (this.getOutDimNames.all fun outDim =>
      decide (this.getOutDimSize outDim ≤ outer.getOutDimSize outDim))
  assertThat "outer.isSurjective()" outer.surjective
  let matThis ← getInjectiveMat this.toRawLayout
  let transposed ← outer.transposeOuts f2 this.getOutDimNames
  let matOuter ← getInjectiveMat transposed.toRawLayout
  let numColsThis := this.getTotalInDimSizeLog2
  let numColsOuter := transposed.getTotalInDimSizeLog2
  assertThat "combinedNumCols <= 64 && \"Can't handle huge layouts\""
    (decide (numColsThis + numColsOuter ≤ 64))
  let m := f2.inplaceRrefStrided (combinedMatrix matThis matOuter numColsOuter)
    (numColsThis + numColsOuter)
  if firstHalfIsIdentity m (min matOuter.length numColsOuter) then
    let inDim1D ← firstDim this.getInDimNames
    let outDim1D ← firstDim this.getOutDimNames
    let totalInDimSize ← outer.getTotalInDimSize
    let bases := (List.range numColsThis).map (flatBasis m matOuter.length numColsOuter)
    let flatComposed ← create f2 (flatLayout inDim1D outDim1D bases totalInDimSize) false
    let retInDims ← inDimSizes this.toRawLayout
    let retOutDims ← inDimSizes outer.toRawLayout
    let reshaped ← flatComposed.reshapeIns f2 retInDims
    reshaped.reshapeOuts f2 retOutDims
  else
    .error (.fatal "First half of the matrix was not the identity, bug in invertAndCompose")

section Combined

variable {matThis matOuter : List ℕ} {numColsThis numColsOuter : ℕ}

theorem testBit_combined (houter : ∀ r ∈ matOuter, r < 2 ^ numColsOuter) (r c : ℕ) :
    ((combinedMatrix matThis matOuter numColsOuter).getD r 0).testBit c =
      if c < numColsOuter then (matOuter.getD r 0).testBit c
      else (matThis.getD r 0).testBit (c - numColsOuter) := by
  have hrow : matOuter.getD r 0 < 2 ^ numColsOuter := by
    by_cases hr : r < matOuter.length
    · rw [getD_eq_getElem _ _ hr]
      exact houter _ (getElem_mem hr)
    · rw [getD_eq_default _ _ (by omega)]
      exact Nat.two_pow_pos _
  have hentry : (combinedMatrix matThis matOuter numColsOuter).getD r 0 =
      matOuter.getD r 0 ||| (matThis.getD r 0 <<< numColsOuter) := by
    by_cases hr : r < max matThis.length matOuter.length
    · rw [combinedMatrix, getD_eq_getElem _ _ (by simpa using hr)]
      simp only [getElem_map, getElem_range]
    · rw [combinedMatrix, getD_eq_default _ _ (by simpa using hr),
        getD_eq_default _ _ (by omega), getD_eq_default _ _ (by omega)]
      simp
  rw [hentry, Nat.testBit_or, Nat.testBit_shiftLeft]
  split_ifs with hc
  · simp [hc]
  · have hhigh : (matOuter.getD r 0).testBit c = false :=
      Nat.testBit_lt_two_pow (hrow.trans_le (Nat.pow_le_pow_right (by omega) (by omega)))
    rw [hhigh]
    simp [show numColsOuter ≤ c by omega]

theorem transposeBits_combined (houter : ∀ r ∈ matOuter, r < 2 ^ numColsOuter) :
    transposeBits (numColsThis + numColsOuter) (combinedMatrix matThis matOuter numColsOuter) =
      transposeBits numColsOuter matOuter ++ transposeBits numColsThis matThis := by
  apply ext_getElem (by simp; omega)
  intro c hc hc'
  apply Nat.eq_of_testBit_eq
  intro r
  rw [testBit_transposeBits, testBit_combined houter]
  by_cases hfirst : c < numColsOuter
  · rw [if_pos hfirst, getElem_append_left (by simpa using hfirst), testBit_transposeBits]
  · rw [if_neg hfirst, getElem_append_right (by simpa using hfirst), testBit_transposeBits,
      length_transposeBits]

theorem combined_lt (houter : ∀ r ∈ matOuter, r < 2 ^ numColsOuter)
    (hthis : ∀ r ∈ matThis, r < 2 ^ numColsThis) :
    ∀ r ∈ combinedMatrix matThis matOuter numColsOuter, r < 2 ^ (numColsThis + numColsOuter) := by
  intro row hrow
  obtain ⟨r, hr, rfl⟩ := getElem_of_mem hrow
  apply Nat.lt_pow_two_of_testBit
  intro c hc
  rw [← getD_eq_getElem _ 0 hr, testBit_combined houter, if_neg (by omega)]
  by_cases hr' : r < matThis.length
  · rw [getD_eq_getElem _ _ hr']
    exact Nat.testBit_lt_two_pow ((hthis _ (getElem_mem hr')).trans_le
      (Nat.pow_le_pow_right (by omega) (by omega)))
  · rw [getD_eq_default _ _ (by omega), Nat.zero_testBit]

theorem firstHalfIsIdentity_iff {m : List ℕ} {n numCols : ℕ} (hn : n ≤ numCols) :
    firstHalfIsIdentity m n = true ↔
      ∀ r < n, ∀ c < n, ((transposeBits numCols m).getD c 0).testBit r = (r == c) := by
  simp only [firstHalfIsIdentity, all_eq_true, mem_range, beq_iff_eq]
  refine forall₂_congr fun r _ => forall₂_congr fun c hc => ?_
  rw [getD_eq_getElem (transposeBits numCols m) 0 (by simp; omega), testBit_transposeBits]

theorem flatBasis_eq {m : List ℕ} {numRows numCols c : ℕ} (hc : numColsOuter + c < numCols) :
    flatBasis m numRows numColsOuter c =
      (transposeBits numCols m).getD (numColsOuter + c) 0 % 2 ^ numRows := by
  apply Nat.eq_of_testBit_eq
  intro r
  rw [flatBasis, testBit_maskOf, Nat.testBit_mod_two_pow,
    getD_eq_getElem (transposeBits numCols m) 0 (by simpa using hc), testBit_transposeBits]
  by_cases hr : r < numRows
  · rw [getD_eq_getElem _ _ (by simpa using hr)]
    simp [hr]
  · rw [getD_eq_default _ _ (by simpa using hr)]
    simp [hr]

end Combined

end TritonCpu
