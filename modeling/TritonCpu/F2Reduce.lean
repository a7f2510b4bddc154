import TritonCpu.RowEchelon

/-!
# Gaussian elimination over two elements

`f2reduce` overwrites a matrix, one word for each row, with its reduced row
echelon form.
-/

set_option autoImplicit false

namespace TritonCpu

/-- A function that computes the reduced row echelon form of every matrix of at
most 64 columns. A matrix of several rows must have a column. -/
structure F2Reduce where
  inplaceRrefStrided : List ℕ → ℕ → List ℕ
  isRref : ∀ (rows : List ℕ) (numCols : ℕ), (∀ r ∈ rows, r < 2 ^ numCols) → numCols ≤ 64 →
    0 < numCols ∨ rows.length ≤ 1 → XorSpan.IsRref numCols rows (inplaceRrefStrided rows numCols)

end TritonCpu
