import TritonCpu.PtrDenotation
import TritonCpu.SplitPtr

/-!
# Side-by-side wraparound loads

The columns of the tile wrap around. The column the tile starts at is taken to
be the remainder of the collapsed offset, and columns are counted as if each
were one element wide; the second block starts at the offset less the
remainder and is repeated to the right of the first.
-/

set_option autoImplicit false

namespace TritonCpu.StructuredToMemref
open TritonIR OpFoldResult MemRef AnalysisStructured

attribute [local instance] neZero_one neZero_two

/-! The columns of the two blocks: `x` is the remainder of the offset, `n1` and
`n2` are the widths of the blocks. -/

section Columns

variable {modN strideCol c x : ℤ} {colSize n1 n2 totalCols : ℕ}

/-- Where a column is copied from, relative to the row it starts in. -/
def columnSource (strideCol c x : ℤ) (n1 n2 j : ℕ) : ℤ :=
  if j < n1 then (c + j) * strideCol else c * strideCol - x + ((j - n1) % n2 : ℕ) * strideCol

def ColumnsAgree (modN strideCol c x : ℤ) (n1 n2 totalCols : ℕ) : Prop :=
  ∀ j < totalCols, columnSource strideCol c x n1 n2 j = (c + j) * strideCol % modN

/-- Either the widths are right: one element for each column, and the
remainder is the column the tile starts at (or there is one column only). Or
nothing wraps around, for the blocks and for the tile. -/
def ColumnsAligned (modN strideCol c x : ℤ) (totalCols : ℕ) : Prop :=
  modN = 1 ∨ (strideCol = 1 ∧ x = c) ∨
    (x + totalCols ≤ modN ∧ (c + totalCols - 1) * strideCol < modN)

variable (hN : 0 < modN) (hS : 0 < strideCol) (hc : 0 ≤ c) (hcol : c * strideCol < modN)
  (hx : -modN < x ∧ x < modN) (hn1 : (n1 : ℤ) = min (x + colSize) modN - x)
  (hn2 : (n2 : ℤ) = min ((colSize : ℤ) - n1) modN) (htotal : totalCols ≤ colSize)

include hN hS hc hcol hx hn1 htotal

theorem aligned_of_agree_wrap (hwrap : n1 < totalCols)
    (hagree : ColumnsAgree modN strideCol c x n1 n2 totalCols) :
    modN = 1 ∨ (strideCol = 1 ∧ x = c) := by
  obtain ⟨e, he⟩ : ∃ e : ℕ, n1 = e + 1 := ⟨n1 - 1, by omega⟩
  have hxe : x = modN - 1 - e := by omega
  have hlast : (c + e) * strideCol < modN := by
    have := hagree e (by omega)
    rw [columnSource, if_pos (by omega)] at this
    rw [this]
    exact Int.emod_lt_of_pos _ hN
  have hfirst : c * strideCol - x = (c + n1) * strideCol % modN := by
    have := hagree n1 hwrap
    rw [columnSource, if_neg (by omega), Nat.sub_self, Nat.zero_mod] at this
    simpa using this
  have hnonneg : 0 ≤ c * strideCol - x := by
    rw [hfirst]
    exact Int.emod_nonneg _ hN.ne'
  have hprod : (e : ℤ) * (strideCol - 1) = 0 := by
    have hle : 0 ≤ (e : ℤ) * (strideCol - 1) :=
      Int.mul_nonneg (Int.natCast_nonneg e) (by omega)
    have hexpand : (c + e) * strideCol = c * strideCol + e + e * (strideCol - 1) := by ring
    omega
  rcases mul_eq_zero.mp hprod with he0 | hS1
  · -- the first block has one column, so the range ends right after it
    have hcS : c * strideCol = modN - 1 := by omega
    have hdvd : modN ∣ strideCol - 1 := by
      have hsub : (c + n1) * strideCol - (c * strideCol - x) = modN + (strideCol - 1) := by
        rw [hxe, he]
        push_cast
        rw [he0]
        ring
      have hmod := Int.dvd_sub_self_of_emod_eq hfirst.symm
      rw [← dvd_neg, neg_sub, hsub] at hmod
      simpa using hmod
    rcases hc.eq_or_lt with hc0 | hcpos
    · left
      rw [← hc0, zero_mul] at hcS
      omega
    · right
      have hle : strideCol ≤ c * strideCol := le_mul_of_one_le_left hS.le hcpos
      have hS1 : strideCol - 1 = 0 :=
        Int.eq_zero_of_dvd_of_nonneg_of_lt (by omega) (by omega) hdvd
      have hS1 : strideCol = 1 := by omega
      rw [hS1, mul_one] at hcS
      exact ⟨hS1, by omega⟩
  · right
    have hS1 : strideCol = 1 := by omega
    rw [hS1, mul_one] at hlast hnonneg
    exact ⟨hS1, by omega⟩

theorem aligned_of_agree (hpos : 0 < totalCols)
    (hagree : ColumnsAgree modN strideCol c x n1 n2 totalCols) :
    ColumnsAligned modN strideCol c x totalCols := by
  by_cases hwrap : n1 < totalCols
  · rcases aligned_of_agree_wrap hN hS hc hcol hx hn1 htotal hwrap hagree with h | h
    · exact Or.inl h
    · exact Or.inr (Or.inl h)
  · refine Or.inr (Or.inr ⟨by omega, ?_⟩)
    have hlast := hagree (totalCols - 1) (by omega)
    rw [columnSource, if_pos (by omega)] at hlast
    have hcast : ((totalCols - 1 : ℕ) : ℤ) = totalCols - 1 := by omega
    rw [hcast, ← add_sub_assoc] at hlast
    rw [hlast]
    exact Int.emod_lt_of_pos _ hN

include hn2

omit hN in
theorem agree_of_aligned (haligned : ColumnsAligned modN strideCol c x totalCols) :
    ColumnsAgree modN strideCol c x n1 n2 totalCols := by
  intro j hj
  have hcS := Int.mul_nonneg hc hS.le
  rcases haligned with h1 | ⟨hS1, hxc⟩ | ⟨hnowrap, hend⟩
  · have hzero : c * strideCol = 0 := by omega
    rw [h1, Int.emod_one, columnSource]
    split_ifs with hlt
    · have hj0 : j = 0 := by omega
      rw [hj0, Nat.cast_zero, add_zero, hzero]
    · have hn : n2 = 1 := by omega
      rw [hn, Nat.mod_one, hzero]
      omega
  · rw [columnSource, hS1, mul_one, mul_one, mul_one, hxc, sub_self, zero_add]
    split_ifs with hlt
    · exact (Int.emod_eq_of_lt (by omega) (by omega)).symm
    · have hsplit : c + j = ((j - n1 : ℕ) : ℤ) + modN := by omega
      rw [hsplit, Int.add_emod_right, Int.natCast_emod]
      by_cases hlast : (n2 : ℤ) = modN
      · rw [hlast]
      · rw [Int.emod_eq_of_lt (by omega) (by omega), Int.emod_eq_of_lt (by omega) (by omega)]
  · have hle : (c + j) * strideCol ≤ (c + totalCols - 1) * strideCol :=
      Int.mul_le_mul_of_nonneg_right (by omega) hS.le
    have hnonneg : 0 ≤ (c + j) * strideCol := Int.mul_nonneg (by omega) hS.le
    rw [columnSource, if_pos (by omega), Int.emod_eq_of_lt hnonneg (by omega)]

end Columns

/-! The load. -/

variable {α : Type}

/-- A tile that starts at row `r` and column `c`. -/
structure SideBySideStart (ρ : Env) (op : MakeTensorPtrOp 2) (r c : ℤ) : Prop where
  strideRow_pos : 0 < (op.strides 0).eval ρ
  strideCol_pos : 0 < (op.strides 1).eval ρ
  start : ∑ k, evals ρ op.offsets k = r * (op.strides 0).eval ρ + c * (op.strides 1).eval ρ
  column : 0 ≤ c * (op.strides 1).eval ρ ∧ c * (op.strides 1).eval ρ < (op.shape 1).eval ρ

def SideBySideLoads (ρ : Env) (op : MakeTensorPtrOp 2) (r c : ℤ) (block1 block2 : View 2)
    (totalRows totalCols : ℕ) (base init : Memory α) : Prop :=
  ∀ i : Index 2, i 0 < totalRows → i 1 < totalCols →
    run (createSideBySideCopies base block1 block2 (alloc op.sizes) totalRows totalCols) init
      (position op.sizes i) = base ((r + i 0) * (op.strides 0).eval ρ +
        (c + i 1) * (op.strides 1).eval ρ % (op.shape 1).eval ρ)

theorem rewriteSplitPtr_sideBySide {ρ : Env} {op : MakeTensorPtrOp 2} {block1 block2 : View 2}
    (h : rewriteSplitPtr ρ op = .ok (.sideBySide block1 block2)) :
    createSideBySideCastOps ρ op = (block1, block2) := by
  simp only [rewriteSplitPtr] at h
  split_ifs at h
  · cases h
  · cases h
    rfl

section Tile

variable {ρ : Env} {op : MakeTensorPtrOp 2} {r c : ℤ} {block1 block2 : View 2}
  {totalRows totalCols : ℕ}

def startRemainder (ρ : Env) (op : MakeTensorPtrOp 2) (r c : ℤ) : ℤ :=
  (r * (op.strides 0).eval ρ + c * (op.strides 1).eval ρ).tmod ((op.shape 1).eval ρ)

theorem startRemainder_lt (h : SideBySideStart ρ op r c) :
    -(op.shape 1).eval ρ < startRemainder ρ op r c ∧
      startRemainder ρ op r c < (op.shape 1).eval ρ := by
  have hcol := h.column
  have hpos : 0 < (op.shape 1).eval ρ := by omega
  exact ⟨Int.lt_tmod_of_pos _ hpos, Int.tmod_lt_of_pos _ hpos⟩

theorem mem_sideBySideCopies (totalRows : ℕ) (h : SideBySideStart ρ op r c)
    (hblocks : createSideBySideCastOps ρ op = (block1, block2)) (hcols : totalCols ≤ op.sizes 1) :
    ∃ n1 n2 : ℕ,
      (n1 : ℤ) = min (startRemainder ρ op r c + op.sizes 1) ((op.shape 1).eval ρ) -
        startRemainder ρ op r c ∧
      (n2 : ℤ) = min ((op.sizes 1 : ℤ) - n1) ((op.shape 1).eval ρ) ∧
      ∀ (base : Memory α) (w : Write α),
        w ∈ createSideBySideCopies base block1 block2 (alloc op.sizes) totalRows totalCols ↔
          ∃ i : Index 2, i 0 < totalRows ∧ i 1 < totalCols ∧ ⟨position op.sizes i, base
            ((r + i 0) * (op.strides 0).eval ρ + columnSource ((op.strides 1).eval ρ) c
              (startRemainder ρ op r c) n1 n2 (i 1))⟩ = w := by
  have hx := startRemainder_lt h
  have hcol := h.column
  obtain ⟨n1, hn1⟩ : ∃ n1 : ℕ, min (startRemainder ρ op r c + op.sizes 1)
      ((op.shape 1).eval ρ) - startRemainder ρ op r c = n1 := Int.eq_ofNat_of_zero_le (by omega)
  obtain ⟨n2, hn2⟩ : ∃ n2 : ℕ, min ((op.sizes 1 : ℤ) - n1) ((op.shape 1).eval ρ) = n2 :=
    Int.eq_ofNat_of_zero_le (by omega)
  refine ⟨n1, n2, hn1.symm, hn2.symm, fun base w => ?_⟩
  have hcasts : createSideBySideCastOps ρ op =
      (⟨r * (op.strides 0).eval ρ + c * (op.strides 1).eval ρ, ![op.sizes 0, n1],
          evals ρ op.strides⟩,
        ⟨r * (op.strides 0).eval ρ + c * (op.strides 1).eval ρ - startRemainder ρ op r c,
          ![op.sizes 0, n2], evals ρ op.strides⟩) := by
    simp only [createSideBySideCastOps, accumulateTargetOffset_eq, h.start]
    rw [← startRemainder, hn1, hn2]
  rw [hcasts, Prod.mk.injEq] at hblocks
  obtain ⟨rfl, rfl⟩ := hblocks
  rw [mem_createSideBySideCopies rfl rfl (by omega)]
  refine exists_congr fun i => and_congr_right fun _ => and_congr_right fun _ => ?_
  have hsource : (if i 1 < n1 then
        View.address ⟨r * (op.strides 0).eval ρ + c * (op.strides 1).eval ρ,
          ![(op.sizes 0 : ℤ), n1], evals ρ op.strides⟩ i
      else View.address ⟨r * (op.strides 0).eval ρ + c * (op.strides 1).eval ρ -
          startRemainder ρ op r c, ![(op.sizes 0 : ℤ), n2], evals ρ op.strides⟩
          ![i 0, (i 1 - n1) % n2]) =
      (r + i 0) * (op.strides 0).eval ρ + columnSource ((op.strides 1).eval ρ) c
        (startRemainder ρ op r c) n1 n2 (i 1) := by
    rw [columnSource]
    split_ifs
    · rw [address_two]
      show _ + ((i 0 : ℤ) * (op.strides 0).eval ρ + i 1 * (op.strides 1).eval ρ) = _
      ring
    · rw [address_two]
      show _ + ((i 0 : ℤ) * (op.strides 0).eval ρ +
        ((i 1 - n1) % n2 : ℕ) * (op.strides 1).eval ρ) = _
      ring
  rw [hsource]

theorem sideBySideLoads_iff [Nontrivial α] (h : SideBySideStart ρ op r c)
    (hblocks : createSideBySideCastOps ρ op = (block1, block2)) (hrows : totalRows ≤ op.sizes 0)
    (hcols : totalCols ≤ op.sizes 1) :
    (∀ base init : Memory α, SideBySideLoads ρ op r c block1 block2 totalRows totalCols base init) ↔
      totalRows = 0 ∨ totalCols = 0 ∨ ColumnsAligned ((op.shape 1).eval ρ) ((op.strides 1).eval ρ) c
        (startRemainder ρ op r c) totalCols := by
  obtain ⟨n1, n2, hn1, hn2, hmem⟩ := mem_sideBySideCopies (α := α) totalRows h
    hblocks hcols
  have hcol := h.column
  have hN : 0 < (op.shape 1).eval ρ := by omega
  have hc : 0 ≤ c := nonneg_of_mul_nonneg_left hcol.1 h.strideCol_pos
  have hinTile : ∀ {i : Index 2}, i 0 < totalRows → i 1 < totalCols → ∀ k, i k < op.sizes k :=
    fun h0 h1 => Fin.forall_fin_two.mpr ⟨h0.trans_le hrows, h1.trans_le hcols⟩
  have hrun : ∀ (base init : Memory α) (i : Index 2), i 0 < totalRows → i 1 < totalCols →
      run (createSideBySideCopies base block1 block2 (alloc op.sizes) totalRows totalCols) init
        (position op.sizes i) = base ((r + i 0) * (op.strides 0).eval ρ +
          columnSource ((op.strides 1).eval ρ) c (startRemainder ρ op r c) n1 n2 (i 1)) := by
    intro base init i h0 h1
    have hwrites (w : Write α) :
        w ∈ createSideBySideCopies base block1 block2 (alloc op.sizes) totalRows totalCols ↔
          ∃ j : Index 2, (j 0 < totalRows ∧ j 1 < totalCols) ∧ ⟨position op.sizes j, base
            ((r + j 0) * (op.strides 0).eval ρ + columnSource ((op.strides 1).eval ρ) c
              (startRemainder ρ op r c) n1 n2 (j 1))⟩ = w := by
      simp only [hmem, and_assoc]
    exact run_position hwrites (fun j hj => hinTile hj.1 hj.2) ⟨h0, h1⟩ init
  constructor
  · intro hloads
    rcases Nat.eq_zero_or_pos totalRows with hrow | hrow
    · exact Or.inl hrow
    rcases Nat.eq_zero_or_pos totalCols with hzero | hpos
    · exact Or.inr (Or.inl hzero)
    have hagree : ColumnsAgree ((op.shape 1).eval ρ) ((op.strides 1).eval ρ) c
        (startRemainder ρ op r c) n1 n2 totalCols := by
      intro j hj
      have hsame : ∀ base : Memory α, base ((r + (0 : ℕ)) * (op.strides 0).eval ρ +
            columnSource ((op.strides 1).eval ρ) c (startRemainder ρ op r c) n1 n2 j) =
          base ((r + (0 : ℕ)) * (op.strides 0).eval ρ +
            (c + j) * (op.strides 1).eval ρ % (op.shape 1).eval ρ) :=
        fun base =>
          (hrun base base ![0, j] hrow hj).symm.trans (hloads base base ![0, j] hrow hj)
      exact Int.add_left_cancel (eq_of_forall_memory hsame)
    exact Or.inr (Or.inr (aligned_of_agree hN h.strideCol_pos hc hcol.2 (startRemainder_lt h)
      hn1 hcols hpos hagree))
  · intro hcond base init i h0 h1
    have haligned : ColumnsAligned ((op.shape 1).eval ρ) ((op.strides 1).eval ρ) c
        (startRemainder ρ op r c) totalCols := by
      rcases hcond with hrow | hzero | haligned
      · omega
      · omega
      · exact haligned
    rw [hrun base init i h0 h1, agree_of_aligned h.strideCol_pos hc hcol.2 (startRemainder_lt h)
      hn1 hn2 hcols haligned (i 1) h1]

end Tile

/-- A side-by-side wraparound load is right exactly when it has nothing to
load, the modulo is 1, the columns are contiguous and the remainder of the
offset is the column the tile starts at, or neither the blocks nor the tile
wrap around. -/
theorem sideBySide_correct_iff [Nontrivial α] (ρ : Env) (op : MakeTensorPtrOp 2) (r c : ℤ)
    (block1 block2 : View 2) (hsplit : rewriteSplitPtr ρ op = .ok (.sideBySide block1 block2))
    (h : SideBySideStart ρ op r c) (totalRows totalCols : ℕ) (hrows : totalRows ≤ op.sizes 0)
    (hcols : totalCols ≤ op.sizes 1) :
    (∀ base init : Memory α, SideBySideLoads ρ op r c block1 block2 totalRows totalCols base init) ↔
      totalRows = 0 ∨ totalCols = 0 ∨ ColumnsAligned ((op.shape 1).eval ρ) ((op.strides 1).eval ρ) c
        ((r * (op.strides 0).eval ρ + c * (op.strides 1).eval ρ).tmod ((op.shape 1).eval ρ))
        totalCols :=
  sideBySideLoads_iff h (rewriteSplitPtr_sideBySide hsplit) hrows hcols

/-- Two rows of four columns that start at row 1 and column 6 of rows of eight
elements. -/
def sideBySideTile : MakeTensorPtrOp 2 where
  sizes := ![2, 4]
  strides := ![.attr 8, .attr 1]
  offsets := ![.attr 8, .attr 6]
  shape := ![.attr 0, .attr 8]
  order := none

/-- The third column wraps around. -/
theorem sideBySide_correct_iff_wrapped :
    SideBySideLoads emptyEnv sideBySideTile 1 6 (createSideBySideCastOps emptyEnv sideBySideTile).1
      (createSideBySideCastOps emptyEnv sideBySideTile).2 2 3 (fun a => a) fun _ => 0 :=
  (sideBySide_correct_iff emptyEnv sideBySideTile 1 6 _ _ rfl
    ⟨by decide, by decide, by decide, by decide⟩ 2 3 (by decide) (by decide)).mpr
    (Or.inr (Or.inr (Or.inr (Or.inl (by decide))))) _ _

/-- Every other element of the rows is a column: two columns fit before the
end of the row, not four. -/
def alternatingTile : MakeTensorPtrOp 2 where
  sizes := ![2, 4]
  strides := ![.attr 8, .attr 2]
  offsets := ![.attr 0, .attr 4]
  shape := ![.attr 0, .attr 8]
  order := none

theorem sideBySide_incorrect : SideBySideStart emptyEnv alternatingTile 0 2 ∧
    ∃ block1 block2, rewriteSplitPtr emptyEnv alternatingTile = .ok (.sideBySide block1 block2) ∧
      ¬ SideBySideLoads emptyEnv alternatingTile 0 2 block1 block2 2 4 (fun a => a) fun _ => 0 := by
  refine ⟨⟨by decide, by decide, by decide, by decide⟩, _, _, rfl, fun h => ?_⟩
  have hload := h ![0, 2] (by decide) (by decide)
  revert hload
  decide

end TritonCpu.StructuredToMemref
