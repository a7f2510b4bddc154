import Mathlib
import TritonCpu.TensorPtr

/-!
# Wraparound pointers

A pointer with a modulo in one dimension is split into two blocks: the part
before the modulo boundary and the part after it. A load copies both blocks
into one buffer.
-/

set_option autoImplicit false

namespace TritonCpu.StructuredToMemref
open TritonIR OpFoldResult MemRef

theorem neZero_one : NeZero 1 := ⟨Nat.one_ne_zero⟩

theorem neZero_two : NeZero 2 := ⟨two_ne_zero⟩

attribute [local instance] neZero_one neZero_two

variable {α : Type}

/-- The two blocks, under the attribute of their cast. -/
inductive SplitPtr : ℕ → Type where
  | wrap1D (block1 block2 : View 1) : SplitPtr 1
  | sideBySide (block1 block2 : View 2) : SplitPtr 2
  | stacked (block1 block2 : View 2) : SplitPtr 2

def ceilDiv (lhs rhs : ℤ) : ℤ := (lhs - 1).tdiv rhs + 1

def create1DCastOps (ρ : Env) (op : MakeTensorPtrOp 1) : View 1 × View 1 :=
  let targetOffset := accumulateTargetOffset ρ op.offsets
  let rowSize : ℤ := op.sizes 0
  let stride := (op.strides 0).eval ρ
  let modSize := (op.shape 0).eval ρ
  let wrappedAroundOff := targetOffset.tmod modSize
  let remainingSpan := modSize - wrappedAroundOff
  let modCount := ceilDiv modSize stride
  let d1 := min (ceilDiv remainingSpan stride) rowSize
  let d2 := rowSize - d1
  let d2Clamped := min d2 modCount
  (⟨wrappedAroundOff, ![d1], ![stride]⟩, ⟨0, ![d2Clamped], ![stride]⟩)

def createSideBySideCastOps (ρ : Env) (op : MakeTensorPtrOp 2) : View 2 × View 2 :=
  let targetOffset := accumulateTargetOffset ρ op.offsets
  let rowSize : ℤ := op.sizes 0
  let colSize : ℤ := op.sizes 1
  let modN := (op.shape 1).eval ρ
  let x := targetOffset.tmod modN
  let y := targetOffset - x
  let strideVals := evals ρ op.strides
  let nextOffset := x + colSize
  let clampedOffset := min nextOffset modN
  let d1 := clampedOffset - x
  -- at most `modN` columns, for blocks that wrap more than once
  let d2 := colSize - d1
  let d2Clamped := min d2 modN
  (⟨targetOffset, ![rowSize, d1], strideVals⟩, ⟨y, ![rowSize, d2Clamped], strideVals⟩)

def createStackedCastOps (ρ : Env) (op : MakeTensorPtrOp 2) : View 2 × View 2 :=
  let targetOffset := accumulateTargetOffset ρ op.offsets
  let rowSize : ℤ := op.sizes 0
  let colSize : ℤ := op.sizes 1
  let strideRow := (op.strides 0).eval ρ
  let strideCol := (op.strides 1).eval ρ
  let modRow := (op.shape 0).eval ρ
  let wrappedAroundOff := targetOffset.tmod strideRow
  let clampedOff := modRow + wrappedAroundOff
  -- a block that does not wrap around has no more rows than the tile
  let d1 := min ((clampedOff - targetOffset).tdiv strideRow) rowSize
  let modRowCount := modRow.tdiv strideRow
  let d2 := rowSize - d1
  let d2Clamped := min d2 modRowCount
  (⟨targetOffset, ![d1, colSize], ![strideRow, strideCol]⟩,
    ⟨wrappedAroundOff, ![d2Clamped, colSize], ![strideRow, strideCol]⟩)

def isSplitDimension (dim : OFR) : Bool := getIntAttr dim ≠ some 0

def rewriteSplitPtr (ρ : Env) : {rank : ℕ} → MakeTensorPtrOp rank → Except Stop (SplitPtr rank)
  | 1, op =>
    if !isSplitDimension (op.shape 0) then .error (.failure "unexpected split pointer shape")
    else if getIntAttr (op.strides 0) ≠ some 1 then
      .error (.failure "1D split pointer lowering only supports unit stride")
    else .ok (.wrap1D (create1DCastOps ρ op).1 (create1DCastOps ρ op).2)
  | 2, op =>
    if isSplitDimension (op.shape 0) then
      if isSplitDimension (op.shape 1) then .error (.assertion "parentShape[1] == 0")
      else .ok (.stacked (createStackedCastOps ρ op).1 (createStackedCastOps ρ op).2)
    else if isSplitDimension (op.shape 1) then
      .ok (.sideBySide (createSideBySideCastOps ρ op).1 (createSideBySideCastOps ρ op).2)
    else .error (.assertion "Unexpected split pointer shape")
  | _, _ =>
    .error (.failure "split pointer lowering only supports 1D or 2D tensor pointers")

def create1DCopies (base : Memory α) (block1 block2 dst : View 1) (totalElems : ℤ) :
    List (Write α) :=
  let block1Elems := block1.sizes 0
  let block2Elems := block2.sizes 0
  let d1 := min block1Elems totalElems
  let d2 := totalElems - d1
  copy base (block1.subview ![0] ![d1] ![1]) (dst.subview ![0] ![d1] ![1]) ++
    forLoop 0 d2 (max block2Elems 1) fun iv =>
      let thisChunk := min block2Elems (d2 - iv)
      copy base (block2.subview ![0] ![thisChunk] ![1]) (dst.subview ![d1 + iv] ![thisChunk] ![1])

def createSideBySideCopies (base : Memory α) (block1 block2 dst : View 2)
    (totalRows totalCols : ℤ) : List (Write α) :=
  let block1Col := block1.sizes 1
  let block2Col := block2.sizes 1
  let d1 := min block1Col totalCols
  let d2 := totalCols - d1
  copy base (block1.subview ![0, 0] ![totalRows, d1] ![1, 1])
      (dst.subview ![0, 0] ![totalRows, d1] ![1, 1]) ++
    forLoop 0 d2 block2Col fun iv =>
      let thisChunk := min block2Col (d2 - iv)
      copy base (block2.subview ![0, 0] ![totalRows, thisChunk] ![1, 1])
        (dst.subview ![0, d1 + iv] ![totalRows, thisChunk] ![1, 1])

def createStackedCopies (base : Memory α) (block1 block2 dst : View 2) : List (Write α) :=
  let block1Row := block1.sizes 0
  let block1Col := block1.sizes 1
  let block2Row := block2.sizes 0
  let block2Col := block2.sizes 1
  copy base block1 (dst.subview ![0, 0] ![block1Row, block1Col] ![1, 1]) ++
    copy base block2 (dst.subview ![block1Row, 0] ![block2Row, block2Col] ![1, 1])

/-! Views of two dimensions. -/

theorem address_two (v : View 2) (i : Index 2) :
    v.address i = v.offset + (i 0 * v.strides 0 + i 1 * v.strides 1) := by
  rw [View.address, Fin.sum_univ_two]

theorem strided_address (offset a b : ℤ) (sizes : Fin 2 → ℤ) (i : Index 2) :
    View.address ⟨offset, sizes, ![a, b]⟩ i = offset + (i 0 * a + i 1 * b) := address_two _ i

theorem subview_address_two (v : View 2) (a b : ℤ) (sizes : Fin 2 → ℤ) (i : Index 2) :
    (v.subview ![a, b] sizes ![1, 1]).address i =
      v.offset + ((a + i 0) * v.strides 0 + (b + i 1) * v.strides 1) := by
  simp [View.subview_address, Fin.sum_univ_two]

theorem inBounds_two {v : View 2} {i : Index 2} :
    v.InBounds i ↔ (i 0 : ℤ) < v.sizes 0 ∧ (i 1 : ℤ) < v.sizes 1 := Fin.forall_fin_two

theorem subview_origin_address (v : View 2) (sizes : Fin 2 → ℤ) (i : Index 2) :
    (v.subview ![0, 0] sizes ![1, 1]).address i = v.address i := by
  rw [subview_address_two, address_two, zero_add, zero_add]

theorem eta_two (i : Index 2) : ![i 0, i 1] = i := funext (Fin.forall_fin_two.mpr ⟨rfl, rfl⟩)

theorem alloc_subview_address (shape : Fin 2 → ℕ) (a b : ℕ) (sizes : Fin 2 → ℤ) (i : Index 2) :
    ((alloc shape).subview ![(a : ℤ), b] sizes ![1, 1]).address i =
      position shape ![a + i 0, b + i 1] := by
  rw [subview_address_two, position, Fin.sum_univ_two]
  simp [alloc]

theorem mem_copy_alloc {base : Memory α} {src : View 2} {shape : Fin 2 → ℕ} {a b n m : ℕ}
    {w : Write α} : w ∈ copy base src ((alloc shape).subview ![(a : ℤ), b] ![(n : ℤ), m] ![1, 1]) ↔
      ∃ i : Index 2, i 0 < n ∧ i 1 < m ∧
        ⟨position shape ![a + i 0, b + i 1], base (src.address i)⟩ = w := by
  simp only [mem_copy, inBounds_two, alloc_subview_address, View.subview_sizes,
    Matrix.cons_val_zero, Matrix.cons_val_one, Nat.cast_lt, and_assoc]

section Copies

variable {base : Memory α} {block1 block2 : View 2} {shape : Fin 2 → ℕ} {w : Write α}

theorem mem_createStackedCopies {n1 n2 col : ℕ} (h1 : block1.sizes = ![(n1 : ℤ), col])
    (h2 : block2.sizes = ![(n2 : ℤ), col]) :
    w ∈ createStackedCopies base block1 block2 (alloc shape) ↔
      ∃ i : Index 2, i 0 < n1 + n2 ∧ i 1 < col ∧ ⟨position shape i, base
        (if i 0 < n1 then block1.address i else block2.address ![i 0 - n1, i 1])⟩ = w := by
  have hfirst : w ∈ copy base block1 ((alloc shape).subview ![0, 0] ![(n1 : ℤ), col] ![1, 1]) ↔
      ∃ i : Index 2, i 0 < n1 ∧ i 1 < col ∧
        ⟨position shape ![0 + i 0, 0 + i 1], base (block1.address i)⟩ = w :=
    mem_copy_alloc (a := 0) (b := 0)
  have hsecond : w ∈ copy base block2
      ((alloc shape).subview ![(n1 : ℤ), 0] ![(n2 : ℤ), col] ![1, 1]) ↔
      ∃ i : Index 2, i 0 < n2 ∧ i 1 < col ∧
        ⟨position shape ![n1 + i 0, 0 + i 1], base (block2.address i)⟩ = w :=
    mem_copy_alloc (b := 0)
  simp only [createStackedCopies, h1, h2, Matrix.cons_val_zero, Matrix.cons_val_one,
    List.mem_append, hfirst, hsecond, zero_add]
  constructor
  · rintro (⟨i, hi0, hi1, rfl⟩ | ⟨i, hi0, hi1, rfl⟩)
    · exact ⟨i, by omega, hi1, by rw [if_pos hi0, eta_two]⟩
    · refine ⟨![n1 + i 0, i 1], by simpa using hi0, hi1, ?_⟩
      simp [eta_two]
  · rintro ⟨i, hi0, hi1, rfl⟩
    by_cases hlt : i 0 < n1
    · exact Or.inl ⟨i, hlt, hi1, by rw [if_pos hlt, eta_two]⟩
    · have hrow : n1 + (i 0 - n1) = i 0 := by omega
      refine Or.inr ⟨![i 0 - n1, i 1], ?_, hi1, ?_⟩
      · show i 0 - n1 < n2
        omega
      · rw [if_neg hlt]
        simp [hrow, eta_two]

theorem mem_chunk {a rows n : ℕ} :
    w ∈ copy base (block2.subview ![0, 0] ![(rows : ℤ), n] ![1, 1])
        ((alloc shape).subview ![0, (a : ℤ)] ![(rows : ℤ), n] ![1, 1]) ↔
      ∃ i : Index 2, i 0 < rows ∧ i 1 < n ∧
        ⟨position shape ![i 0, a + i 1], base (block2.address i)⟩ = w := by
  have hcopy : w ∈ copy base (block2.subview ![0, 0] ![(rows : ℤ), n] ![1, 1])
        ((alloc shape).subview ![((0 : ℕ) : ℤ), a] ![(rows : ℤ), n] ![1, 1]) ↔
      ∃ i : Index 2, i 0 < rows ∧ i 1 < n ∧ ⟨position shape ![0 + i 0, a + i 1],
        base ((block2.subview ![0, 0] ![(rows : ℤ), n] ![1, 1]).address i)⟩ = w := mem_copy_alloc
  simpa only [subview_origin_address, zero_add, Nat.cast_zero] using hcopy

theorem mem_repeatedBlock {n1 n2 rows d2 : ℕ} (h2 : 0 < n2) :
    w ∈ forLoop 0 (d2 : ℤ) n2 (fun iv =>
        copy base (block2.subview ![0, 0] ![(rows : ℤ), min n2 (d2 - iv)] ![1, 1])
          ((alloc shape).subview ![0, n1 + iv] ![(rows : ℤ), min n2 (d2 - iv)] ![1, 1])) ↔
      ∃ i : Index 2, i 0 < rows ∧ i 1 < d2 ∧
        ⟨position shape ![i 0, n1 + i 1], base (block2.address ![i 0, i 1 % n2])⟩ = w := by
  have hbody (m : ℕ) (w : Write α) (hm : m < d2) :
      w ∈ copy base (block2.subview ![0, 0] ![(rows : ℤ), min n2 (d2 - m)] ![1, 1])
          ((alloc shape).subview ![0, n1 + m] ![(rows : ℤ), min n2 (d2 - m)] ![1, 1]) ↔
        ∃ j < min n2 (d2 - m), ∃ r < rows,
          ⟨position shape ![r, n1 + (m + j)], base (block2.address ![r, j])⟩ = w := by
    have hchunk : min (n2 : ℤ) (d2 - m) = (min n2 (d2 - m) : ℕ) := by omega
    rw [hchunk, ← Int.natCast_add, mem_chunk]
    constructor
    · rintro ⟨i, hi0, hi1, rfl⟩
      exact ⟨i 1, hi1, i 0, hi0, by rw [← add_assoc, eta_two]⟩
    · rintro ⟨j, hj, r, hr, rfl⟩
      exact ⟨![r, j], hr, hj, by simp [add_assoc]⟩
  rw [mem_forLoop_chunks (P := fun p j w => ∃ r < rows,
    ⟨position shape ![r, n1 + p], base (block2.address ![r, j])⟩ = w)
    (fun _ => h2) (fun _ => rfl) hbody (Int.natCast_nonneg n2)]
  constructor
  · rintro ⟨p, hp, r, hr, rfl⟩
    exact ⟨![r, p], hr, hp, rfl⟩
  · rintro ⟨i, hi0, hi1, rfl⟩
    exact ⟨i 1, hi1, i 0, hi0, rfl⟩

theorem columns_split (n m : ℕ) :
    min (n : ℤ) m = (min n m : ℕ) ∧ (m : ℤ) - (min n m : ℕ) = (m - n : ℕ) := by omega

theorem mem_createSideBySideCopies {n1 n2 rows cols : ℕ} (h1 : block1.sizes 1 = n1)
    (h2 : block2.sizes 1 = n2) (hn2 : n1 < cols → 0 < n2) :
    w ∈ createSideBySideCopies base block1 block2 (alloc shape) rows cols ↔
      ∃ i : Index 2, i 0 < rows ∧ i 1 < cols ∧ ⟨position shape i, base
        (if i 1 < n1 then block1.address i else block2.address ![i 0, (i 1 - n1) % n2])⟩ = w := by
  have hfirst : w ∈ copy base (block1.subview ![0, 0] ![(rows : ℤ), (min n1 cols : ℕ)] ![1, 1])
        ((alloc shape).subview ![0, 0] ![(rows : ℤ), (min n1 cols : ℕ)] ![1, 1]) ↔
      ∃ i : Index 2, i 0 < rows ∧ i 1 < min n1 cols ∧
        ⟨position shape ![i 0, 0 + i 1], base (block1.address i)⟩ = w := mem_chunk (a := 0)
  simp only [createSideBySideCopies, h1, h2, (columns_split n1 cols).1,
    (columns_split n1 cols).2, List.mem_append, hfirst, zero_add]
  by_cases hwrap : n1 < cols
  · have hmin : min n1 cols = n1 := by omega
    rw [hmin, mem_repeatedBlock (hn2 hwrap)]
    constructor
    · rintro (⟨i, hi0, hi1, rfl⟩ | ⟨i, hi0, hi1, rfl⟩)
      · exact ⟨i, hi0, by omega, by rw [if_pos hi1, eta_two]⟩
      · refine ⟨![i 0, n1 + i 1], hi0, ?_, ?_⟩
        · show n1 + i 1 < cols
          omega
        · simp
    · rintro ⟨i, hi0, hi1, rfl⟩
      by_cases hlt : i 1 < n1
      · exact Or.inl ⟨i, hi0, hlt, by rw [if_pos hlt, eta_two]⟩
      · have hcol : n1 + (i 1 - n1) = i 1 := by omega
        refine Or.inr ⟨![i 0, i 1 - n1], hi0, ?_, ?_⟩
        · show i 1 - n1 < cols - n1
          omega
        · rw [if_neg hlt]
          simp [hcol, eta_two]
  · have hmin : min n1 cols = cols := by omega
    have hzero : ((cols - n1 : ℕ) : ℤ) ≤ 0 := by omega
    rw [forLoop_empty (Int.natCast_nonneg n2) hzero, hmin]
    simp only [List.not_mem_nil, or_false, eta_two]
    refine exists_congr fun i => and_congr_right fun _ => and_congr_right fun hi => ?_
    rw [if_pos (by omega)]

end Copies

end TritonCpu.StructuredToMemref
