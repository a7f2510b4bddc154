import TritonCpu.VectorRewriter
import Mathlib.Data.Multiset.Bind

/-!
# Outer reductions and transposes in SVE-width chunks

The four patterns of `LowerOuterReductionSVE`. A reduction along dimension zero, and the
reduction of a row of a transpose, gather one column from slices of as many rows as an SVE
vector has lanes. A long transpose is cut into native transposes, and a native transpose
becomes an interleave or a deinterleave.
-/

set_option autoImplicit false

namespace TritonCpu.OuterReductionSVE
open TritonIR hiding ElementType
open FlatTensor Reassociation VectorIR VectorIR.Block VectorRewriter

variable {K α : Type}

/-! The lanes. -/

/-- `undefined` is a division by zero or an overflow of a 64-bit product. -/
inductive Outcome (β : Type) where
  | failure
  | undefined
  | replaced (result : β)

/-- `(128 * vscale) / elementBits`. -/
def nativeLanes (vscale : ℤ) (elementBits : ℕ) : Option ℤ :=
  if -2 ^ 63 ≤ 128 * vscale ∧ 128 * vscale < 2 ^ 63 ∧ elementBits ≠ 0 then
    some ((128 * vscale).tdiv elementBits)
  else none

def reductionLanes (vscale : ℤ) (rows elementBits : ℕ) : Outcome ℕ :=
  match nativeLanes vscale elementBits with
  | none => .undefined
  | some sveLanes =>
    if vscale < 1 ∨ sveLanes < 1 ∨ sveLanes > rows ∨ (rows : ℤ).tmod sveLanes ≠ 0 then .failure
    else .replaced sveLanes.toNat

/-- `short == 2 && long > sveLanes && long % sveLanes == 0`; `none` divides by zero. -/
def isChunked (long short : ℕ) (sveLanes : ℤ) : Option Bool :=
  if short = 2 ∧ (long : ℤ) > sveLanes then
    if sveLanes = 0 then none else some ((long : ℤ).tmod sveLanes = 0)
  else some false

/-- The values of `for (x = 0; x < n; x += step)`. -/
def offsets (n step : ℕ) : List ℕ := (List.range ((n + step - 1) / step)).map (· * step)

/-! What the patterns match, up to the lanes. -/

structure ColumnReduction (K : Type) where
  kind : K
  source : ℕ
  rows : ℕ
  columns : ℕ
  elementBits : ℕ

structure NativeTranspose where
  vector : ℕ
  rows : ℕ
  columns : ℕ
  elementBits : ℕ

def matchOuterReduction (defs : Block K α) : Op K α → Option (ColumnReduction K × ℕ)
  | .multiReduction kind source acc mask dims =>
    let sourceType := types defs source
    let destType := types defs acc
    if sourceType.shape.length ≠ 2 ∨ destType.shape.length ≠ 1 ∨ sourceType.scalable ∨
        destType.scalable then none
    else if dimSize destType.shape 0 ≠ dimSize sourceType.shape 1 ∨ dims.length ≠ 1 ∨
        dims.headD 0 ≠ 0 then none
    else if mask.isSome then none
    else match sourceType.elementType with
      | .index => none
      | .intOrFloat elementBits =>
        some (⟨kind, source, dimSize sourceType.shape 0, dimSize sourceType.shape 1, elementBits⟩,
          acc)
  | _ => none

def matchTransposedReduction (defs : Block K α) :
    Op K α → Option (ColumnReduction K × ℕ × Option ℕ)
  | .reduction kind vector acc mask =>
    if mask.isSome then none
    else match getDefiningOp defs vector with
      | some (.extract transposed [.static column]) =>
        match getDefiningOp defs transposed with
        | some (.transpose source permutation) =>
          let sourceType := types defs source
          let vectorType := types defs vector
          if permutation ≠ [1, 0] then none
          else if sourceType.shape.length ≠ 2 ∨ sourceType.scalable ∨ column < 0 ∨
              column ≥ dimSize sourceType.shape 1 ∨ vectorType.shape.length ≠ 1 ∨
              dimSize vectorType.shape 0 ≠ dimSize sourceType.shape 0 then none
          else match sourceType.elementType with
            | .index => none
            | .intOrFloat elementBits =>
              some (⟨kind, source, dimSize sourceType.shape 0, dimSize sourceType.shape 1,
                elementBits⟩, column.toNat, acc)
        | _ => none
      | _ => none
  | _ => none

def matchTranspose (defs : Block K α) : Op K α → Option NativeTranspose
  | .transpose vector permutation =>
    let sourceType := types defs vector
    if sourceType.shape.length ≠ 2 ∨ sourceType.scalable ∨ permutation ≠ [1, 0] then none
    else match sourceType.elementType with
      | .index => none
      | .intOrFloat elementBits =>
        some ⟨vector, dimSize sourceType.shape 0, dimSize sourceType.shape 1, elementBits⟩
  | _ => none

/-! The operations they create. -/

def shuffleMask (sveLanes columns column : ℕ) : List ℕ :=
  (List.range sveLanes).map fun lane => lane * columns + column

namespace ColumnReduction

variable (m : ColumnReduction K) (sveLanes : ℕ)

/-- The rows from `row` on, in one dimension. -/
def flatSlice (rw : Rewriter K α) (row : ℕ) : Rewriter K α × ℕ :=
  let (rw, slice) :=
    rw.create (.extractStridedSlice m.source [row, 0] [sveLanes, m.columns] [1, 1])
  rw.create (.shapeCast ⟨[sveLanes * m.columns], false, .intOrFloat m.elementBits⟩ slice)

/-- One column of a slice, combined with the accumulator when there is one. -/
def gatherColumn (flat column : ℕ) (rw : Rewriter K α) (accumulator : Option ℕ) :
    Rewriter K α × ℕ :=
  let (rw, columnVector) := rw.create (.shuffle flat flat (shuffleMask sveLanes m.columns column))
  match accumulator with
  | some accumulator => rw.create (.arithReduction m.kind columnVector accumulator)
  | none => (rw, columnVector)

def gatherColumns (s : Rewriter K α × (ℕ → Option ℕ)) (row : ℕ) :
    Rewriter K α × (ℕ → Option ℕ) :=
  let (rw, flat) := m.flatSlice sveLanes s.1 row
  (List.range m.columns).foldl (fun s column =>
    let (rw, accumulator) := m.gatherColumn sveLanes flat column s.1 (s.2 column)
    (rw, Function.update s.2 column (some accumulator))) (rw, s.2)

def reduceColumn (acc : ℕ) (columnAccumulators : ℕ → Option ℕ) (s : Rewriter K α × ℕ)
    (column : ℕ) : Rewriter K α × ℕ :=
  let (rw, scalarAcc) := s.1.create (.extract acc [.static column])
  let (rw, reduced) :=
    rw.create (.reduction m.kind ((columnAccumulators column).getD 0) (some scalarAcc) none)
  rw.create (.insert reduced s.2 column)

def lowerOuterReduction (acc : ℕ) (rw : Rewriter K α) : Rewriter K α × ℕ :=
  let s := (offsets m.rows sveLanes).foldl (m.gatherColumns sveLanes) (rw, fun _ => none)
  (List.range m.columns).foldl (m.reduceColumn acc s.2) (s.1, acc)

def gatherRow (column : ℕ) (s : Rewriter K α × Option ℕ) (row : ℕ) : Rewriter K α × Option ℕ :=
  let (rw, flat) := m.flatSlice sveLanes s.1 row
  let (rw, accumulator) := m.gatherColumn sveLanes flat column rw s.2
  (rw, some accumulator)

def fuseTransposeReduction (column : ℕ) (acc : Option ℕ) (rw : Rewriter K α) : Rewriter K α × ℕ :=
  let s := (offsets m.rows sveLanes).foldl (m.gatherRow sveLanes column) (rw, none)
  s.1.create (.reduction m.kind (s.2.getD 0) acc none)

end ColumnReduction

namespace NativeTranspose

variable (m : NativeTranspose)

def resultType : VectorType := ⟨[m.columns, m.rows], false, .intOrFloat m.elementBits⟩

def transposeChunk (rowsAreChunked : Bool) (sveLanes : ℕ) (s : Rewriter K α × ℕ) (offset : ℕ) :
    Rewriter K α × ℕ :=
  let (rw, slice) := s.1.create (.extractStridedSlice m.vector
    (if rowsAreChunked then [offset, 0] else [0, offset])
    (if rowsAreChunked then [sveLanes, 2] else [2, sveLanes]) [1, 1])
  let (rw, transposed) := rw.create (.transpose slice [1, 0])
  rw.create (.insertStridedSlice transposed s.2
    (if rowsAreChunked then [0, offset] else [offset, 0]) [1, 1])

def chunkTranspose (rowsAreChunked : Bool) (sveLanes : ℕ) (rw : Rewriter K α) :
    Rewriter K α × ℕ :=
  (offsets (if rowsAreChunked then m.rows else m.columns) sveLanes).foldl
    (m.transposeChunk rowsAreChunked sveLanes) (rw.create (.constant m.resultType))

def deinterleaveRows (sveLanes : ℕ) (rw : Rewriter K α) : Rewriter K α × ℕ :=
  let (rw, flat) :=
    rw.create (.shapeCast ⟨[2 * sveLanes], false, .intOrFloat m.elementBits⟩ m.vector)
  let (rw, res1) := rw.create (.deinterleaveRes1 flat)
  let (rw, res2) := rw.create (.deinterleaveRes2 flat)
  rw.create (.shuffle res1 res2 (List.range (2 * sveLanes)))

def interleaveRows (rw : Rewriter K α) : Rewriter K α × ℕ :=
  let (rw, row0) := rw.create (.extract m.vector [.static 0])
  let (rw, row1) := rw.create (.extract m.vector [.static 1])
  rw.create (.interleave row0 row1)

def lowerNativeTranspose (sveLanes : ℕ) (rw : Rewriter K α) : Rewriter K α × ℕ :=
  let (rw, flatResult) :=
    if m.rows = sveLanes then m.deinterleaveRows sveLanes rw else m.interleaveRows rw
  rw.create (.shapeCast m.resultType flatResult)

end NativeTranspose

/-! The patterns. -/

inductive Pattern where
  | lowerOuterReduction
  | fuseTransposeReduction
  | chunkTranspose
  | lowerNativeTranspose
  deriving DecidableEq

def lowerOuterReductionPattern (vscale : ℤ) (rw : Rewriter K α) (op : Op K α) :
    Outcome (Rewriter K α × ℕ) :=
  match matchOuterReduction rw.defs op with
  | none => .failure
  | some (m, acc) =>
    match reductionLanes vscale m.rows m.elementBits with
    | .failure => .failure
    | .undefined => .undefined
    | .replaced sveLanes => .replaced (m.lowerOuterReduction sveLanes acc rw)

def fuseTransposeReductionPattern (vscale : ℤ) (rw : Rewriter K α) (op : Op K α) :
    Outcome (Rewriter K α × ℕ) :=
  match matchTransposedReduction rw.defs op with
  | none => .failure
  | some (m, column, acc) =>
    match reductionLanes vscale m.rows m.elementBits with
    | .failure => .failure
    | .undefined => .undefined
    | .replaced sveLanes => .replaced (m.fuseTransposeReduction sveLanes column acc rw)

def chunkTransposePattern (vscale : ℤ) (rw : Rewriter K α) (op : Op K α) :
    Outcome (Rewriter K α × ℕ) :=
  match matchTranspose rw.defs op with
  | none => .failure
  | some m =>
    if vscale < 1 then .failure
    else match nativeLanes vscale m.elementBits with
      | none => .undefined
      | some sveLanes =>
        match isChunked m.rows m.columns sveLanes, isChunked m.columns m.rows sveLanes with
        | some rowsAreChunked, some columnsAreChunked =>
          if !rowsAreChunked && !columnsAreChunked then .failure
          else .replaced (m.chunkTranspose rowsAreChunked sveLanes.toNat rw)
        | _, _ => .undefined

def lowerNativeTransposePattern (vscale : ℤ) (rw : Rewriter K α) (op : Op K α) :
    Outcome (Rewriter K α × ℕ) :=
  match matchTranspose rw.defs op with
  | none => .failure
  | some m =>
    if vscale < 1 then .failure
    else match nativeLanes vscale m.elementBits with
      | none => .undefined
      | some sveLanes =>
        if ¬((m.rows : ℤ) = sveLanes ∧ m.columns = 2) ∧
            ¬(m.rows = 2 ∧ (m.columns : ℤ) = sveLanes) then .failure
        else .replaced (m.lowerNativeTranspose sveLanes.toNat rw)

def Pattern.matchAndRewrite : Pattern → ℤ → Rewriter K α → Op K α → Outcome (Rewriter K α × ℕ)
  | .lowerOuterReduction => lowerOuterReductionPattern
  | .fuseTransposeReduction => fuseTransposeReductionPattern
  | .chunkTranspose => chunkTransposePattern
  | .lowerNativeTranspose => lowerNativeTransposePattern

/-! What is left to rewrite. -/

def isExtract : Op K α → Bool
  | .extract _ _ => true
  | _ => false

/-- The shapes of `LowerNativeTranspose`. -/
def isNative (vscale : ℤ) (type : VectorType) : Bool :=
  match type.elementType with
  | .index => false
  | .intOrFloat elementBits => (nativeLanes vscale elementBits).any fun sveLanes =>
    (dimSize type.shape 0 : ℤ) = sveLanes && dimSize type.shape 1 = 2 ||
      dimSize type.shape 0 = 2 && (dimSize type.shape 1 : ℤ) = sveLanes

def weight (vscale : ℤ) (defs : Block K α) : Op K α → ℕ
  | .multiReduction _ _ _ _ _ => 1
  | .reduction _ vector _ _ =>
    if (getDefiningOp defs vector).any isExtract ∧ 0 < dimSize (types defs vector).shape 0 then 1
    else 0
  | .transpose vector _ =>
    if isNative vscale (types defs vector) then 1
    else 1 + dimSize (types defs vector).shape 0 * dimSize (types defs vector).shape 1
  | _ => 0

end TritonCpu.OuterReductionSVE
