import TritonCpu.BlockedLayout
import TritonCpu.LayoutCompose

/-!
# Slice encodings

A slice encoding is its parent encoding with one dimension of the tensor taken
away. Its layout is made from the layout of the parent. How many elements a
thread holds is computed by other code, which the layout then has to match.
-/

set_option autoImplicit false

namespace TritonCpu

open LinearLayout

/-- The arithmetic of `unsigned`. -/
def unsigned (x : ℕ) : ℕ := x % 2 ^ 32

/-- What a slice encoding asks of its parent. There is no layout for some of the
encodings, and no count of elements for others. -/
structure DistributedEncoding where
  isDotOperand : Bool
  toLinearLayout : List ℕ → Except LayoutError (Option LinearLayout)
  getElemsPerThread : List ℕ → Except LayoutError (List ℕ)

def product32 (arr : List ℕ) : ℕ := unsigned arr.prod

section Blocked

/-- `getShapePerCTA` at one dimension. -/
def shapePerCTAOf (CTASplitNum shape : List ℕ) (i : ℕ) : Except LayoutError ℕ := do
  let size ← elementAt shape i
  let splitNum := min (unsigned size) (← elementAt CTASplitNum i)
  if splitNum = 0 then .error .undefined else pure (size / splitNum)

def ceil32 (m n : ℕ) : Except LayoutError ℕ :=
  if n = 0 then .error .undefined else .ok (unsigned (m + n - 1) / n)

namespace BlockedEncodingAttr

variable (enc : BlockedEncodingAttr)

/-- One turn of the loop of `getElemsPerThread`. -/
def elemsAt (shape : List ℕ) (i : ℕ) : Except LayoutError ℕ := do
  let shapePerCTA ← shapePerCTAOf enc.CTALayout.CTASplitNum shape i
  let sizePerThread ← elementAt enc.sizePerThread i
  let t := unsigned (sizePerThread * (← elementAt enc.threadsPerWarp i) *
    (← elementAt enc.warpsPerCTA i))
  pure (unsigned ((← ceil32 (unsigned shapePerCTA) t) * sizePerThread))

def getElemsPerThread (shape : List ℕ) : Except LayoutError (List ℕ) := do
  assertThat "rank == sizePerThread.size()" (shape.length == enc.sizePerThread.length)
  (List.range shape.length).mapM (enc.elemsAt shape)

def distributed (f2 : F2Reduce) : DistributedEncoding where
  isDotOperand := false
  toLinearLayout shape := do pure (some (← enc.toLinearLayout f2 shape))
  getElemsPerThread := enc.getElemsPerThread

end BlockedEncodingAttr

end Blocked

section Dot

structure NvidiaMmaEncodingAttr where
  versionMajor : ℕ
  warpsPerCTA : List ℕ
  CTALayout : CTALayoutAttr
  instrShape : List ℕ
  deriving DecidableEq, Repr

def NvidiaMmaEncodingAttr.isAmpere (mma : NvidiaMmaEncodingAttr) : Bool := mma.versionMajor == 2

/-- An operand of a dot whose parent is an encoding of NVIDIA. -/
structure DotOperandEncodingAttr where
  opIdx : ℕ
  parent : NvidiaMmaEncodingAttr
  kWidth : ℕ
  deriving DecidableEq, Repr

namespace DotOperandEncodingAttr

variable (f2 : F2Reduce) (dot : DotOperandEncodingAttr)

def getWarpsPerCTA : List ℕ :=
  let rank := dot.parent.warpsPerCTA.length
  dot.parent.warpsPerCTA.set (if dot.opIdx = 0 then rank - 1 else rank - 2) 1

/-- The bases of the registers and of the lanes, for the first operand. -/
def ampereBases : List (List ℕ) × List (List ℕ) :=
  let powersOf2 : List ℕ := ((List.range 31).map (2 ^ ·)).takeWhile (· < dot.kWidth)
  let i := 2 ^ powersOf2.length
  let tiles := (if dot.opIdx = 0 then [[0, 8]] else []) ++ [[4 * i, 0]]
  (powersOf2.map (fun i => [i, 0]) ++ tiles, [[i, 0], [2 * i, 0], [0, 1], [0, 2], [0, 4]])

def ampereCtaLayout (dimNames : List String) : Except LayoutError LinearLayout := do
  let swap (bases : List (List ℕ)) := if dot.opIdx = 0 then bases else bases.map List.reverse
  let ctaLayout ← createInferred f2 (makeBasesMap
    [("register", swap dot.ampereBases.1), ("lane", swap dot.ampereBases.2)])
    (dimNames.drop (dimNames.length - 2)).reverse
  let order := dot.parent.CTALayout.CTAOrder
  assertThat "order[0] == 1 && order[1] == 0" (order.take 2 == [1, 0])
  mul f2 ctaLayout (← identityND f2 "warp" dot.getWarpsPerCTA order dimNames)

def ampereDotToLinearLayout (shape : List ℕ) : Except LayoutError LinearLayout := do
  let rank := shape.length
  assertThat "mma.isAmpere()" dot.parent.isAmpere
  assertThat "mma.getInstrShape()" ((rank == 2 && dot.parent.instrShape == [16, 8]) ||
    (rank == 3 && dot.parent.instrShape == [1, 16, 8]))
  let ctaLayout ← dot.ampereCtaLayout f2 (standardOutDimNames rank)
  combineCtaCgaWithShape f2 ctaLayout dot.parent.CTALayout shape

def toLinearLayout (shape : List ℕ) : Except LayoutError (Option LinearLayout) :=
  if dot.parent.isAmpere && dot.kWidth == 8 then do
    pure (some (← dot.ampereDotToLinearLayout f2 shape))
  else pure none

/-- Only the operands of `mfma` have a count for each dimension. -/
def getElemsPerThread (_ : DotOperandEncodingAttr) (_ : List ℕ) : Except LayoutError (List ℕ) :=
  .error (.assertion "getElemsPerThread is not supported for dot operand")

def distributed : DistributedEncoding where
  isDotOperand := true
  toLinearLayout := dot.toLinearLayout f2
  getElemsPerThread := dot.getElemsPerThread

end DotOperandEncodingAttr

end Dot

structure SliceEncodingAttr where
  dim : ℕ
  parent : DistributedEncoding

namespace SliceEncodingAttr

variable (f2 : F2Reduce) (slice : SliceEncodingAttr)

def paddedShape (shape : List ℕ) : Except LayoutError (List ℕ) :=
  (List.range (shape.length + 1)).mapM fun d =>
    if d < slice.dim then elementAt shape d
    else if d = slice.dim then .ok 1
    else elementAt shape (d - 1)

/-- `parentShape.insert(parentShape.begin() + getDim(), 1)` -/
def parentShape (shape : List ℕ) : Except LayoutError (List ℕ) :=
  if slice.dim ≤ shape.length then .ok (shape.insertIdx slice.dim 1) else .error .undefined

def getElemsPerThread (shape : List ℕ) : Except LayoutError (List ℕ) := do
  let parentElemsPerThread ← slice.parent.getElemsPerThread (← slice.paddedShape shape)
  if slice.dim < parentElemsPerThread.length then pure (parentElemsPerThread.eraseIdx slice.dim)
  else .error .undefined

def getTotalElemsPerThread (shape : List ℕ) : Except LayoutError ℕ := do
  pure (product32 (← slice.getElemsPerThread shape))

/-- What one turn of the loop that builds `transform` multiplies by. -/
def outDimFactor (parentLL : LinearLayout) (outDimNames : List String) (outDim : String × ℕ) :
    Except LayoutError LinearLayout :=
  let idx := outDim.2
  if idx = slice.dim then do
    zeros1D f2 (parentLL.getOutDimSize outDim.1) outDim.1 (← elementAt outDimNames 0)
  else do
    identity1D f2 (parentLL.getOutDimSize outDim.1) outDim.1
      (← elementAt outDimNames (idx - if idx < slice.dim then 0 else 1))

def removeOutDim (parentLL : LinearLayout) (outDimNames : List String) (transform : LinearLayout)
    (outDim : String × ℕ) : Except LayoutError LinearLayout := do
  mul f2 transform (← slice.outDimFactor f2 parentLL outDimNames outDim)

/-- The layout from the dimensions of the parent to those of the slice. -/
def transform (parentLL : LinearLayout) (outDimNames : List String) :
    Except LayoutError LinearLayout := do
  parentLL.getOutDimNames.zipIdx.foldlM (slice.removeOutDim f2 parentLL outDimNames) (← empty f2)

end SliceEncodingAttr

section Registers

variable (f2 : F2Reduce)

def live (basis : List ℕ) : Bool := basis.any (· ≠ 0)

def dropZeroRegisters (sliceLL : LinearLayout) : Except LayoutError LinearLayout :=
  createInferred f2 (sliceLL.bases.modify "register" fun old => (old.getD []).filter live)
    sliceLL.getOutDimNames

/-- Registers whose bases are zero are added until there are as many as wanted. -/
def padRegisters (ret : LinearLayout) (expectedNumRegisters : ℤ) :
    Except LayoutError LinearLayout := do
  let size ← ret.getInDimSize "register"
  if (size : ℤ) ≠ expectedNumRegisters then
    mul f2 ret (← zeros1D f2 (expectedNumRegisters.tdiv size) "register" "dim0")
  else pure ret

end Registers

def SliceEncodingAttr.toLinearLayout (f2 : F2Reduce) (slice : SliceEncodingAttr)
    (shape : List ℕ) : Except LayoutError (Option LinearLayout) := do
  match ← slice.parent.toLinearLayout (← slice.parentShape shape) with
  | none =>
    if slice.parent.isDotOperand then pure none
    else .error (.fatal "Failed to compute parent layout for slice layout.")
  | some parentLL => do
    let outDimNames := standardOutDimNames (shape.length + 1)
    let transform ← slice.transform f2 parentLL outDimNames
    let sliceLL ← parentLL.compose f2 transform
    let ret ← dropZeroRegisters f2 sliceLL
    let expectedNumRegisters := int32 (← slice.getTotalElemsPerThread shape)
    pure (some (← padRegisters f2 ret expectedNumRegisters))

def SliceEncodingAttr.distributed (f2 : F2Reduce) (slice : SliceEncodingAttr) :
    DistributedEncoding where
  isDotOperand := false
  toLinearLayout := slice.toLinearLayout f2
  getElemsPerThread := slice.getElemsPerThread

end TritonCpu
