import Mathlib.Algebra.Order.BigOperators.Group.List
import TritonCpu.BitFields
import TritonCpu.F2Reduce
import TritonCpu.MapVector

/-!
# Linear layouts

A layout maps the bits of its input coordinates to output coordinates: it holds
the output of every single input bit, and the other outputs are xors of these.
The constructor checks the bases and computes whether the layout is surjective.
-/

set_option autoImplicit false

namespace TritonCpu

open XorSpan BitFields List

/-- What stops the compiler: a fatal error, an assertion, or an operation C++
does not define. Names, sizes and printed layouts are left out of the texts. -/
inductive LayoutError where
  | fatal (text : String)
  | assertion (text : String)
  | undefined
  deriving DecidableEq, Repr

/-- `1 << n` on `int`. -/
def shiftOne (n : ℕ) : Except LayoutError ℕ :=
  if n < 31 then .ok (2 ^ n) else .error .undefined

def assertThat (text : String) (condition : Bool) : Except LayoutError Unit :=
  if condition then .ok () else .error (.assertion text)

def assertDimsEqualIgnoringOrder (a b : List String) : Except LayoutError Unit :=
  if a.all (b.contains ·) && b.all (a.contains ·) then .ok ()
  else .error (.fatal "Dimensions must match, ignoring order, but they don't.")

/-- The powers of two of type `int32_t`. -/
def isPowerOf2_32 (size : ℕ) : Bool := (List.range 31).any fun k => size == 2 ^ k

/-- `bases[inDim][i]` is the output of bit `i` of `inDim`. -/
abbrev BasesT := MapVector (List (List ℕ))

/-- A layout before its invariants are checked. -/
structure RawLayout where
  bases : BasesT
  outDims : MapVector ℕ
  deriving DecidableEq, Repr

namespace RawLayout

variable (L : RawLayout)

def getInDimNames : List String := L.bases.keys

def getOutDimNames : List String := L.outDims.keys

def getInDimSizeLog2 (inDim : String) : ℕ := ((L.bases.find inDim).getD []).length

def getOutDimSizeLog2 (outDim : String) : ℕ := Nat.log2 ((L.outDims.find outDim).getD 0)

def getInDimSize (inDim : String) : Except LayoutError ℕ := shiftOne (L.getInDimSizeLog2 inDim)

def getOutDimSize (outDim : String) : ℕ := 2 ^ L.getOutDimSizeLog2 outDim

def getTotalInDimSizeLog2 : ℕ := (L.getInDimNames.map L.getInDimSizeLog2).sum

def getTotalOutDimSizeLog2 : ℕ := (L.getOutDimNames.map L.getOutDimSizeLog2).sum

def getTotalInDimSize : Except LayoutError ℕ := shiftOne L.getTotalInDimSizeLog2

def getTotalOutDimSize : Except LayoutError ℕ := shiftOne L.getTotalOutDimSizeLog2

def getOutDimIndex (outDim : String) : ℕ := L.getOutDimNames.idxOf outDim

/-- `L(0, ..., inDim = 2^pos, ..., 0)` at `outDim`. -/
def getBasis (inDim : String) (pos : ℕ) (outDim : String) : ℕ :=
  (((L.bases.find inDim).getD []).getD pos []).getD (L.getOutDimIndex outDim) 0

/-- One row for each bit of the output, one column for each bit of the input. -/
def getMatrix : List ℕ :=
  L.getOutDimNames.flatMap fun outDim =>
    (List.range (L.getOutDimSizeLog2 outDim)).map fun j =>
      maskOf (L.getInDimNames.flatMap fun inDim =>
        (List.range (L.getInDimSizeLog2 inDim)).map fun i => (L.getBasis inDim i outDim).testBit j)

/-- The bases that one coordinate of the input selects, at `outDim`. -/
def applyCoordinate (outDim : String) (outVal : ℕ) (input : String × ℕ) : Except LayoutError ℕ :=
  (List.range (L.getInDimSizeLog2 input.1)).foldlM (fun outVal i => do
    let bit ← shiftOne i
    pure (if input.2 &&& bit ≠ 0 then outVal ^^^ L.getBasis input.1 i outDim else outVal)) outVal

def apply (ins : List (String × ℕ)) : Except LayoutError (List (String × ℕ)) := do
  assertDimsEqualIgnoringOrder (ins.map Prod.fst) L.getInDimNames
  L.getOutDimNames.mapM fun outDim => do
    let outVal ← ins.foldlM (L.applyCoordinate outDim) 0
    pure (outDim, outVal)

def flatBases : List (List ℕ) := L.bases.values.flatten

def inWidths : List ℕ := L.bases.values.map List.length

def outWidths : List ℕ := L.outDims.values.map Nat.log2

/-- The bases with their output coordinates packed into one number. -/
def flatColumns : List ℕ := L.flatBases.map (pack L.outWidths)

def column (outDim : String) : List ℕ := L.flatBases.map fun b => b.getD (L.getOutDimIndex outDim) 0

end RawLayout

def getMatrixRank (f2 : F2Reduce) (m : List ℕ) (numCols : ℕ) : ℕ :=
  if numCols = 0 then 0 else ((f2.inplaceRrefStrided m numCols).filter (· ≠ 0)).length

/-- A layout that has passed the checks of its constructor. -/
structure LinearLayout extends RawLayout where
  surjective : Bool
  size_pow : ∀ size ∈ outDims.values, isPowerOf2_32 size = true
  basis_lt : ∀ basis ∈ toRawLayout.flatBases, List.Forall₂ (· < ·) basis outDims.values
  numCols_le : toRawLayout.getTotalInDimSizeLog2 ≤ 64
  numRows_le : toRawLayout.getTotalOutDimSizeLog2 ≤ 64
  surjective_iff : surjective = true ↔
    Onto toRawLayout.getTotalOutDimSizeLog2 toRawLayout.flatColumns

theorem isPowerOf2_32_iff {size : ℕ} : isPowerOf2_32 size = true ↔ ∃ k < 31, size = 2 ^ k := by
  simp [isPowerOf2_32]

section Widths

theorem shiftOne_ok {n : ℕ} (h : n < 31) : shiftOne n = .ok (2 ^ n) := by
  rw [shiftOne, if_pos h]

theorem shiftOne_eq_ok {n y : ℕ} (h : shiftOne n = .ok y) : n < 31 ∧ y = 2 ^ n := by
  rw [shiftOne] at h
  split_ifs at h with hn
  exact ⟨hn, (Except.ok.inj h).symm⟩

variable (L : RawLayout)

theorem getInDimSizeLog2_of_mem {inDim : String} {bs : List (List ℕ)}
    (h : (inDim, bs) ∈ L.bases.entries) : L.getInDimSizeLog2 inDim = bs.length := by
  rw [RawLayout.getInDimSizeLog2, MapVector.find_of_mem h, Option.getD_some]

theorem getOutDimSizeLog2_of_mem {outDim : String} {size : ℕ}
    (h : (outDim, size) ∈ L.outDims.entries) : L.getOutDimSizeLog2 outDim = Nat.log2 size := by
  rw [RawLayout.getOutDimSizeLog2, MapVector.find_of_mem h, Option.getD_some]

theorem map_getInDimSizeLog2 : L.getInDimNames.map L.getInDimSizeLog2 = L.inWidths := by
  rw [RawLayout.getInDimNames, RawLayout.inWidths, MapVector.keys, MapVector.values, map_map,
    map_map]
  apply map_congr_left
  intro e he
  exact getInDimSizeLog2_of_mem L he

theorem map_getOutDimSizeLog2 : L.getOutDimNames.map L.getOutDimSizeLog2 = L.outWidths := by
  rw [RawLayout.getOutDimNames, RawLayout.outWidths, MapVector.keys, MapVector.values, map_map,
    map_map]
  apply map_congr_left
  intro e he
  exact getOutDimSizeLog2_of_mem L he

theorem getTotalInDimSizeLog2_eq : L.getTotalInDimSizeLog2 = L.inWidths.sum := by
  rw [RawLayout.getTotalInDimSizeLog2, map_getInDimSizeLog2]

theorem getTotalOutDimSizeLog2_eq : L.getTotalOutDimSizeLog2 = L.outWidths.sum := by
  rw [RawLayout.getTotalOutDimSizeLog2, map_getOutDimSizeLog2]

theorem getInDimSizeLog2_of_notMem {inDim : String} (h : inDim ∉ L.getInDimNames) :
    L.getInDimSizeLog2 inDim = 0 := by
  rw [RawLayout.getInDimSizeLog2, MapVector.find_eq_none h]
  rfl

theorem getInDimSizeLog2_le_total (inDim : String) :
    L.getInDimSizeLog2 inDim ≤ L.getTotalInDimSizeLog2 := by
  by_cases hmem : inDim ∈ L.getInDimNames
  · exact single_le_sum (fun _ _ => Nat.zero_le _) _ (mem_map_of_mem hmem)
  · rw [getInDimSizeLog2_of_notMem L hmem]
    exact Nat.zero_le _

theorem length_flatBases : L.flatBases.length = L.getTotalInDimSizeLog2 := by
  rw [RawLayout.flatBases, length_flatten, getTotalInDimSizeLog2_eq, RawLayout.inWidths]

theorem length_flatColumns : L.flatColumns.length = L.getTotalInDimSizeLog2 := by
  rw [RawLayout.flatColumns, length_map, length_flatBases]

theorem flatMap_bases {α : Type} (f : List ℕ → α) :
    (L.getInDimNames.flatMap fun inDim => (List.range (L.getInDimSizeLog2 inDim)).map fun i =>
      f (((L.bases.find inDim).getD []).getD i [])) = L.flatBases.map f := by
  rw [RawLayout.getInDimNames, RawLayout.flatBases, MapVector.keys, MapVector.values,
    flatMap_map, map_flatten, map_map, ← flatMap_def]
  apply flatMap_congr
  intro e he
  rw [getInDimSizeLog2_of_mem L he, MapVector.find_of_mem he, Option.getD_some]
  apply ext_getElem (by simp)
  intro i hi hi'
  have hlt : i < e.2.length := by simpa using hi
  simp only [Function.comp_apply, getElem_map, getElem_range]
  rw [getD_eq_getElem _ _ hlt]

end Widths

section Names

variable (L : RawLayout)

theorem getOutDimIndex_getElem {t : ℕ} (ht : t < L.getOutDimNames.length) :
    L.getOutDimIndex L.getOutDimNames[t] = t :=
  L.outDims.nodup.idxOf_getElem t ht

theorem getOutDimSizeLog2_getElem {t : ℕ} (ht : t < L.getOutDimNames.length) :
    L.getOutDimSizeLog2 L.getOutDimNames[t] = L.outWidths.getD t 0 := by
  have ht' : t < L.outWidths.length := by
    rw [← map_getOutDimSizeLog2, length_map]
    exact ht
  rw [getD_eq_getElem _ _ ht']
  simp only [← map_getOutDimSizeLog2, getElem_map]

theorem length_outWidths : L.outWidths.length = L.getOutDimNames.length := by
  rw [← map_getOutDimSizeLog2, length_map]

theorem length_inWidths : L.inWidths.length = L.getInDimNames.length := by
  rw [← map_getInDimSizeLog2, length_map]

theorem getMatrix_eq (h : ∀ b ∈ L.flatBases, Fits b L.outWidths) :
    L.getMatrix = transposeBits L.getTotalOutDimSizeLog2 L.flatColumns := by
  rw [getTotalOutDimSizeLog2_eq, RawLayout.flatColumns, transposeBits_pack h, RawLayout.getMatrix,
    flatMap_def, flatMap_def, length_outWidths]
  congr 1
  apply ext_getElem (by simp)
  intro t ht ht'
  have hname : t < L.getOutDimNames.length := by simpa using ht
  simp only [getElem_map, getElem_range, getOutDimSizeLog2_getElem L hname]
  apply map_congr_left
  intro j _
  congr 1
  simp only [RawLayout.getBasis, getOutDimIndex_getElem L hname]
  exact flatMap_bases L fun b => (b.getD t 0).testBit j

end Names

section Create

theorem fits_of_lt {sizes b : List ℕ} (hpow : ∀ size ∈ sizes, isPowerOf2_32 size = true)
    (h : List.Forall₂ (· < ·) b sizes) : Fits b (sizes.map Nat.log2) := by
  induction h with
  | nil => exact List.Forall₂.nil
  | @cons v size b sizes hv _ ih =>
    obtain ⟨k, -, rfl⟩ := isPowerOf2_32_iff.mp (hpow _ (mem_cons_self))
    refine List.Forall₂.cons ?_ (ih fun s hs => hpow s (mem_cons_of_mem _ hs))
    rw [Nat.log2_two_pow]
    exact hv

theorem flatColumns_lt (L : RawLayout) (h : ∀ b ∈ L.flatBases, Fits b L.outWidths) :
    ∀ c ∈ L.flatColumns, c < 2 ^ L.getTotalOutDimSizeLog2 := by
  intro c hc
  obtain ⟨b, hb, rfl⟩ := mem_map.mp hc
  rw [getTotalOutDimSizeLog2_eq]
  exact pack_lt (h b hb)

theorem getMatrixRank_eq_iff (f2 : F2Reduce) (L : RawLayout)
    (h : ∀ b ∈ L.flatBases, Fits b L.outWidths) (hcols : L.getTotalInDimSizeLog2 ≤ 64) :
    getMatrixRank f2 L.getMatrix L.getTotalInDimSizeLog2 = L.getTotalOutDimSizeLog2 ↔
      Onto L.getTotalOutDimSizeLog2 L.flatColumns := by
  have hlen := length_flatColumns L
  rw [getMatrix_eq L h]
  by_cases hempty : L.getTotalInDimSizeLog2 = 0
  · have hnil : L.flatColumns = [] := length_eq_zero_iff.mp (hlen.trans hempty)
    rw [getMatrixRank, if_pos hempty, hnil]
    constructor
    · intro hzero y hy
      refine ⟨0, by simp, ?_⟩
      rw [← hzero] at hy
      have hy' : y < 1 := hy
      rw [combine_zero]
      omega
    · intro honto
      have hle := le_length_of_onto honto
      rw [length_nil] at hle
      omega
  · have hrows : ∀ r ∈ transposeBits L.getTotalOutDimSizeLog2 L.flatColumns,
        r < 2 ^ L.getTotalInDimSizeLog2 := by
      rw [← hlen]
      exact transposeBits_lt
    have hrref := f2.isRref _ _ hrows hcols (Or.inl (by omega))
    have hback := transposeBits_transposeBits (flatColumns_lt L h)
    rw [hlen] at hback
    have hrank := hrref.rank_eq_iff
    rw [hback, length_transposeBits] at hrank
    rw [getMatrixRank, if_neg hempty]
    exact hrank

def computeSurjective (f2 : F2Reduce) (raw : RawLayout) : Bool :=
  getMatrixRank f2 raw.getMatrix raw.getTotalInDimSizeLog2 == raw.getTotalOutDimSizeLog2

theorem computeSurjective_iff (f2 : F2Reduce) (L : RawLayout)
    (hpow : ∀ size ∈ L.outDims.values, isPowerOf2_32 size = true)
    (hlt : ∀ basis ∈ L.flatBases, List.Forall₂ (· < ·) basis L.outDims.values)
    (hcols : L.getTotalInDimSizeLog2 ≤ 64) :
    computeSurjective f2 L = true ↔ Onto L.getTotalOutDimSizeLog2 L.flatColumns := by
  rw [computeSurjective, beq_iff_eq]
  exact getMatrixRank_eq_iff f2 L (fun b hb => fits_of_lt hpow (hlt b hb)) hcols

/-- The constructor of `LinearLayout`, with its `checkInvariants`. -/
def create (f2 : F2Reduce) (raw : RawLayout) (requireSurjective : Bool) :
    Except LayoutError LinearLayout :=
  if ∀ basis ∈ raw.flatBases, basis.length = raw.outDims.values.length then
    if hpow : ∀ size ∈ raw.outDims.values, isPowerOf2_32 size = true then
      if hlt : ∀ basis ∈ raw.flatBases, List.Forall₂ (· < ·) basis raw.outDims.values then
        if hcols : raw.getTotalInDimSizeLog2 ≤ 64 then
          if hrows : raw.getTotalOutDimSizeLog2 ≤ 64 then
            if requireSurjective && !computeSurjective f2 raw then
              .error (.fatal ("Layout is expected to be surjective, i.e. every `out` " ++
                "coordinate can be reached by some `in` coordinate, but was not:"))
            else
              .ok ⟨raw, computeSurjective f2 raw, hpow, hlt, hcols, hrows,
                computeSurjective_iff f2 raw hpow hlt hcols⟩
          else .error (.assertion "numRows <= 64 && \"LinearLayout too large\"")
        else .error (.assertion "numCols <= 64 && \"LinearLayout too large\"")
      else .error (.fatal "Invalid basis: Basis must be less than the out-dim size.")
    else .error (.fatal "Invalid out-dim size: Out-dim sizes must be powers of 2.")
  else .error (.fatal ("Invalid bases passed to LinearLayout.  Expect all bases to have the " ++
    "same size, equal to outDimNames.size()"))

theorem LinearLayout.fits (L : LinearLayout) : ∀ b ∈ L.flatBases, Fits b L.outWidths :=
  fun b hb => fits_of_lt L.size_pow (L.basis_lt b hb)

theorem create_ok (f2 : F2Reduce) (raw : RawLayout) (requireSurjective : Bool)
    (hpow : ∀ size ∈ raw.outDims.values, isPowerOf2_32 size = true)
    (hlt : ∀ basis ∈ raw.flatBases, List.Forall₂ (· < ·) basis raw.outDims.values)
    (hcols : raw.getTotalInDimSizeLog2 ≤ 64) (hrows : raw.getTotalOutDimSizeLog2 ≤ 64)
    (honto : requireSurjective = true → Onto raw.getTotalOutDimSizeLog2 raw.flatColumns) :
    ∃ L : LinearLayout, create f2 raw requireSurjective = .ok L ∧ L.toRawLayout = raw := by
  have hlen : ∀ basis ∈ raw.flatBases, basis.length = raw.outDims.values.length :=
    fun basis hbasis => (hlt basis hbasis).length_eq
  have hcheck : ¬ (requireSurjective && !computeSurjective f2 raw) = true := by
    cases hreq : requireSurjective with
    | false => simp
    | true =>
      have hsurj := (computeSurjective_iff f2 raw hpow hlt hcols).mpr (honto hreq)
      simp [hsurj]
  rw [create, if_pos hlen, dif_pos hpow, dif_pos hlt, dif_pos hcols, dif_pos hrows, if_neg hcheck]
  exact ⟨_, rfl, rfl⟩

theorem create_eq_ok {f2 : F2Reduce} {raw : RawLayout} {requireSurjective : Bool}
    {L : LinearLayout} (h : create f2 raw requireSurjective = .ok L) :
    L.toRawLayout = raw := by
  rw [create] at h
  split_ifs at h
  exact (congrArg LinearLayout.toRawLayout (Except.ok.inj h)).symm

end Create

end TritonCpu
