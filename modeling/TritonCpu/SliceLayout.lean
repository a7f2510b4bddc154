import TritonCpu.LayoutExact
import TritonCpu.SliceEncoding
import TritonCpu.XorFilter

/-!
# The layout of a slice

The layout that takes one dimension away is a product with one factor for each
dimension of the parent. After it, the parent keeps its inputs and the outputs
of the other dimensions. Registers without output can then be left out or added.
-/

set_option autoImplicit false

namespace TritonCpu

open XorSpan LinearLayout List

section Removed

variable (log : String → ℕ) (dim : ℕ)

/-- The dimension of the slice that a dimension of the parent goes to. -/
def sliceTarget (n : ℕ) : ℕ := if n = dim then 0 else n - if n < dim then 0 else 1

/-- The dimension of the parent that a dimension of the slice comes from. -/
def skip (j : ℕ) : ℕ := if j < dim then j else j + 1

/-- How many of the first `n` dimensions are kept. -/
def keptDims (n : ℕ) : ℕ := n - if dim < n then 1 else 0

def removedFactor (n : ℕ) : LayoutSpec :=
  LayoutSpec.oneDim (log (outDimName n)) (if n = dim then 0 else log (outDimName n)) (outDimName n)
    (outDimName (sliceTarget dim n))

def removedSpec : ℕ → LayoutSpec
  | 0 => LayoutSpec.empty
  | n + 1 => (removedSpec n).mul (removedFactor log dim n)

attribute [local simp] removedSpec

theorem standardOutDimNames_succ (n : ℕ) :
    standardOutDimNames (n + 1) = standardOutDimNames n ++ [outDimName n] := by
  rw [standardOutDimNames, range_succ, map_append]
  rfl

theorem outDimName_mem {n j : ℕ} : outDimName j ∈ standardOutDimNames n ↔ j < n := by
  rw [standardOutDimNames, mem_map_of_injective outDimName_injective, mem_range]

theorem inDims_removedSpec (n : ℕ) : (removedSpec log dim n).inDims = standardOutDimNames n := by
  induction n with
  | zero => rfl
  | succ n ih =>
    have hnew : outDimName n ∉ standardOutDimNames n := by
      rw [outDimName_mem]
      exact Nat.lt_irrefl n
    simp only [removedSpec, LayoutSpec.mul, removedFactor, LayoutSpec.oneDim, ih]
    rw [filter_cons_of_pos (by simpa using hnew), filter_nil, standardOutDimNames_succ]

theorem inLog_removedSpec (n : ℕ) (d : String) : (removedSpec log dim n).inLog d =
    if d ∈ standardOutDimNames n then log d else 0 := by
  induction n with
  | zero => rfl
  | succ n ih =>
    have hnew : outDimName n ∉ standardOutDimNames n := by
      rw [outDimName_mem]
      exact Nat.lt_irrefl n
    simp only [removedSpec, LayoutSpec.mul, removedFactor, LayoutSpec.oneDim, ih,
      standardOutDimNames_succ, mem_append, mem_singleton]
    by_cases hd : d = outDimName n
    · rw [hd, if_neg hnew, if_pos rfl, if_pos (Or.inr rfl), Nat.zero_add]
    · simp only [hd, or_false, if_false, Nat.add_zero]

theorem outLog_removedSpec (n j : ℕ) : (removedSpec log dim n).outLog (outDimName j) =
    if j < keptDims dim n then log (outDimName (skip dim j)) else 0 := by
  induction n with
  | zero => simp [removedSpec, LayoutSpec.empty, keptDims]
  | succ n ih =>
    simp only [removedSpec, LayoutSpec.mul, removedFactor, LayoutSpec.oneDim, ih,
      outDimName_injective.eq_iff, keptDims, sliceTarget, skip]
    by_cases hn : n = dim
    · grind
    · grind

theorem value_removedSpec (n j : ℕ) (ins : String → ℕ) :
    (removedSpec log dim n).value (outDimName j) ins =
      if j < keptDims dim n then
        ins (outDimName (skip dim j)) % 2 ^ log (outDimName (skip dim j))
      else 0 := by
  induction n generalizing ins with
  | zero => simp [removedSpec, LayoutSpec.empty, keptDims]
  | succ n ih =>
    have hfirst : (removedSpec log dim n).inLog (outDimName n) = 0 := by
      rw [inLog_removedSpec, if_neg]
      rw [outDimName_mem]
      exact Nat.lt_irrefl n
    simp only [removedSpec, LayoutSpec.mul, removedFactor, LayoutSpec.oneDim, ih,
      outLog_removedSpec, hfirst, outDimName_injective.eq_iff, Nat.pow_zero, Nat.div_one]
    by_cases hn : n = dim
    · subst hn
      have hkept : keptDims n (n + 1) = keptDims n n := by
        simp [keptDims]
      simp [hkept, Nat.mod_one]
    · have hkept : keptDims dim (n + 1) = keptDims dim n + 1 := by
        simp only [keptDims]
        grind
      have htarget : sliceTarget dim n = keptDims dim n := by
        simp only [keptDims, sliceTarget]
        grind
      have hskip : skip dim (keptDims dim n) = n := by
        simp only [keptDims, skip]
        grind
      rw [if_neg hn, htarget, hkept]
      by_cases hj : j = keptDims dim n
      · simp [hj, hskip]
      · have hlt : j < keptDims dim n + 1 ↔ j < keptDims dim n := by omega
        simp [hj, hlt]

theorem outDims_removedSpec (n : ℕ) : (removedSpec log dim n).outDims =
    standardOutDimNames (if n = 0 then 0 else max 1 (keptDims dim n)) := by
  induction n with
  | zero => rfl
  | succ n ih =>
    simp only [removedSpec, LayoutSpec.mul, removedFactor, LayoutSpec.oneDim, ih]
    by_cases hnew : outDimName (sliceTarget dim n) ∈
        standardOutDimNames (if n = 0 then 0 else max 1 (keptDims dim n))
    · rw [filter_cons_of_neg (by simpa using hnew), filter_nil, append_nil]
      rw [outDimName_mem] at hnew
      congr 1
      simp only [keptDims, sliceTarget] at hnew ⊢
      grind
    · rw [filter_cons_of_pos (by simpa using hnew), filter_nil]
      rw [outDimName_mem] at hnew
      have htarget : sliceTarget dim n = if n = 0 then 0 else max 1 (keptDims dim n) := by
        simp only [keptDims, sliceTarget] at hnew ⊢
        grind
      rw [htarget, ← standardOutDimNames_succ]
      congr 1
      simp only [keptDims, sliceTarget] at hnew htarget ⊢
      grind

theorem total_removedSpec (n : ℕ) :
    (removedSpec log dim n).total = ((standardOutDimNames n).map log).sum := by
  rw [LayoutSpec.total, inDims_removedSpec]
  congr 1
  apply map_congr_left
  intro d hd
  rw [inLog_removedSpec, if_pos hd]

end Removed

section Transform

variable (f2 : F2Reduce) (slice : SliceEncodingAttr) {P : LinearLayout} {rank : ℕ}
  (hnames : P.getOutDimNames = standardOutDimNames (rank + 1))

include hnames

omit hnames in
theorem outLog_lt (o : String) : P.getOutDimSizeLog2 o < 31 := by
  by_cases hmem : o ∈ P.getOutDimNames
  · exact getOutDimSizeLog2_lt P hmem
  · rw [getOutDimSizeLog2_of_notMem P.toRawLayout hmem]
    omega

theorem total_removedSpec_le {n : ℕ} (hn : n ≤ rank + 1) :
    (removedSpec P.getOutDimSizeLog2 slice.dim n).total ≤ 64 := by
  have hsub : List.Sublist (standardOutDimNames n) P.getOutDimNames := by
    rw [hnames]
    exact (range_sublist.mpr hn).map outDimName
  rw [total_removedSpec]
  exact ((hsub.map _).sum_le_sum fun _ _ => Nat.zero_le _).trans P.numRows_le

theorem removeOutDim_ok {n : ℕ} (hn : n < rank + 1) {T : LinearLayout}
    (hT : Computes T (removedSpec P.getOutDimSizeLog2 slice.dim n)) : ∃ T' : LinearLayout,
      slice.removeOutDim f2 P (standardOutDimNames (rank + 1)) T (outDimName n, n) = .ok T' ∧
      Computes T' (removedSpec P.getOutDimSizeLog2 slice.dim (n + 1)) := by
  have hsize : ((P.getOutDimSize (outDimName n) : ℕ) : ℤ) =
      2 ^ P.getOutDimSizeLog2 (outDimName n) := by
    rw [RawLayout.getOutDimSize, Nat.cast_pow, Nat.cast_ofNat]
  have hlog : P.getOutDimSizeLog2 (outDimName n) < 31 := outLog_lt _
  obtain ⟨F, hF, hfactor⟩ : ∃ F : LinearLayout,
      slice.outDimFactor f2 P (standardOutDimNames (rank + 1)) (outDimName n, n) = .ok F ∧
      Describes F (removedFactor P.getOutDimSizeLog2 slice.dim n) := by
    simp only [SliceEncodingAttr.outDimFactor]
    rw [removedFactor, sliceTarget, hsize]
    by_cases hdim : n = slice.dim
    · rw [if_pos hdim, if_pos hdim, if_pos hdim, elementAt_name (Nat.succ_pos rank)]
      exact zeros1D_describes f2 _ _ hlog
    · rw [if_neg hdim, if_neg hdim, if_neg hdim,
        elementAt_name (lt_of_le_of_lt (Nat.sub_le _ _) hn)]
      exact identity1D_describes f2 _ _ hlog
  have hfree : ∀ o, (removedSpec P.getOutDimSizeLog2 slice.dim n).outLog o +
      (removedFactor P.getOutDimSizeLog2 slice.dim n).outLog o < 31 := by
    intro o
    simp only [removedFactor, LayoutSpec.oneDim]
    split_ifs with ho hdim
    · exact hT.outLog_lt o
    · have hkept : ¬ sliceTarget slice.dim n < keptDims slice.dim n := by
        simp only [sliceTarget, keptDims]
        grind
      rw [ho, outLog_removedSpec, if_neg hkept, Nat.zero_add]
      exact hlog
    · exact hT.outLog_lt o
  obtain ⟨houts, hins⟩ := sameOrder_singleton (outDimName n) hT (outDimName (sliceTarget slice.dim n))
  have htotal := total_mul hT hfactor.computes
  obtain ⟨T', hmul, -, hT'⟩ := mul_computes f2 hT hfactor.computes houts hins hfree
    (htotal ▸ total_removedSpec_le slice hnames hn)
  refine ⟨T', ?_, hT'⟩
  rw [SliceEncodingAttr.removeOutDim, hF, ok_bind, hmul]

theorem transform_ok : ∃ T : LinearLayout,
    slice.transform f2 P (standardOutDimNames (rank + 1)) = .ok T ∧
    Computes T (removedSpec P.getOutDimSizeLog2 slice.dim (rank + 1)) := by
  obtain ⟨T₀, hempty, hT₀⟩ := empty_describes f2
  have hloop : ∀ n ≤ rank + 1, ∃ T : LinearLayout,
      ((List.range n).map fun i => (outDimName i, i)).foldlM
        (slice.removeOutDim f2 P (standardOutDimNames (rank + 1))) T₀ = .ok T ∧
      Computes T (removedSpec P.getOutDimSizeLog2 slice.dim n) := by
    intro n
    induction n with
    | zero => exact fun _ => ⟨T₀, rfl, hT₀.computes⟩
    | succ n ih =>
      intro hn
      obtain ⟨T, hfold, hT⟩ := ih (by omega)
      obtain ⟨T', hturn, hT'⟩ := removeOutDim_ok f2 slice hnames (by omega) hT
      refine ⟨T', ?_, hT'⟩
      rw [range_succ, map_append, foldlM_append, hfold]
      change (slice.removeOutDim f2 P _ T (outDimName n, n) >>= pure) = _
      rw [hturn]
      rfl
  obtain ⟨T, hfold, hT⟩ := hloop (rank + 1) le_rfl
  have hzip : P.getOutDimNames.zipIdx = (List.range (rank + 1)).map fun i => (outDimName i, i) := by
    rw [hnames, standardOutDimNames]
    apply ext_getElem (by simp)
    intro i hi hi'
    simp
  refine ⟨T, ?_, hT⟩
  rw [SliceEncodingAttr.transform, hempty, ok_bind, hzip, hfold]

end Transform

/-- A surjective layout of the dimensions that the slice keeps. A tensor without
dimensions has one of size 1. -/
structure HasSliceDims (P : LinearLayout) (dim rank : ℕ) (L : LinearLayout) : Prop where
  inDims : L.getInDimNames = P.getInDimNames
  outDims : L.getOutDimNames = standardOutDimNames (max 1 rank)
  outSize : ∀ j < rank,
    L.getOutDimSizeLog2 (outDimName j) = P.getOutDimSizeLog2 (outDimName (skip dim j))
  scalar : rank = 0 → L.getOutDimSizeLog2 (outDimName 0) = 0
  surjective : L.surjective = true

/-- The parent followed by the layout that takes the dimension away. -/
structure IsSlice (P : LinearLayout) (dim rank : ℕ) (C : LinearLayout) : Prop extends
    HasSliceDims P dim rank C where
  inSize : ∀ d, C.getInDimSizeLog2 d = P.getInDimSizeLog2 d
  value : ∀ j < rank, ∀ ins, C.value (outDimName j) ins = P.value (outDimName (skip dim j)) ins
  basis : ∀ d i, ∀ j < rank,
    C.getBasis d i (outDimName j) = P.getBasis d i (outDimName (skip dim j))

section Compose

variable (f2 : F2Reduce) (slice : SliceEncodingAttr) {P : LinearLayout} {rank : ℕ}
  (hnames : P.getOutDimNames = standardOutDimNames (rank + 1)) (hdim : slice.dim ≤ rank)
  (hsurj : P.surjective = true)

include hnames hdim hsurj

theorem compose_transform_ok : ∃ T C : LinearLayout,
    slice.transform f2 P (standardOutDimNames (rank + 1)) = .ok T ∧ P.compose f2 T = .ok C ∧
    IsSlice P slice.dim rank C := by
  obtain ⟨T, htransform, hT⟩ := transform_ok f2 slice hnames
  have hkept : keptDims slice.dim (rank + 1) = rank := by
    rw [keptDims, if_pos (by omega), Nat.add_sub_cancel]
  have hins : P.getOutDimNames = T.getInDimNames := by
    rw [hT.inDims, inDims_removedSpec, hnames]
  have hsize : ∀ o ∈ P.getOutDimNames, P.getOutDimSizeLog2 o = T.getInDimSizeLog2 o := by
    intro o ho
    rw [hT.inSize, inLog_removedSpec, if_pos (hnames ▸ ho)]
  have houts : T.getOutDimNames = standardOutDimNames (max 1 rank) := by
    rw [hT.outDims, outDims_removedSpec, if_neg (Nat.succ_ne_zero rank), hkept]
  have hout : ∀ j < rank, outDimName j ∈ T.getOutDimNames := by
    intro j hj
    rw [houts, outDimName_mem]
    omega
  -- an output below the size of its dimension is kept as it is
  have hvalue : ∀ j < rank, ∀ mid : String → ℕ, (∀ o, mid o < 2 ^ P.getOutDimSizeLog2 o) →
      T.value (outDimName j) mid = mid (outDimName (skip slice.dim j)) := by
    intro j hj mid hmid
    rw [hT.value, value_removedSpec, hkept, if_pos hj, Nat.mod_eq_of_lt (hmid _)]
  obtain ⟨C, hcompose, hraw⟩ := compose_ok f2 P T (List.Perm.of_eq hins)
    (fun o ho => hsize o ho ▸ getOutDimSizeLog2_lt P ho) (fun o ho => (hsize o ho).le)
  have hreach := reaches_composed P T (List.Perm.of_eq hins) hsurj hT.surjective hsize
  have hlog : ∀ o, C.getOutDimSizeLog2 o = T.getOutDimSizeLog2 o := fun o => hraw ▸ rfl
  refine ⟨T, C, htransform, hcompose, ⟨?_, ?_, ?_, ?_, ?_⟩, ?_, ?_, ?_⟩
  · rw [hraw]
    exact MapVector.keys_mapValues _ _
  · rw [hraw, ← houts]
    rfl
  · intro j hj
    rw [hlog, hT.outSize, outLog_removedSpec, hkept, if_pos hj]
  · intro hrank
    rw [hlog, hT.outSize, outLog_removedSpec, hkept, if_neg (by omega)]
  · exact C.surjective_iff_reaches.mpr (hraw ▸ hreach)
  · intro d
    rw [hraw, getInDimSizeLog2_composed]
  · intro j hj ins
    rw [hraw, value_composed P T (hout j hj), hvalue j hj _ fun o => value_lt P ins]
  · intro d i j hj
    rw [hraw, getBasis_composed P T d i (hout j hj), hvalue j hj _ fun o => getBasis_lt P]

end Compose

end TritonCpu
