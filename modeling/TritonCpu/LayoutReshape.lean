import TritonCpu.LayoutApply

/-!
# Reordering and reshaping layouts

Reordering the output dimensions keeps the output at every dimension. Reshaping
the input regroups the bases, reshaping the output packs the outputs into one
number and divides it into the new dimensions. None of them changes which
outputs are reached, so the constructor accepts the result.
-/

set_option autoImplicit false

namespace TritonCpu

open XorSpan BitFields List

namespace LinearLayout

variable (f2 : F2Reduce) (L : LinearLayout)

def permuteBasis (permutation basis : List ℕ) : List ℕ := permutation.map fun i => basis.getD i 0

def transposedOuts (newOutDims : List String) : RawLayout where
  bases := L.bases.mapValues fun inDimBases =>
    inDimBases.map (permuteBasis (newOutDims.map L.getOutDimIndex))
  outDims := MapVector.build (fun _ size => size)
    (newOutDims.map fun outDim => (outDim, L.getOutDimSize outDim))

def transposeOuts (newOutDims : List String) : Except LayoutError LinearLayout := do
  assertDimsEqualIgnoringOrder newOutDims L.getOutDimNames
  create f2 (L.transposedOuts newOutDims) L.surjective

def splitBases : List (String × ℕ) → List (List ℕ) → List (String × List (List ℕ))
  | [], _ => []
  | (inDim, inDimSize) :: rest, flat =>
    (inDim, flat.take (Nat.log2 inDimSize)) :: splitBases rest (flat.drop (Nat.log2 inDimSize))

def reshapedIns (newInDims : List (String × ℕ)) : RawLayout where
  bases := MapVector.build (fun old bs => old.getD [] ++ bs) (splitBases newInDims L.flatBases)
  outDims := L.outDims

def reshapeIns (newInDims : List (String × ℕ)) : Except LayoutError LinearLayout := do
  assertThat "isPowerOf2_32(inDim.second)" (newInDims.all fun inDim => isPowerOf2_32 inDim.2)
  let totalInDimSize ← L.getTotalInDimSize
  assertThat "getTotalInDimSize() == product of newInDims"
    (totalInDimSize == (newInDims.map Prod.snd).prod)
  create f2 (L.reshapedIns newInDims) L.surjective

def flattenBasis (shifts basis : List ℕ) : ℕ := (List.zipWith (· <<< ·) basis shifts).sum

def splitBasis : List ℕ → ℕ → List ℕ
  | [], _ => []
  | newSize :: rest, b => b % newSize :: splitBasis rest (b / newSize)

def reshapedOuts (newOutDims : List (String × ℕ)) : RawLayout where
  bases := L.bases.mapValues fun inDimBases => inDimBases.map fun basis =>
    splitBasis (newOutDims.map Prod.snd)
      (flattenBasis ((L.getOutDimNames.map L.getOutDimSizeLog2).scanl (· + ·) 0) basis)
  outDims := MapVector.build (fun _ size => size) newOutDims

def reshapeOuts (newOutDims : List (String × ℕ)) : Except LayoutError LinearLayout := do
  assertThat "isPowerOf2_32(outDim.second)" (newOutDims.all fun outDim => isPowerOf2_32 outDim.2)
  let totalOutDimSize ← L.getTotalOutDimSize
  assertThat "getTotalOutDimSize() == product of newOutDims"
    (totalOutDimSize == (newOutDims.map Prod.snd).prod)
  create f2 (L.reshapedOuts newOutDims) L.surjective

end LinearLayout

open LinearLayout

theorem assertThat_ok {text : String} {condition : Bool} (h : condition = true) :
    assertThat text condition = .ok () := by
  rw [assertThat, if_pos h]

section Sizes

variable {sizes : List ℕ} {dims : List (String × ℕ)}

theorem prod_sizes (hpow : ∀ size ∈ sizes, isPowerOf2_32 size = true) :
    sizes.prod = 2 ^ (sizes.map Nat.log2).sum := by
  induction sizes with
  | nil => rfl
  | cons size sizes ih =>
    obtain ⟨k, -, rfl⟩ := isPowerOf2_32_iff.mp (hpow _ mem_cons_self)
    rw [prod_cons, ih fun s hs => hpow s (mem_cons_of_mem _ hs), map_cons,
      sum_cons, Nat.log2_two_pow, Nat.pow_add]

theorem pow_of_dims (hpow : ∀ e ∈ dims, isPowerOf2_32 e.2 = true) :
    ∀ size ∈ dims.map Prod.snd, isPowerOf2_32 size = true := by
  intro size hsize
  obtain ⟨e, he, rfl⟩ := mem_map.mp hsize
  exact hpow e he

theorem logs_of_dims : (dims.map Prod.snd).map Nat.log2 = dims.map fun e => Nat.log2 e.2 := by
  rw [map_map]
  rfl

theorem prod_of_dims (hpow : ∀ e ∈ dims, isPowerOf2_32 e.2 = true) :
    (dims.map Prod.snd).prod = 2 ^ (dims.map fun e => Nat.log2 e.2).sum := by
  rw [prod_sizes (pow_of_dims hpow), logs_of_dims]

theorem entries_build_sizes (h : (dims.map Prod.fst).Nodup) :
    (MapVector.build (fun _ size => size) dims : MapVector ℕ).entries = dims := by
  rw [MapVector.entries_build _ h]
  exact map_id _

end Sizes

section ReshapeIns

theorem flatten_splitBases {newInDims : List (String × ℕ)} {flat : List (List ℕ)}
    (h : flat.length = (newInDims.map fun e => Nat.log2 e.2).sum) :
    ((splitBases newInDims flat).map Prod.snd).flatten = flat := by
  induction newInDims generalizing flat with
  | nil =>
    rw [splitBases]
    exact (length_eq_zero_iff.mp h).symm
  | cons e es ih =>
    rw [map_cons, sum_cons] at h
    rw [splitBases, map_cons, flatten_cons, ih (by simp; omega), take_append_drop]

theorem map_fst_splitBases (newInDims : List (String × ℕ)) (flat : List (List ℕ)) :
    (splitBases newInDims flat).map Prod.fst = newInDims.map Prod.fst := by
  induction newInDims generalizing flat with
  | nil => rfl
  | cons e es ih => rw [splitBases, map_cons, ih, map_cons]

theorem widths_splitBases {newInDims : List (String × ℕ)} {flat : List (List ℕ)}
    (h : flat.length = (newInDims.map fun e => Nat.log2 e.2).sum) :
    (splitBases newInDims flat).map (fun e => e.2.length) =
      newInDims.map fun e => Nat.log2 e.2 := by
  induction newInDims generalizing flat with
  | nil => rfl
  | cons e es ih =>
    rw [map_cons, sum_cons] at h
    rw [splitBases, map_cons, map_cons, ih (by simp; omega), length_take,
      Nat.min_eq_left (by omega)]

variable (f2 : F2Reduce) (L : LinearLayout) {newInDims : List (String × ℕ)}

theorem entries_reshapedIns (hnodup : (newInDims.map Prod.fst).Nodup) :
    (L.reshapedIns newInDims).bases.entries = splitBases newInDims L.flatBases := by
  rw [reshapedIns, MapVector.entries_build _ (by rwa [map_fst_splitBases])]
  exact map_id _

theorem flatBases_reshapedIns (hnodup : (newInDims.map Prod.fst).Nodup)
    (htotal : (newInDims.map fun e => Nat.log2 e.2).sum = L.getTotalInDimSizeLog2) :
    (L.reshapedIns newInDims).flatBases = L.flatBases := by
  rw [RawLayout.flatBases, MapVector.values, entries_reshapedIns L hnodup,
    flatten_splitBases (by rw [length_flatBases, htotal])]

theorem inWidths_reshapedIns (hnodup : (newInDims.map Prod.fst).Nodup)
    (htotal : (newInDims.map fun e => Nat.log2 e.2).sum = L.getTotalInDimSizeLog2) :
    (L.reshapedIns newInDims).inWidths = newInDims.map fun e => Nat.log2 e.2 := by
  rw [← widths_splitBases (by rw [length_flatBases, htotal]), RawLayout.inWidths, MapVector.values,
    entries_reshapedIns L hnodup, map_map]
  rfl

theorem reshapeIns_ok (hnodup : (newInDims.map Prod.fst).Nodup)
    (hpow : ∀ e ∈ newInDims, isPowerOf2_32 e.2 = true)
    (htotal : (newInDims.map fun e => Nat.log2 e.2).sum = L.getTotalInDimSizeLog2)
    (hlt : L.getTotalInDimSizeLog2 < 31) :
    ∃ L' : LinearLayout, L.reshapeIns f2 newInDims = .ok L' ∧ L'.flatBases = L.flatBases ∧
      L'.outDims = L.outDims ∧ L'.getInDimNames = newInDims.map Prod.fst ∧
      L'.inWidths = newInDims.map fun e => Nat.log2 e.2 := by
  have hbases := flatBases_reshapedIns L hnodup htotal
  have htotal' : (L.reshapedIns newInDims).getTotalInDimSizeLog2 = L.getTotalInDimSizeLog2 := by
    rw [← length_flatBases, hbases, length_flatBases]
  have hcolumns : (L.reshapedIns newInDims).flatColumns = L.flatColumns := by
    rw [RawLayout.flatColumns, hbases]
    rfl
  obtain ⟨L', hcreate, hraw⟩ := create_ok f2 (L.reshapedIns newInDims) L.surjective L.size_pow
    (fun b hb => L.basis_lt b (hbases ▸ hb)) (htotal' ▸ L.numCols_le) L.numRows_le
    (fun hreq => hcolumns ▸ L.surjective_iff.mp hreq)
  refine ⟨L', ?_, ?_, ?_, ?_, ?_⟩
  · rw [reshapeIns, RawLayout.getTotalInDimSize, shiftOne_ok hlt,
      assertThat_ok (by simpa using hpow)]
    simp only [bind, Except.bind, prod_of_dims hpow, htotal, beq_self_eq_true, assertThat_ok]
    exact hcreate
  · rw [hraw, hbases]
  · rw [hraw]
    rfl
  · rw [hraw, RawLayout.getInDimNames, MapVector.keys, entries_reshapedIns L hnodup,
      map_fst_splitBases]
  · rw [hraw, inWidths_reshapedIns L hnodup htotal]

end ReshapeIns

section ReshapeOuts

theorem flattenBasis_eq {ks basis : List ℕ} (h : Fits basis ks) (s : ℕ) :
    flattenBasis (ks.scanl (· + ·) s) basis = 2 ^ s * pack ks basis := by
  induction h generalizing s with
  | nil => simp [flattenBasis, pack]
  | @cons v k vs ks _ _ ih =>
    rw [scanl_cons, flattenBasis, zipWith_cons_cons, sum_cons, ← flattenBasis, ih,
      pack, Nat.shiftLeft_eq, Nat.pow_add]
    ring

theorem splitBasis_eq {sizes : List ℕ} (hpow : ∀ size ∈ sizes, isPowerOf2_32 size = true) (b : ℕ) :
    splitBasis sizes b = unpack (sizes.map Nat.log2) b := by
  induction sizes generalizing b with
  | nil => rfl
  | cons size sizes ih =>
    obtain ⟨k, -, rfl⟩ := isPowerOf2_32_iff.mp (hpow _ mem_cons_self)
    rw [splitBasis, ih fun s hs => hpow s (mem_cons_of_mem _ hs), map_cons, unpack,
      Nat.log2_two_pow]

theorem forall₂_unpack {sizes : List ℕ} (hpow : ∀ size ∈ sizes, isPowerOf2_32 size = true) (b : ℕ) :
    List.Forall₂ (· < ·) (unpack (sizes.map Nat.log2) b) sizes := by
  induction sizes generalizing b with
  | nil => exact List.Forall₂.nil
  | cons size sizes ih =>
    obtain ⟨k, -, rfl⟩ := isPowerOf2_32_iff.mp (hpow _ mem_cons_self)
    rw [map_cons, Nat.log2_two_pow, unpack]
    exact List.Forall₂.cons (Nat.mod_lt _ (Nat.two_pow_pos k))
      (ih (fun s hs => hpow s (mem_cons_of_mem _ hs)) _)

variable (f2 : F2Reduce) (L : LinearLayout) {newOutDims : List (String × ℕ)}

theorem flatBases_reshapedOuts (hpow : ∀ e ∈ newOutDims, isPowerOf2_32 e.2 = true) :
    (L.reshapedOuts newOutDims).flatBases =
      L.flatColumns.map (unpack (newOutDims.map fun e => Nat.log2 e.2)) := by
  rw [RawLayout.flatBases, reshapedOuts, MapVector.values_mapValues, ← map_flatten,
    RawLayout.flatColumns, map_map]
  apply map_congr_left
  intro basis hbasis
  rw [splitBasis_eq (pow_of_dims hpow), map_getOutDimSizeLog2,
    flattenBasis_eq (L.fits basis hbasis), logs_of_dims, Nat.pow_zero, Nat.one_mul]
  rfl

theorem values_reshapedOuts (hnodup : (newOutDims.map Prod.fst).Nodup) :
    (L.reshapedOuts newOutDims).outDims.values = newOutDims.map Prod.snd := by
  rw [reshapedOuts, MapVector.values, entries_build_sizes hnodup]

theorem outWidths_reshapedOuts (hnodup : (newOutDims.map Prod.fst).Nodup) :
    (L.reshapedOuts newOutDims).outWidths = newOutDims.map fun e => Nat.log2 e.2 := by
  rw [RawLayout.outWidths, values_reshapedOuts L hnodup, logs_of_dims]

theorem inWidths_reshapedOuts : (L.reshapedOuts newOutDims).inWidths = L.inWidths := by
  rw [RawLayout.inWidths, reshapedOuts, MapVector.values_mapValues, map_map,
    RawLayout.inWidths]
  apply map_congr_left
  intro bs _
  exact length_map _

theorem flatColumns_reshapedOuts (hnodup : (newOutDims.map Prod.fst).Nodup)
    (hpow : ∀ e ∈ newOutDims, isPowerOf2_32 e.2 = true)
    (htotal : (newOutDims.map fun e => Nat.log2 e.2).sum = L.getTotalOutDimSizeLog2) :
    (L.reshapedOuts newOutDims).flatColumns = L.flatColumns := by
  rw [RawLayout.flatColumns, flatBases_reshapedOuts L hpow, outWidths_reshapedOuts L hnodup,
    map_map]
  refine (map_congr_left fun c hc => ?_).trans (map_id _)
  have hc' := flatColumns_lt L.toRawLayout L.fits c hc
  rw [Function.comp_apply, pack_unpack (by rwa [htotal]), id]

theorem reshapeOuts_ok (hnodup : (newOutDims.map Prod.fst).Nodup)
    (hpow : ∀ e ∈ newOutDims, isPowerOf2_32 e.2 = true)
    (htotal : (newOutDims.map fun e => Nat.log2 e.2).sum = L.getTotalOutDimSizeLog2)
    (hlt : L.getTotalOutDimSizeLog2 < 31) :
    ∃ L' : LinearLayout, L.reshapeOuts f2 newOutDims = .ok L' ∧
      L'.flatBases = L.flatColumns.map (unpack (newOutDims.map fun e => Nat.log2 e.2)) ∧
      L'.outDims.entries = newOutDims ∧ L'.getInDimNames = L.getInDimNames ∧
      L'.inWidths = L.inWidths := by
  have hbases := flatBases_reshapedOuts L hpow
  have hvalues := values_reshapedOuts L hnodup
  have htotalIn : (L.reshapedOuts newOutDims).getTotalInDimSizeLog2 =
      L.getTotalInDimSizeLog2 := by
    rw [getTotalInDimSizeLog2_eq, inWidths_reshapedOuts, getTotalInDimSizeLog2_eq]
  have htotalOut : (L.reshapedOuts newOutDims).getTotalOutDimSizeLog2 =
      L.getTotalOutDimSizeLog2 := by
    rw [getTotalOutDimSizeLog2_eq, outWidths_reshapedOuts L hnodup, htotal]
  have hlt' : ∀ basis ∈ (L.reshapedOuts newOutDims).flatBases,
      List.Forall₂ (· < ·) basis (L.reshapedOuts newOutDims).outDims.values := by
    intro basis hbasis
    rw [hbases] at hbasis
    obtain ⟨c, -, rfl⟩ := mem_map.mp hbasis
    rw [hvalues, ← logs_of_dims]
    exact forall₂_unpack (pow_of_dims hpow) c
  obtain ⟨L', hcreate, hraw⟩ := create_ok f2 (L.reshapedOuts newOutDims) L.surjective
    (hvalues ▸ pow_of_dims hpow) hlt' (htotalIn ▸ L.numCols_le) (htotalOut ▸ L.numRows_le)
    (fun hreq => by
      rw [flatColumns_reshapedOuts L hnodup hpow htotal, htotalOut]
      exact L.surjective_iff.mp hreq)
  refine ⟨L', ?_, ?_, ?_, ?_, ?_⟩
  · rw [reshapeOuts, RawLayout.getTotalOutDimSize, shiftOne_ok hlt,
      assertThat_ok (by simpa using hpow)]
    simp only [bind, Except.bind, prod_of_dims hpow, htotal, beq_self_eq_true, assertThat_ok]
    exact hcreate
  · rw [hraw, hbases]
  · rw [hraw, reshapedOuts, entries_build_sizes hnodup]
  · rw [hraw, RawLayout.getInDimNames, reshapedOuts, MapVector.keys_mapValues]
    rfl
  · rw [hraw, inWidths_reshapedOuts]

end ReshapeOuts

section Transpose

variable (f2 : F2Reduce) (L : LinearLayout) {newOutDims : List String}

theorem getOutDimSizeLog2_lt {outDim : String} (h : outDim ∈ L.getOutDimNames) :
    L.getOutDimSizeLog2 outDim < 31 := by
  obtain ⟨e, he, rfl⟩ := mem_map.mp h
  obtain ⟨k, hk, hsize⟩ := isPowerOf2_32_iff.mp (L.size_pow e.2 (mem_map_of_mem he))
  rwa [getOutDimSizeLog2_of_mem L.toRawLayout he, hsize, Nat.log2_two_pow]

theorem getD_outWidths {outDim : String} (h : outDim ∈ L.getOutDimNames) :
    L.outWidths.getD (L.getOutDimIndex outDim) 0 = L.getOutDimSizeLog2 outDim := by
  have hlog := getOutDimSizeLog2_getElem L.toRawLayout (idxOf_lt_length_of_mem h)
  rw [getElem_idxOf] at hlog
  exact hlog.symm

theorem entries_transposedOuts (hnodup : newOutDims.Nodup) :
    (L.transposedOuts newOutDims).outDims.entries =
      newOutDims.map fun outDim => (outDim, L.getOutDimSize outDim) := by
  apply entries_build_sizes
  rw [map_map]
  exact (map_id newOutDims).symm ▸ hnodup

theorem getOutDimNames_transposedOuts (hnodup : newOutDims.Nodup) :
    (L.transposedOuts newOutDims).getOutDimNames = newOutDims := by
  rw [RawLayout.getOutDimNames, MapVector.keys, entries_transposedOuts L hnodup, map_map]
  exact map_id _

theorem values_transposedOuts (hnodup : newOutDims.Nodup) :
    (L.transposedOuts newOutDims).outDims.values = newOutDims.map L.getOutDimSize := by
  rw [MapVector.values, entries_transposedOuts L hnodup, map_map]
  rfl

theorem outWidths_transposedOuts (hnodup : newOutDims.Nodup) :
    (L.transposedOuts newOutDims).outWidths = newOutDims.map L.getOutDimSizeLog2 := by
  rw [RawLayout.outWidths, values_transposedOuts L hnodup, map_map]
  apply map_congr_left
  intro outDim _
  exact Nat.log2_two_pow

theorem flatBases_transposedOuts : (L.transposedOuts newOutDims).flatBases =
    L.flatBases.map (permuteBasis (newOutDims.map L.getOutDimIndex)) := by
  rw [RawLayout.flatBases, transposedOuts, MapVector.values_mapValues, ← map_flatten]
  rfl

theorem columns_permuteBasis {t : ℕ} (ht : t < newOutDims.length) :
    (L.flatBases.map (permuteBasis (newOutDims.map L.getOutDimIndex))).map (fun b => b.getD t 0) =
      L.column newOutDims[t] := by
  rw [map_map]
  apply map_congr_left
  intro b _
  have ht' : t < (permuteBasis (newOutDims.map L.getOutDimIndex) b).length := by
    simpa [permuteBasis] using ht
  rw [Function.comp_apply, getD_eq_getElem _ _ ht']
  simp only [permuteBasis, getElem_map]

theorem column_transposedOuts (hnodup : newOutDims.Nodup) {outDim : String}
    (h : outDim ∈ newOutDims) : (L.transposedOuts newOutDims).column outDim = L.column outDim := by
  have ht := idxOf_lt_length_of_mem h
  have hcol := columns_permuteBasis L ht
  rw [getElem_idxOf] at hcol
  rw [RawLayout.column, flatBases_transposedOuts, RawLayout.getOutDimIndex,
    getOutDimNames_transposedOuts L hnodup]
  exact hcol

variable (hperm : newOutDims.Perm L.getOutDimNames)

include hperm

theorem size_pow_transposedOuts :
    ∀ size ∈ (L.transposedOuts newOutDims).outDims.values, isPowerOf2_32 size = true := by
  intro size hsize
  rw [values_transposedOuts L (hperm.nodup_iff.mpr L.outDims.nodup)] at hsize
  obtain ⟨d, hd, rfl⟩ := mem_map.mp hsize
  exact isPowerOf2_32_iff.mpr ⟨_, getOutDimSizeLog2_lt L (hperm.mem_iff.mp hd), rfl⟩

theorem basis_lt_transposedOuts : ∀ basis ∈ (L.transposedOuts newOutDims).flatBases,
    List.Forall₂ (· < ·) basis (L.transposedOuts newOutDims).outDims.values := by
  intro basis hbasis
  rw [flatBases_transposedOuts] at hbasis
  obtain ⟨b, hb, rfl⟩ := mem_map.mp hbasis
  rw [values_transposedOuts L (hperm.nodup_iff.mpr L.outDims.nodup)]
  simp only [permuteBasis, map_map, forall₂_map_left_iff, forall₂_map_right_iff,
    forall₂_same]
  intro d hd
  have hfit := getD_lt_of_fits (L.fits b hb) (L.getOutDimIndex d)
  rwa [getD_outWidths L (hperm.mem_iff.mp hd)] at hfit

theorem onto_transposedOuts (hsurj : L.surjective = true) :
    Onto (L.transposedOuts newOutDims).getTotalOutDimSizeLog2
      (L.transposedOuts newOutDims).flatColumns := by
  have hnodup : newOutDims.Nodup := hperm.nodup_iff.mpr L.outDims.nodup
  have hL := L.surjective_iff.mp hsurj
  rw [getTotalOutDimSizeLog2_eq, RawLayout.flatColumns, onto_iff_fields L.fits] at hL
  have hfits : ∀ b ∈ (L.transposedOuts newOutDims).flatBases,
      Fits b (L.transposedOuts newOutDims).outWidths := fun b hb =>
    fits_of_lt (size_pow_transposedOuts L hperm) (basis_lt_transposedOuts L hperm b hb)
  rw [getTotalOutDimSizeLog2_eq, RawLayout.flatColumns, onto_iff_fields hfits,
    flatBases_transposedOuts, outWidths_transposedOuts L hnodup, length_map]
  intro vs hvs
  -- the wanted values in the order of the old dimensions
  obtain ⟨x, hx, hreach⟩ := hL (L.getOutDimNames.map fun d => vs.getD (newOutDims.idxOf d) 0) (by
    rw [← map_getOutDimSizeLog2]
    simp only [forall₂_map_left_iff, forall₂_map_right_iff, forall₂_same]
    intro d hd
    have ht := idxOf_lt_length_of_mem (hperm.mem_iff.mpr hd)
    have hfit := getD_lt_of_fits hvs (newOutDims.idxOf d)
    rwa [getD_eq_getElem (newOutDims.map L.getOutDimSizeLog2) 0 (by simpa using ht),
      getElem_map, getElem_idxOf] at hfit)
  refine ⟨x, hx, fun t ht => ?_⟩
  rw [length_map] at ht
  have hidx : L.getOutDimIndex newOutDims[t] < L.getOutDimNames.length :=
    idxOf_lt_length_of_mem (hperm.mem_iff.mp (getElem_mem ht))
  rw [columns_permuteBasis L ht]
  refine (hreach (L.getOutDimIndex newOutDims[t]) (by rwa [length_outWidths])).trans ?_
  rw [getD_eq_getElem _ 0 (by simpa using hidx)]
  simp only [getElem_map, RawLayout.getOutDimIndex, getElem_idxOf]
  rw [hnodup.idxOf_getElem t ht]

theorem transposeOuts_ok : ∃ L' : LinearLayout, L.transposeOuts f2 newOutDims = .ok L' ∧
    L'.toRawLayout = L.transposedOuts newOutDims := by
  have hnodup : newOutDims.Nodup := hperm.nodup_iff.mpr L.outDims.nodup
  have htotalIn : (L.transposedOuts newOutDims).getTotalInDimSizeLog2 =
      L.getTotalInDimSizeLog2 := by
    rw [← length_flatBases, flatBases_transposedOuts, length_map, length_flatBases]
  have htotalOut : (L.transposedOuts newOutDims).getTotalOutDimSizeLog2 =
      L.getTotalOutDimSizeLog2 := by
    rw [getTotalOutDimSizeLog2_eq, outWidths_transposedOuts L hnodup, (hperm.map _).sum_nat]
    rfl
  obtain ⟨L', hcreate, hraw⟩ := create_ok f2 (L.transposedOuts newOutDims) L.surjective
    (size_pow_transposedOuts L hperm) (basis_lt_transposedOuts L hperm)
    (htotalIn ▸ L.numCols_le) (htotalOut ▸ L.numRows_le) (onto_transposedOuts L hperm)
  refine ⟨L', ?_, hraw⟩
  have hdims : assertDimsEqualIgnoringOrder newOutDims L.getOutDimNames = .ok () := by
    rw [assertDimsEqualIgnoringOrder, if_pos]
    simp [hperm.mem_iff]
  rw [transposeOuts, hdims]
  exact hcreate

end Transpose

end TritonCpu
