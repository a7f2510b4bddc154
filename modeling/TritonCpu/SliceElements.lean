import TritonCpu.SliceRegisters

/-!
# The elements of a slice

A register, a lane, a warp and a block hold one element. Whatever the parent is,
the layout of a slice has, over all registers, the elements of the parent
without the coordinate that was taken away. It is made when the count of the
elements of a thread is a power of two that has room for the live registers.
-/

set_option autoImplicit false

namespace TritonCpu

open XorSpan LinearLayout List

/-- The sizes of a layout of a tensor, which has one dimension at least. -/
def layoutSizes (shape : List ℕ) : List ℕ := if shape = [] then [1] else shape

/-- A surjective layout of the registers, lanes, warps and blocks onto a tensor. -/
structure IsDistributedLayout (shape : List ℕ) (L : LinearLayout) : Prop where
  inDims : L.getInDimNames = ["register", "lane", "warp", "block"]
  outDims : L.outDims.entries =
    (standardOutDimNames (layoutSizes shape).length).zip (layoutSizes shape)
  surjective : L.surjective = true

section Held

variable (L : RawLayout) (rank lane warp block : ℕ)

def heldElement (reg : ℕ) : List ℕ :=
  (List.range rank).map fun dim => L.value (outDimName dim) (hardwareIndex reg lane warp block)

def heldElements : Set (List ℕ) :=
  {element | ∃ reg < 2 ^ L.getInDimSizeLog2 "register",
    heldElement L rank lane warp block reg = element}

theorem update_hardwareIndex (reg reg' : ℕ) :
    Function.update (hardwareIndex reg lane warp block) "register" reg' =
      hardwareIndex reg' lane warp block := by
  funext d
  by_cases hd : d = "register"
  · rw [hd, Function.update_self]
    rfl
  · rw [Function.update_of_ne hd, hardwareIndex, hardwareIndex, if_neg hd, if_neg hd]

variable {L rank lane warp block} {L' : RawLayout} {rank' : ℕ} {f : List ℕ → List ℕ}

theorem heldElements_subset (h : ∀ reg < 2 ^ L.getInDimSizeLog2 "register",
    ∃ reg' < 2 ^ L'.getInDimSizeLog2 "register", ∀ dim < rank,
      L'.value (outDimName dim) (hardwareIndex reg' lane warp block) =
        L.value (outDimName dim) (hardwareIndex reg lane warp block)) :
    heldElements L rank lane warp block ⊆ heldElements L' rank lane warp block := by
  rintro element ⟨reg, hreg, rfl⟩
  obtain ⟨reg', hreg', hvalue⟩ := h reg hreg
  refine ⟨reg', hreg', ?_⟩
  apply map_congr_left
  intro dim hdim
  exact hvalue dim (mem_range.mp hdim)

theorem eraseIdx_map_range {α : Type} {dim : ℕ} (hdim : dim ≤ rank) (g : ℕ → α) :
    ((List.range (rank + 1)).map g).eraseIdx dim =
      (List.range rank).map fun j => g (skip dim j) := by
  have hlt : dim < rank + 1 := by omega
  apply ext_getElem
  · simp [length_eraseIdx, hlt]
  · intro j hj hj'
    rw [getElem_eraseIdx]
    simp only [getElem_map, getElem_range, skip]
    split_ifs <;> rfl

end Held

section Dimensions

variable {shape : List ℕ} {L : LinearLayout}

theorem IsDistributedLayout.outNames (h : IsDistributedLayout shape L) :
    L.getOutDimNames = standardOutDimNames (layoutSizes shape).length := by
  rw [RawLayout.getOutDimNames, MapVector.keys, h.outDims, map_fst_zip]
  rw [standardOutDimNames, length_map, length_range]

theorem IsDistributedLayout.outSize (h : IsDistributedLayout shape L) {dim : ℕ}
    (hdim : dim < (layoutSizes shape).length) :
    2 ^ L.getOutDimSizeLog2 (outDimName dim) = (layoutSizes shape)[dim] := by
  have hmem : (outDimName dim, (layoutSizes shape)[dim]) ∈ L.outDims.entries := by
    rw [h.outDims]
    apply mem_of_getElem? (i := dim)
    rw [List.getElem?_zip_eq_some]
    exact ⟨by simp [standardOutDimNames, hdim], List.getElem?_eq_getElem hdim⟩
  rw [← size_eq_two_pow L.toRawLayout L.size_pow hmem]

theorem layoutSizes_insertIdx {dim : ℕ} (hdim : dim ≤ shape.length) :
    layoutSizes (shape.insertIdx dim 1) = shape.insertIdx dim 1 := by
  have hne : shape.insertIdx dim 1 ≠ [] := by
    rw [ne_eq, ← length_eq_zero_iff, length_insertIdx_of_le_length hdim]
    exact Nat.succ_ne_zero _
  rw [layoutSizes, if_neg hne]

theorem getElem_insertIdx_skip {dim j : ℕ} (hj : j < shape.length)
    (hskip : skip dim j < (shape.insertIdx dim 1).length) :
    (shape.insertIdx dim 1)[skip dim j] = shape[j] := by
  rw [getElem_insertIdx]
  simp only [skip]
  grind

theorem outDims_slice {P : LinearLayout} {dim : ℕ} (hdim : dim ≤ shape.length)
    (hP : IsDistributedLayout (shape.insertIdx dim 1) P) (h : HasSliceDims P dim shape.length L) :
    IsDistributedLayout shape L where
  inDims := h.inDims.trans hP.inDims
  surjective := h.surjective
  outDims := by
    have hlen : (layoutSizes shape).length = max 1 shape.length := by
      rw [layoutSizes]
      split_ifs with hnil
      · rw [hnil]
        rfl
      · have hpos := length_pos_of_ne_nil hnil
        omega
    rw [entries_outDims, h.outDims, hlen]
    apply ext_getElem
    · simp [standardOutDimNames, hlen]
    · intro j hj hj'
      simp only [standardOutDimNames, getElem_map, getElem_range, getElem_zip,
        Prod.mk.injEq, true_and]
      by_cases hnil : shape = []
      · have hzero : j = 0 := by
          simp [standardOutDimNames, hnil] at hj
          exact hj
        have hscalar := h.scalar (by rw [hnil]; rfl)
        simp only [hzero, hscalar, layoutSizes, hnil, if_true, Nat.pow_zero, getElem_cons_zero]
      · have hj' : j < shape.length := by
          have hpos := length_pos_of_ne_nil hnil
          simp [standardOutDimNames] at hj
          omega
        have hskip : skip dim j < (shape.insertIdx dim 1).length := by
          rw [length_insertIdx_of_le_length hdim]
          simp only [skip]
          grind
        have hsize := hP.outSize (by rwa [layoutSizes_insertIdx hdim])
        simp only [layoutSizes_insertIdx hdim] at hsize
        rw [h.outSize j hj', hsize]
        simp only [layoutSizes, if_neg hnil]
        exact getElem_insertIdx_skip hj' hskip

end Dimensions

section Slice

variable (f2 : F2Reduce) (slice : SliceEncodingAttr) (shape : List ℕ) (P : LinearLayout)

/-- The layout of a slice, as the parent's layout has it. -/
structure IsSliceLayout (L : LinearLayout) : Prop where
  distributed : IsDistributedLayout shape L
  inSize : ∀ d ∈ ["lane", "warp", "block"], L.getInDimSizeLog2 d = P.getInDimSizeLog2 d
  held : ∀ lane < 2 ^ P.getInDimSizeLog2 "lane", ∀ warp < 2 ^ P.getInDimSizeLog2 "warp",
    ∀ block < 2 ^ P.getInDimSizeLog2 "block",
      heldElements L.toRawLayout shape.length lane warp block =
        (fun element => element.eraseIdx slice.dim) ''
          heldElements P.toRawLayout (shape.length + 1) lane warp block
  registers : ∃ count, L.getInDimSize "register" = .ok count ∧
    slice.getTotalElemsPerThread shape = .ok count

/-- The count is a power of two with room for the live registers of the parent,
and the layout with this many registers is not too large. -/
def CountFits : Prop :=
  ∃ bits < 31, slice.getTotalElemsPerThread shape = .ok (2 ^ bits) ∧
    (liveRegisterBits P.toRawLayout slice.dim).length ≤ bits ∧
    bits + P.getInDimSizeLog2 "lane" + P.getInDimSizeLog2 "warp" +
      P.getInDimSizeLog2 "block" ≤ 64

variable {slice shape P} (hdim : slice.dim ≤ shape.length)
  (hparent : slice.parent.toLinearLayout (shape.insertIdx slice.dim 1) = .ok (some P))
  (hP : IsDistributedLayout (shape.insertIdx slice.dim 1) P)

include hdim hP

omit hdim in
theorem outNames_parent (hdim : slice.dim ≤ shape.length) :
    P.getOutDimNames = standardOutDimNames (shape.length + 1) := by
  rw [hP.outNames, layoutSizes_insertIdx hdim, length_insertIdx_of_le_length hdim]

include hparent

theorem toLinearLayout_eq : ∃ C R : LinearLayout, IsSlice P slice.dim shape.length C ∧
    R.toRawLayout = liveLayout C.toRawLayout ∧ R.surjective = true ∧
    slice.toLinearLayout f2 shape = (do
      let count ← slice.getTotalElemsPerThread shape
      let L ← padRegisters f2 R (int32 count)
      pure (some L)) := by
  obtain ⟨T, C, hT, hC, hslice⟩ := compose_transform_ok f2 slice
    (outNames_parent hP hdim) hdim hP.surjective
  have hregister : "register" ∈ C.getInDimNames := by
    rw [hslice.inDims, hP.inDims]
    exact mem_cons_self
  obtain ⟨R, hR, hraw, hsurj⟩ := dropZeroRegisters_ok f2 hregister hslice.surjective
  refine ⟨C, R, hslice, hraw, hsurj, ?_⟩
  rw [SliceEncodingAttr.toLinearLayout, SliceEncodingAttr.parentShape, if_pos hdim, ok_bind, hparent,
    ok_bind]
  simp only [hT, ok_bind, hC, hR]

end Slice

section Steps

variable {P C R L : LinearLayout} {dim rank : ℕ} (lane warp block : ℕ)

theorem heldElements_slice (hdim : dim ≤ rank) (h : IsSlice P dim rank C) :
    heldElements C.toRawLayout rank lane warp block =
      (fun element => element.eraseIdx dim) ''
        heldElements P.toRawLayout (rank + 1) lane warp block := by
  have helement : ∀ reg, heldElement C.toRawLayout rank lane warp block reg =
      (heldElement P.toRawLayout (rank + 1) lane warp block reg).eraseIdx dim := by
    intro reg
    rw [heldElement, heldElement, eraseIdx_map_range hdim]
    apply map_congr_left
    intro j hj
    exact h.value j (mem_range.mp hj) _
  ext element
  constructor
  · rintro ⟨reg, hreg, rfl⟩
    rw [h.inSize] at hreg
    exact ⟨_, ⟨reg, hreg, rfl⟩, (helement reg).symm⟩
  · rintro ⟨_, ⟨reg, hreg, rfl⟩, rfl⟩
    rw [← h.inSize] at hreg
    exact ⟨reg, hreg, helement reg⟩

theorem heldElements_liveLayout (hregister : "register" ∈ C.getInDimNames) :
    heldElements (liveLayout C.toRawLayout) rank lane warp block =
      heldElements C.toRawLayout rank lane warp block := by
  have hlog : C.getInDimSizeLog2 "register" = (registerBases C.toRawLayout).length := rfl
  have hlive : (liveLayout C.toRawLayout).getInDimSizeLog2 "register" =
      ((registerBases C.toRawLayout).filter live).length := by
    rw [getInDimSizeLog2_liveLayout, if_pos rfl]
  apply Set.Subset.antisymm
  · apply heldElements_subset
    intro reg _
    refine ⟨spreadBits live (registerBases C.toRawLayout) reg, ?_, fun j _ => ?_⟩
    · rw [hlog]
      exact spreadBits_lt live _ _
    · rw [← value_spreadBits hregister, update_hardwareIndex]
      rfl
  · apply heldElements_subset
    intro reg _
    refine ⟨keepBits live (registerBases C.toRawLayout) reg, ?_, fun j _ => ?_⟩
    · rw [hlive]
      exact keepBits_lt live _ _
    · rw [← value_keepBits hregister, update_hardwareIndex]
      rfl

theorem heldElements_padded {bits : ℕ} (hle : R.getInDimSizeLog2 "register" ≤ bits)
    (h : IsPadded R bits L) : heldElements L.toRawLayout rank lane warp block =
      heldElements R.toRawLayout rank lane warp block := by
  apply Set.Subset.antisymm
  · apply heldElements_subset
    intro reg _
    refine ⟨reg % 2 ^ R.getInDimSizeLog2 "register", Nat.mod_lt _ (Nat.two_pow_pos _),
      fun j _ => ?_⟩
    rw [h.value]
    apply value_mod
    intro d _
    by_cases hd : d = "register"
    · rw [hd]
      exact Nat.mod_mod _ _
    · rw [hardwareIndex, hardwareIndex, if_neg hd, if_neg hd]
  · apply heldElements_subset
    intro reg hreg
    refine ⟨reg, ?_, fun j _ => h.value _ _⟩
    rw [h.registers]
    exact hreg.trans_le (Nat.pow_le_pow_right (by omega) hle)

end Steps

section Result

variable (f2 : F2Reduce) {slice : SliceEncodingAttr} {shape : List ℕ} {P : LinearLayout}
  (hdim : slice.dim ≤ shape.length)
  (hparent : slice.parent.toLinearLayout (shape.insertIdx slice.dim 1) = .ok (some P))
  (hP : IsDistributedLayout (shape.insertIdx slice.dim 1) P)

include hdim hparent hP

/-- Where the count fits, the slice has a layout with the elements of the parent.
No dimension is reached by more registers than before. -/
theorem slice_of_countFits (h : CountFits slice shape P) : ∃ L : LinearLayout,
    slice.toLinearLayout f2 shape = .ok (some L) ∧ IsSliceLayout slice shape P L ∧
    ∀ j < shape.length,
      registersAt L.toRawLayout j ≤ registersAt P.toRawLayout (skip slice.dim j) := by
  obtain ⟨C, R, hslice, hraw, hsurj, heq⟩ := toLinearLayout_eq f2 hdim hparent hP
  obtain ⟨bits, hbits, htotal, hlive, hcols⟩ := h
  have hregister : "register" ∈ C.getInDimNames := by
    rw [hslice.inDims, hP.inDims]
    exact mem_cons_self
  have hins : R.getInDimNames = ["register", "lane", "warp", "block"] := by
    rw [hraw, getInDimNames_liveLayout hregister, hslice.inDims, hP.inDims]
  have hsize : ∀ d, R.getInDimSizeLog2 d = if d = "register" then
      (liveRegisterBits P.toRawLayout slice.dim).length else P.getInDimSizeLog2 d := by
    intro d
    rw [hraw, getInDimSizeLog2_liveLayout, length_filter_live (outNames_parent hP hdim) hdim hslice,
      hslice.inSize]
  have houts : R.getOutDimNames = C.getOutDimNames := hraw ▸ rfl
  have hle : R.getInDimSizeLog2 "register" ≤ bits := by
    rw [hsize, if_pos rfl]
    exact hlive
  have hroom : R.getTotalInDimSizeLog2 + (bits - R.getInDimSizeLog2 "register") ≤ 64 := by
    have htotal : R.getTotalInDimSizeLog2 = R.getInDimSizeLog2 "register" +
        (P.getInDimSizeLog2 "lane" + (P.getInDimSizeLog2 "warp" + P.getInDimSizeLog2 "block")) := by
      rw [RawLayout.getTotalInDimSizeLog2, hins]
      simp [hsize]
    omega
  obtain ⟨L, hpadded, hpad⟩ := padRegisters_ok f2 hsurj (by rw [hins]; exact mem_cons_self)
    (by
      rw [houts, hslice.outDims, outDimName_mem]
      omega)
    hbits hle hroom
  have hlog : ∀ o, L.getOutDimSizeLog2 o = C.getOutDimSizeLog2 o := fun o => by
    rw [hpad.outSize, hraw]
    rfl
  refine ⟨L, ?_, ⟨?_, ?_, ?_, ?_⟩, ?_⟩
  · rw [heq, htotal, ok_bind, int32_bits hbits, hpadded, ok_bind]
    rfl
  · apply outDims_slice hdim hP
    exact ⟨by rw [hpad.inDims, hins, hP.inDims], by rw [hpad.outDims, houts, hslice.outDims],
      fun j hj => (hlog _).trans (hslice.outSize j hj), fun hrank => (hlog _).trans
        (hslice.scalar hrank), hpad.surjective⟩
  · intro d hd
    have hne : d ≠ "register" := by
      rintro rfl
      simp at hd
    rw [hpad.inSize d hne, hsize, if_neg hne]
  · intro lane _ warp _ block _
    rw [heldElements_padded lane warp block hle hpad, hraw,
      heldElements_liveLayout lane warp block hregister, heldElements_slice lane warp block hdim hslice]
  · refine ⟨2 ^ bits, ?_, htotal⟩
    rw [RawLayout.getInDimSize, hpad.registers]
    exact shiftOne_ok hbits
  · intro j hj
    calc registersAt L.toRawLayout j
        ≤ registersAt R.toRawLayout j :=
          registersAt_padded hpad (by rw [hins]; exact mem_cons_self) hle j
      _ ≤ registersAt C.toRawLayout j := hraw ▸ registersAt_liveLayout C.toRawLayout j
      _ = registersAt P.toRawLayout (skip slice.dim j) := registersAt_slice hslice hj

theorem countFits_of_slice {L : LinearLayout} (hL : slice.toLinearLayout f2 shape = .ok (some L))
    (h : IsSliceLayout slice shape P L) : CountFits slice shape P := by
  obtain ⟨C, R, hslice, hraw, hsurj, heq⟩ := toLinearLayout_eq f2 hdim hparent hP
  obtain ⟨count, hcount, htotal⟩ := h.registers
  obtain ⟨hbits, hpow⟩ := shiftOne_eq_ok hcount
  rw [heq, htotal, ok_bind] at hL
  obtain ⟨L', hpad, hL'⟩ := bind_eq_ok hL
  have hsame : L' = L := Option.some.inj (Except.ok.inj hL')
  have hle := le_of_padRegisters f2 hpad
  rw [hsame, hraw, getInDimSizeLog2_liveLayout, if_pos rfl,
    length_filter_live (outNames_parent hP hdim) hdim hslice] at hle
  refine ⟨L.getInDimSizeLog2 "register", hbits, hpow ▸ htotal, hle, ?_⟩
  have hcols : L.getTotalInDimSizeLog2 = L.getInDimSizeLog2 "register" +
      (P.getInDimSizeLog2 "lane" + (P.getInDimSizeLog2 "warp" + P.getInDimSizeLog2 "block")) := by
    rw [RawLayout.getTotalInDimSizeLog2, h.distributed.inDims]
    simp [h.inSize]
  have hroom : L.getTotalInDimSizeLog2 ≤ 64 := L.numCols_le
  omega

end Result

end TritonCpu
