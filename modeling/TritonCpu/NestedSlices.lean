import TritonCpu.SliceElements

/-!
# Slices of blocked encodings

A slice can be the parent of another slice. The counts of the elements stay
powers of two that bound the registers of each dimension, so a slice of a
blocked encoding has a layout, however many dimensions were taken away before.
A dot operand of the NVIDIA encodings has a layout but no such counts.
-/

set_option autoImplicit false

namespace TritonCpu

open XorSpan LinearLayout List

/-- A layout whose registers are counted along each dimension. -/
structure CountedLayout (enc : DistributedEncoding) (shape : List ℕ) (L : LinearLayout)
    (bits : ℕ → ℕ) : Prop where
  layout : enc.toLinearLayout shape = .ok (some L)
  distributed : IsDistributedLayout shape L
  elems : enc.getElemsPerThread shape =
    .ok ((List.range shape.length).map fun dim => 2 ^ bits dim)
  registers : L.getInDimSizeLog2 "register" = ((List.range shape.length).map bits).sum
  small : L.getInDimSizeLog2 "register" < 31
  counted : ∀ dim < shape.length, registersAt L.toRawLayout dim ≤ bits dim

section Slice

variable (f2 : F2Reduce) {slice : SliceEncodingAttr} {shape : List ℕ} {P : LinearLayout}
  {bits : ℕ → ℕ}

theorem prod_two_pow (bits : ℕ → ℕ) (l : List ℕ) : (l.map fun dim => 2 ^ bits dim).prod = 2 ^ (l.map bits).sum := by
  induction l with
  | nil => rfl
  | cons d l ih => rw [map_cons, prod_cons, ih, map_cons, sum_cons, Nat.pow_add]

theorem unsigned_two_pow {k : ℕ} (hk : k < 31) : unsigned (2 ^ k) = 2 ^ k :=
  Nat.mod_eq_of_lt (Nat.pow_lt_pow_right (by omega) (by omega))

theorem paddedShape_ok (hdim : slice.dim ≤ shape.length) :
    slice.paddedShape shape = .ok (shape.insertIdx slice.dim 1) := by
  have hentry : ∀ d ∈ List.range (shape.length + 1),
      (if d < slice.dim then elementAt shape d
        else if d = slice.dim then .ok 1 else elementAt shape (d - 1)) =
        Except.ok ((shape.insertIdx slice.dim 1).getD d 0) := by
    intro d hd
    have hlt : d < (shape.insertIdx slice.dim 1).length := by
      rw [length_insertIdx_of_le_length hdim]
      exact mem_range.mp hd
    rw [getD_eq_getElem _ _ hlt, getElem_insertIdx]
    rw [mem_range] at hd
    split_ifs with hbelow heq
    · rw [elementAt, List.getElem?_eq_getElem (by omega)]
    · rfl
    · rw [elementAt, List.getElem?_eq_getElem (by omega)]
  rw [SliceEncodingAttr.paddedShape, mapM_ok hentry]
  congr 1
  have hlen := length_insertIdx_of_le_length hdim 1
  apply ext_getElem (by simp [hlen])
  intro d hd hd'
  rw [getElem_map, getElem_range, getD_eq_getElem _ _ hd']

variable (hdim : slice.dim ≤ shape.length)
  (h : CountedLayout slice.parent (shape.insertIdx slice.dim 1) P bits)

include hdim h

theorem elems_slice : slice.getElemsPerThread shape =
    .ok ((List.range shape.length).map fun j => 2 ^ bits (skip slice.dim j)) := by
  have hlen := length_insertIdx_of_le_length hdim 1
  have hlt : slice.dim < ((List.range (shape.length + 1)).map fun dim => 2 ^ bits dim).length := by
    simp only [length_map, length_range]
    omega
  rw [SliceEncodingAttr.getElemsPerThread, paddedShape_ok hdim, ok_bind, h.elems, ok_bind, hlen,
    if_pos hlt, eraseIdx_map_range hdim]
  rfl

theorem sum_slice_le : ((List.range shape.length).map fun j => bits (skip slice.dim j)).sum ≤
    P.getInDimSizeLog2 "register" := by
  rw [h.registers, length_insertIdx_of_le_length hdim, ← eraseIdx_map_range hdim]
  exact (eraseIdx_sublist _ _).sum_le_sum fun _ _ => Nat.zero_le _

theorem total_slice : slice.getTotalElemsPerThread shape =
    .ok (2 ^ ((List.range shape.length).map fun j => bits (skip slice.dim j)).sum) := by
  have hsmall := (sum_slice_le hdim h).trans_lt h.small
  rw [SliceEncodingAttr.getTotalElemsPerThread, elems_slice hdim h, ok_bind, product32,
    prod_two_pow fun j => bits (skip slice.dim j), unsigned_two_pow hsmall]
  rfl

theorem countFits_of_counted : CountFits slice shape P := by
  have hle := sum_slice_le hdim h
  have hnames := outNames_parent h.distributed hdim
  have hlive : ((List.range shape.length).map fun j =>
      registersAt P.toRawLayout (skip slice.dim j)).sum ≤
        ((List.range shape.length).map fun j => bits (skip slice.dim j)).sum := by
    apply sum_le_sum
    intro j hj
    apply h.counted
    rw [length_insertIdx_of_le_length hdim]
    rw [mem_range] at hj
    simp only [skip]
    grind
  refine ⟨_, hle.trans_lt h.small, total_slice hdim h,
    (length_liveRegisterBits_le hnames hdim).trans hlive, ?_⟩
  have hcols : P.getTotalInDimSizeLog2 = P.getInDimSizeLog2 "register" +
      (P.getInDimSizeLog2 "lane" + (P.getInDimSizeLog2 "warp" + P.getInDimSizeLog2 "block")) := by
    rw [RawLayout.getTotalInDimSizeLog2, h.distributed.inDims]
    simp
  have hroom : P.getTotalInDimSizeLog2 ≤ 64 := P.numCols_le
  omega

theorem slice_counted : ∃ L : LinearLayout, IsSliceLayout slice shape P L ∧
    CountedLayout (slice.distributed f2) shape L fun j => bits (skip slice.dim j) := by
  obtain ⟨L, hL, hslice, hcounted⟩ := slice_of_countFits f2 hdim h.layout h.distributed
    (countFits_of_counted hdim h)
  obtain ⟨count, hcount, htotal⟩ := hslice.registers
  have hpow := (shiftOne_eq_ok hcount).2
  have hsum : L.getInDimSizeLog2 "register" =
      ((List.range shape.length).map fun j => bits (skip slice.dim j)).sum := by
    rw [total_slice hdim h] at htotal
    exact Nat.pow_right_injective (le_refl 2) (hpow.symm.trans (Except.ok.inj htotal).symm)
  refine ⟨L, hslice, hL, hslice.distributed, elems_slice hdim h, hsum, ?_, fun j hj => ?_⟩
  · rw [hsum]
    exact (sum_slice_le hdim h).trans_lt h.small
  · apply (hcounted j hj).trans
    apply h.counted
    rw [length_insertIdx_of_le_length hdim]
    simp only [skip]
    grind

end Slice

section Window

variable {sizes : ℕ → ℕ} {bits : String → ℕ}

theorem digit_zero (order : List ℕ) (dim : ℕ) : digit sizes order dim 0 = 0 := by
  induction order with
  | nil => rfl
  | cons d order ih => rw [digit, Nat.zero_mod, Nat.zero_div, ih, ite_self]

theorem ceil32_two_pow {p t : ℕ} (hp : p < 31) (ht : t < 31) :
    ceil32 (2 ^ p) (2 ^ t) = .ok (2 ^ (p - t)) := by
  have hpow : (2 : ℕ) ^ p < 2 ^ 31 := Nat.pow_lt_pow_right (by omega) hp
  have htow : (2 : ℕ) ^ t < 2 ^ 31 := Nat.pow_lt_pow_right (by omega) ht
  have hpos := Nat.two_pow_pos t
  have hwrap : unsigned (2 ^ p + 2 ^ t - 1) = 2 ^ p + 2 ^ t - 1 := Nat.mod_eq_of_lt (by omega)
  rw [ceil32, if_neg hpos.ne', hwrap]
  congr 1
  obtain hle | hlt := le_or_gt t p
  · have hsplit : 2 ^ p = 2 ^ t * 2 ^ (p - t) := by
      rw [← Nat.pow_add, Nat.add_sub_cancel' hle]
    rw [hsplit, Nat.add_sub_assoc hpos, Nat.mul_add_div hpos, Nat.div_eq_of_lt (by omega),
      Nat.add_zero]
  · have hless : 2 ^ p < 2 ^ t := Nat.pow_lt_pow_right (by omega) hlt
    have hsome := Nat.two_pow_pos p
    rw [Nat.sub_eq_zero_of_le hlt.le, Nat.pow_zero]
    exact Nat.div_eq_of_lt_le (by omega) (by omega)

/-- One bit of a number has its digit in one dimension only: the input bits that
reach a dimension follow each other. -/
theorem digit_two_pow (order : List ℕ) (h : ∀ d ∈ order, sizes d = 2 ^ bits (outDimName d))
    (dim : ℕ) : ∃ first, ∀ i, digit sizes order dim (2 ^ i) ≠ 0 →
      first ≤ i ∧ i < first + bits (outDimName dim) := by
  induction order with
  | nil => exact ⟨0, fun i hne => absurd rfl hne⟩
  | cons d order ih =>
    obtain ⟨first, hfirst⟩ := ih fun d' hd' => h d' (mem_cons_of_mem _ hd')
    have hd := h d mem_cons_self
    by_cases heq : d = dim
    · refine ⟨0, fun i hne => ⟨Nat.zero_le i, ?_⟩⟩
      by_contra hge
      have hdvd : 2 ^ bits (outDimName dim) ∣ 2 ^ i := Nat.pow_dvd_pow 2 (by omega)
      rw [digit, if_pos heq, hd, heq] at hne
      exact hne (Nat.mod_eq_zero_of_dvd hdvd)
    · refine ⟨bits (outDimName d) + first, fun i hne => ?_⟩
      rw [digit, if_neg heq, hd] at hne
      obtain hlt | hle := Nat.lt_or_ge i (bits (outDimName d))
      · rw [Nat.div_eq_of_lt (Nat.pow_lt_pow_right (by omega) hlt)] at hne
        exact absurd (digit_zero order dim) hne
      · rw [Nat.pow_div hle (by omega)] at hne
        have hwindow := hfirst _ hne
        omega

end Window

section Blocked

variable (f2 : F2Reduce) {enc : BlockedEncodingAttr} {shape : List ℕ} {L : LinearLayout} {dim : ℕ}

/-- The bits of the elements that a thread holds along a dimension. -/
def BlockedEncodingAttr.elemBits (enc : BlockedEncodingAttr) (shape : List ℕ) (dim : ℕ) : ℕ :=
  bitsOf shape.length enc.sizePerThread (outDimName dim) + enc.missingBits shape (outDimName dim)

theorem coordinate_eq_zero {reg : ℕ}
    (hreg : digit (enc.sizePerThread.getD · 1) enc.order dim reg = 0)
    (hrep : digit (enc.repetitions shape) enc.order dim
      (reg / dimProduct shape.length (enc.sizePerThread.getD · 1)) = 0) :
    enc.coordinate shape reg 0 0 0 dim = 0 := by
  simp only [BlockedEncodingAttr.coordinate, hreg, hrep, digit_zero, Nat.zero_mod, Nat.zero_mul,
    Nat.mul_zero, Nat.add_zero]

variable (h : enc.WellFormed shape)
  (hL : Describes L (combinedSpec shape.length shape enc.CTALayout (enc.tileSpec shape.length)))

include h hL

theorem registersAt_blocked (hne : shape ≠ []) (hdim : dim < shape.length) :
    registersAt L.toRawLayout dim ≤ enc.elemBits shape dim := by
  have hlt : ∀ d ∈ enc.order, d < shape.length := fun d hd =>
    mem_range.mp (h.order.mem_iff.mp hd)
  have hproduct : dimProduct shape.length (enc.sizePerThread.getD · 1) =
      2 ^ totalBits shape.length (bitsOf shape.length enc.sizePerThread) :=
    dimProduct_eq fun d hd => getD_eq_bits hd h.sizePerThread
  have hregister : "register" ∈ L.getInDimNames := by
    rw [inDims_of_describes h hL, if_neg hne]
    exact mem_cons_self
  obtain ⟨regFirst, hreg⟩ := digit_two_pow enc.order
    (fun d hd => getD_eq_bits (hlt d hd) h.sizePerThread) dim
  obtain ⟨repFirst, hrep⟩ := digit_two_pow enc.order
    (fun d hd => repetitions_eq h (hlt d hd)) dim
  have hbasis : ∀ i, L.getBasis "register" i (outDimName dim) =
      enc.coordinate shape (2 ^ i) 0 0 0 dim := by
    intro i
    rw [← value_basis L.toRawLayout hregister, hL.value, value_combinedSpec h hdim]
    rfl
  -- a register bit is in the window of the thread or in that of the repetitions
  have hwindow : ((List.range (L.getInDimSizeLog2 "register")).filter fun i =>
      L.getBasis "register" i (outDimName dim) ≠ 0) ⊆
        List.range' regFirst (bitsOf shape.length enc.sizePerThread (outDimName dim)) ++
          List.range' (totalBits shape.length (bitsOf shape.length enc.sizePerThread) + repFirst)
            (enc.missingBits shape (outDimName dim)) := by
    intro i hi
    rw [mem_filter, decide_eq_true_eq, hbasis] at hi
    rw [mem_append, mem_range'_1, mem_range'_1]
    by_cases hthread : digit (enc.sizePerThread.getD · 1) enc.order dim (2 ^ i) = 0
    · right
      have hrest : digit (enc.repetitions shape) enc.order dim
          (2 ^ i / dimProduct shape.length (enc.sizePerThread.getD · 1)) ≠ 0 := fun hzero =>
        hi.2 (coordinate_eq_zero hthread hzero)
      rw [hproduct] at hrest
      obtain hsmall | hle := Nat.lt_or_ge i
        (totalBits shape.length (bitsOf shape.length enc.sizePerThread))
      · rw [Nat.div_eq_of_lt (Nat.pow_lt_pow_right (by omega) hsmall)] at hrest
        exact absurd (digit_zero _ _) hrest
      · rw [Nat.pow_div hle (by omega)] at hrest
        have hbounds := hrep _ hrest
        omega
    · exact Or.inl (hreg i hthread)
  have hnodup : ((List.range (L.getInDimSizeLog2 "register")).filter fun i =>
      L.getBasis "register" i (outDimName dim) ≠ 0).Nodup := List.nodup_range.filter _
  have hcount := (subperm_of_subset hnodup hwindow).length_le
  rw [length_append, length_range', length_range'] at hcount
  rw [registersAt, RawLayout.dimColumn, countP_map, countP_eq_length_filter]
  exact hcount

omit hL in
theorem elemsAt_ok (hfits : enc.Fits shape) (hdim : dim < shape.length)
    (hbits : enc.elemBits shape dim < 31) :
    enc.elemsAt shape dim = .ok (2 ^ enc.elemBits shape dim) := by
  have hlt : ∀ {k : ℕ}, 2 ^ k < 2 ^ 31 → k < 31 := fun hpow =>
    (Nat.pow_lt_pow_iff_right (by omega)).mp hpow
  have hshape := hfits.shapeSize dim hdim
  rw [getD_eq_bits hdim h.shapePow] at hshape
  have htile := hfits.tile dim hdim
  rw [tileSize_eq h hdim] at htile
  have hpart := shapePerCTA_eq h hdim
  rw [BlockedEncodingAttr.shapePerCTA, BlockedEncodingAttr.parts,
    getD_eq_bits hdim h.CTALayout.CTASplitNum, getD_eq_bits hdim h.shapePow, Nat.min_comm] at hpart
  have hctaLt : perCtaOf shape.length shape enc.CTALayout (outDimName dim) < 31 :=
    (Nat.sub_le _ _).trans_lt (hlt hshape)
  have hcta : shapePerCTAOf enc.CTALayout.CTASplitNum shape dim =
      .ok (2 ^ perCtaOf shape.length shape enc.CTALayout (outDimName dim)) := by
    rw [shapePerCTAOf, h.shapePow.elementAt_eq hdim, ok_bind,
      h.CTALayout.CTASplitNum.elementAt_eq hdim, ok_bind, unsigned_two_pow (hlt hshape), if_neg]
    · exact congrArg Except.ok hpart
    · have hpos := Nat.two_pow_pos (bitsOf shape.length shape (outDimName dim))
      have hpos' := Nat.two_pow_pos (bitsOf shape.length enc.CTALayout.CTASplitNum (outDimName dim))
      omega
  have hthread : 2 ^ bitsOf shape.length enc.sizePerThread (outDimName dim) *
      2 ^ bitsOf shape.length enc.threadsPerWarp (outDimName dim) *
      2 ^ bitsOf shape.length enc.warpsPerCTA (outDimName dim) =
        2 ^ enc.tileBits shape.length (outDimName dim) := by
    rw [← Nat.pow_add, ← Nat.pow_add]
    rfl
  have helems : 2 ^ (perCtaOf shape.length shape enc.CTALayout (outDimName dim) -
      enc.tileBits shape.length (outDimName dim)) *
      2 ^ bitsOf shape.length enc.sizePerThread (outDimName dim) = 2 ^ enc.elemBits shape dim := by
    rw [← missingBits_eq h hdim, Nat.mul_comm, ← Nat.pow_add]
    rfl
  rw [BlockedEncodingAttr.elemsAt, hcta, ok_bind, h.sizePerThread.elementAt_eq hdim, ok_bind,
    h.threadsPerWarp.elementAt_eq hdim, ok_bind, h.warpsPerCTA.elementAt_eq hdim, ok_bind, hthread,
    unsigned_two_pow (hlt htile), unsigned_two_pow hctaLt]
  simp only [ceil32_two_pow hctaLt (hlt htile), ok_bind, helems, unsigned_two_pow hbits]
  rfl

theorem registers_blocked : L.getInDimSizeLog2 "register" =
    ((List.range shape.length).map (enc.elemBits shape)).sum := by
  rw [hL.inSize, inLog_combinedSpec, inLog_ctaSpec h, inLog_tileSpec h, if_pos rfl,
    if_neg (by decide), if_neg (by decide), if_pos rfl, if_neg (by decide)]
  simp only [Nat.add_zero, totalBits, standardOutDimNames, map_map]
  exact sum_map_add.symm

theorem counted_of_describes (hne : shape ≠ []) (hfits : enc.Fits shape)
    (hregisters : enc.registers shape < 2 ^ 31) (hlayout : enc.toLinearLayout f2 shape = .ok L) :
    CountedLayout (enc.distributed f2) shape L (enc.elemBits shape) := by
  have hsmall : L.getInDimSizeLog2 "register" < 31 := by
    rw [← registers_of_describes h hL] at hregisters
    exact (Nat.pow_lt_pow_iff_right (by omega)).mp hregisters
  have hblocked := isBlockedLayout_of_describes h hL
  refine ⟨?_, ⟨?_, ?_, hblocked.surjective⟩, ?_, registers_blocked h hL, hsmall, fun d hd =>
    registersAt_blocked h hL hne hd⟩
  · change (enc.toLinearLayout f2 shape >>= _) = _
    rw [hlayout]
    rfl
  · rw [hblocked.inDims, if_neg hne]
  · rw [hblocked.outDims, layoutSizes, if_neg hne]
  · have hlen : (shape.length == enc.sizePerThread.length) = true := by
      rw [h.sizePerThread.length, beq_self_eq_true]
    change enc.getElemsPerThread shape = _
    rw [BlockedEncodingAttr.getElemsPerThread, assertThat_ok hlen, ok_bind]
    apply mapM_ok
    intro d hd
    have hle : enc.elemBits shape d ≤ L.getInDimSizeLog2 "register" := by
      rw [registers_blocked h hL]
      exact single_le_sum (fun _ _ => Nat.zero_le _) _ (mem_map_of_mem hd)
    exact elemsAt_ok h hfits (mem_range.mp hd) (hle.trans_lt hsmall)

end Blocked

section Nested

variable (f2 : F2Reduce)

/-- A blocked encoding of fewer than `2 ^ 31` registers, or a slice of a slice of one. -/
inductive SliceOfBlocked : DistributedEncoding → List ℕ → Prop
  | blocked (enc : BlockedEncodingAttr) (shape : List ℕ) (wellFormed : enc.WellFormed shape)
      (fits : enc.Fits shape) (nonempty : shape ≠ []) (registers : enc.registers shape < 2 ^ 31) :
      SliceOfBlocked (enc.distributed f2) shape
  | slice (slice : SliceEncodingAttr) (shape : List ℕ) (inside : slice.dim ≤ shape.length)
      (parent : SliceOfBlocked slice.parent (shape.insertIdx slice.dim 1)) :
      SliceOfBlocked (slice.distributed f2) shape

variable {f2}

theorem counted_of_sliceOfBlocked {enc : DistributedEncoding} {shape : List ℕ}
    (h : SliceOfBlocked f2 enc shape) : ∃ L bits, CountedLayout enc shape L bits := by
  induction h with
  | blocked enc shape wellFormed fits nonempty registers =>
    obtain ⟨L, hlayout, hL⟩ := toLinearLayout_describes f2 wellFormed fits
    exact ⟨L, _, counted_of_describes f2 wellFormed hL nonempty fits registers hlayout⟩
  | slice slice shape inside _ ih =>
    obtain ⟨P, bits, hP⟩ := ih
    obtain ⟨L, -, hL⟩ := slice_counted f2 inside hP
    exact ⟨L, _, hL⟩

/-- Every slice of these has a layout with the elements of its parent. -/
theorem slice_of_blocked {slice : SliceEncodingAttr} {shape : List ℕ}
    (hdim : slice.dim ≤ shape.length)
    (h : SliceOfBlocked f2 slice.parent (shape.insertIdx slice.dim 1)) : ∃ P L : LinearLayout,
      slice.parent.toLinearLayout (shape.insertIdx slice.dim 1) = .ok (some P) ∧
      slice.toLinearLayout f2 shape = .ok (some L) ∧ IsSliceLayout slice shape P L := by
  obtain ⟨P, bits, hP⟩ := counted_of_sliceOfBlocked h
  obtain ⟨L, hL, hslice, -⟩ := slice_of_countFits f2 hdim hP.layout hP.distributed
    (countFits_of_counted hdim hP)
  exact ⟨P, L, hP.layout, hL, hslice⟩

variable (f2)

/-- The slice of a parent with a layout has one with the elements and the count
exactly when the count is defined and leaves room for the live registers. -/
theorem slice_toLinearLayout_iff (slice : SliceEncodingAttr) (shape : List ℕ) (P : LinearLayout)
    (hdim : slice.dim ≤ shape.length)
    (hparent : slice.parent.toLinearLayout (shape.insertIdx slice.dim 1) = .ok (some P))
    (hP : IsDistributedLayout (shape.insertIdx slice.dim 1) P) :
    (∃ L : LinearLayout, slice.toLinearLayout f2 shape = .ok (some L) ∧
      IsSliceLayout slice shape P L) ↔ CountFits slice shape P := by
  constructor
  · rintro ⟨L, hL, hslice⟩
    exact countFits_of_slice f2 hdim hparent hP hL hslice
  · intro h
    obtain ⟨L, hL, hslice, -⟩ := slice_of_countFits f2 hdim hparent hP h
    exact ⟨L, hL, hslice⟩

/-- The first dimension of a blocked encoding, whose registers are all along the
dimension that is taken away. -/
def firstOfBlocks : SliceEncodingAttr := ⟨1, fourBlocks.distributed f2reduce⟩

theorem fourBlocks_wellFormed_column : fourBlocks.WellFormed [2, 1] where
  sizePerThread := powersOfTwo_of_bits [0, 1] rfl
  threadsPerWarp := powersOfTwo_of_bits [1, 1] rfl
  warpsPerCTA := powersOfTwo_of_bits [1, 0] rfl
  order := by decide
  CTALayout := ⟨powersOfTwo_of_bits [1, 1] rfl, powersOfTwo_of_bits [0, 1] rfl, by decide,
    by decide⟩
  shapePow := powersOfTwo_of_bits [1, 0] rfl

theorem slice_toLinearLayout_iff_blocks : ∃ P L : LinearLayout,
    firstOfBlocks.parent.toLinearLayout [2, 1] = .ok (some P) ∧
    firstOfBlocks.toLinearLayout f2reduce [2] = .ok (some L) ∧
    IsSliceLayout firstOfBlocks [2] P L := by
  obtain ⟨P, bits, hP⟩ := counted_of_sliceOfBlocked (SliceOfBlocked.blocked fourBlocks [2, 1]
    fourBlocks_wellFormed_column ⟨by decide, by decide, by decide, by decide⟩ (by decide)
    (by decide))
  have hdim : firstOfBlocks.dim ≤ [2].length := by decide
  obtain ⟨L, hL, hslice⟩ := (slice_toLinearLayout_iff f2reduce firstOfBlocks [2] P hdim hP.layout
    hP.distributed).mpr (countFits_of_counted hdim hP)
  exact ⟨P, L, hP.layout, hL, hslice⟩

theorem slice_of_blocked_twice : ∃ P L : LinearLayout,
    firstOfBlocks.toLinearLayout f2reduce [1] = .ok (some P) ∧
    SliceEncodingAttr.toLinearLayout f2reduce ⟨0, firstOfBlocks.distributed f2reduce⟩ [] =
      .ok (some L) ∧ IsSliceLayout ⟨0, firstOfBlocks.distributed f2reduce⟩ [] P L :=
  @slice_of_blocked f2reduce ⟨0, firstOfBlocks.distributed f2reduce⟩ [] (Nat.le_refl 0) <|
    .slice firstOfBlocks [1] (by decide) <| .blocked fourBlocks [1, 1]
      { fourBlocks_wellFormed_column with shapePow := powersOfTwo_of_bits [0, 0] rfl }
      ⟨by decide, by decide, by decide, by decide⟩ (by decide) (by decide)

/-- There is no count for a dot operand of the NVIDIA encodings: none of its
slices has a layout. -/
theorem slice_of_operand (dot : DotOperandEncodingAttr) (dim : ℕ) (shape : List ℕ) :
    ¬ ∃ L : LinearLayout, SliceEncodingAttr.toLinearLayout f2 ⟨dim, dot.distributed f2⟩ shape =
      .ok (some L) := by
  rintro ⟨L, h⟩
  obtain ⟨parentShape, -, h⟩ := bind_eq_ok h
  obtain ⟨parentLL, -, h⟩ := bind_eq_ok h
  cases parentLL with
  | none => simp [DotOperandEncodingAttr.distributed, pure, Except.pure] at h
  | some P =>
    obtain ⟨T, -, h⟩ := bind_eq_ok h
    obtain ⟨C, -, h⟩ := bind_eq_ok h
    obtain ⟨R, -, h⟩ := bind_eq_ok h
    obtain ⟨count, hcount, -⟩ := bind_eq_ok h
    obtain ⟨elems, helems, -⟩ := bind_eq_ok hcount
    obtain ⟨padded, -, hparent⟩ := bind_eq_ok helems
    obtain ⟨parentElems, hunreachable, -⟩ := bind_eq_ok hparent
    cases hunreachable

end Nested

section Operand

theorem exists_of_map_eq {α β : Type} {x : Except LayoutError α} {g : α → β} {b : β}
    (h : x.toOption.map g = some b) : ∃ a, x = .ok a ∧ g a = b := by
  cases x with
  | error e => simp [Except.toOption] at h
  | ok a => exact ⟨a, rfl, Option.some.inj h⟩

def ampereOperand : DotOperandEncodingAttr :=
  ⟨0, ⟨2, [1, 1], ⟨[1, 1], [1, 1], [1, 0]⟩, [16, 8]⟩, 8⟩

theorem ampereOperand_tile : ∃ C : LinearLayout,
    ampereOperand.ampereCtaLayout f2reduce (standardOutDimNames 2) = .ok C ∧
    Describes C (specOf C) ∧ C.getInDimNames.head? = some "register" ∧
    C.getOutDimNames = ["dim1", "dim0"] ∧ C.getTotalInDimSizeLog2 ≤ 10 := by
  obtain ⟨C, hC, hfacts⟩ := exists_of_map_eq (show
    (ampereOperand.ampereCtaLayout f2reduce (standardOutDimNames 2)).toOption.map (fun C =>
      (C.surjective, checkUnit C.toRawLayout, C.getInDimNames.head?, C.getOutDimNames,
        C.getTotalInDimSizeLog2)) =
      some (true, true, some "register", ["dim1", "dim0"], 10) by decide +kernel)
  simp only [Prod.mk.injEq] at hfacts
  obtain ⟨hsurj, hunit, hins, houts, htotal⟩ := hfacts
  exact ⟨C, hC, ⟨rfl, rfl, fun _ => rfl, fun _ => rfl, fun _ _ => rfl, hsurj,
    unitColumns_of_check hunit⟩, hins, houts, htotal.le⟩

/-- The operand has a layout, and the slice of its rows does not. -/
theorem slice_of_operand_rows :
    (∃ P : LinearLayout, ampereOperand.toLinearLayout f2reduce [16, 1] = .ok (some P)) ∧
    ¬ ∃ L : LinearLayout,
      SliceEncodingAttr.toLinearLayout f2reduce ⟨1, ampereOperand.distributed f2reduce⟩ [16] =
        .ok (some L) := by
  refine ⟨?_, slice_of_operand f2reduce ampereOperand 1 [16]⟩
  obtain ⟨C, hC, hdesc, hins, houts, htotal⟩ := ampereOperand_tile
  have hshape : SmallShape 2 [16, 1] ampereOperand.parent.CTALayout := {
    shapePow := powersOfTwo_of_bits [4, 0] rfl
    wellFormed := ⟨powersOfTwo_of_bits [0, 0] rfl, powersOfTwo_of_bits [0, 0] rfl, by decide,
      by decide⟩
    shape_lt := by decide
    ctas_lt := by decide }
  have hnames : (specOf C).outDims = ["dim1", "dim0"] := houts
  have hmissing : ((specOf C).outDims.map ((specOf C).missing
      (perCtaOf 2 [16, 1] ampereOperand.parent.CTALayout))).sum ≤ 4 := by
    have hrow : perCtaOf 2 [16, 1] ampereOperand.parent.CTALayout "dim0" = 4 := by decide
    have hcolumn : perCtaOf 2 [16, 1] ampereOperand.parent.CTALayout "dim1" = 0 := by decide
    simp only [hnames, LayoutSpec.missing, map_cons, map_nil, sum_cons,
      sum_nil, hrow, hcolumn]
    omega
  have hblocks : ((standardOutDimNames 2).map
      (bitsOf 2 ampereOperand.parent.CTALayout.CTAsPerCGA)).sum = 0 := by decide
  obtain ⟨P, hP, -⟩ := combineCtaCgaWithShape_describes f2reduce hshape hdesc
    (by
      rw [hnames]
      decide)
    (Or.inr hins)
    (fun dim hdim => by
      have hmem : outDimName dim ∈ ["dim1", "dim0"] := by
        revert dim
        decide
      simp only [LayoutSpec.appendDigits, hnames, if_pos hmem, LayoutSpec.missing]
      omega)
    (by
      have hbits : (specOf C).total ≤ 10 := htotal
      omega)
  have hdot : ampereOperand.ampereDotToLinearLayout f2reduce [16, 1] = .ok P := by
    have hversion : ampereOperand.parent.isAmpere = true := by decide
    have hinstr : (([16, 1].length == 2 && ampereOperand.parent.instrShape == [16, 8]) ||
        ([16, 1].length == 3 && ampereOperand.parent.instrShape == [1, 16, 8])) = true := by decide
    rw [DotOperandEncodingAttr.ampereDotToLinearLayout, assertThat_ok hversion, ok_bind,
      assertThat_ok hinstr, ok_bind]
    change (ampereOperand.ampereCtaLayout f2reduce (standardOutDimNames 2) >>= _) = _
    rw [hC, ok_bind]
    exact hP
  refine ⟨P, ?_⟩
  change (ampereOperand.ampereDotToLinearLayout f2reduce [16, 1] >>= _) = _
  rw [hdot]
  rfl

end Operand

end TritonCpu
