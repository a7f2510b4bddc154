import TritonCpu.LayoutResize

/-!
# Blocked encodings

The layout of a blocked encoding is the product of the elements of a thread, the
lanes of a warp and the warps of a block. It is fitted to the part of the tensor
that one block holds, and multiplied by the layout of the blocks.
-/

set_option autoImplicit false

namespace TritonCpu

open LinearLayout List

/-- How the blocks of a group divide a tensor. -/
structure CTALayoutAttr where
  CTAsPerCGA : List ℕ
  CTASplitNum : List ℕ
  CTAOrder : List ℕ
  deriving DecidableEq, Repr

structure BlockedEncodingAttr where
  sizePerThread : List ℕ
  threadsPerWarp : List ℕ
  warpsPerCTA : List ℕ
  order : List ℕ
  CTALayout : CTALayoutAttr
  deriving DecidableEq, Repr

/-- `l[i]` of an array that does not check its bounds. -/
def elementAt {α : Type} (l : List α) (i : ℕ) : Except LayoutError α :=
  match l[i]? with
  | some a => .ok a
  | none => .error .undefined

def outDimName (i : ℕ) : String := "dim" ++ toString i

def standardOutDimNames (rank : ℕ) : List String := (List.range rank).map outDimName

section Build

variable (f2 : F2Reduce)

/-- One turn of the loop of `identityND`. -/
def multiplyIdentity (inDimName : String) (shape : List ℕ) (outDimNames : List String)
    (ret : LinearLayout) (dim : ℕ) : Except LayoutError LinearLayout := do
  let size ← elementAt shape dim
  let outDimName ← elementAt outDimNames dim
  let factor ← identity1D f2 (int32 size) inDimName outDimName
  mul f2 ret factor

def identityND (inDimName : String) (shape order : List ℕ) (outDimNames : List String) :
    Except LayoutError LinearLayout := do
  assertThat "shape.size() == order.size()" (shape.length == order.length)
  let ret ← empty f2
  order.foldlM (multiplyIdentity f2 inDimName shape outDimNames) ret

/-- One turn of the loop of `makeCgaLayout`. -/
def multiplySplit (layout : CTALayoutAttr) (outDimNames : List String) (ret : LinearLayout)
    (dim : ℕ) : Except LayoutError LinearLayout := do
  let split := int32 (← elementAt layout.CTASplitNum dim)
  let ctas := int32 (← elementAt layout.CTAsPerCGA dim)
  if split = 0 then .error .undefined
  else do
    assertThat "ctas % split == 0" (ctas.tmod split == 0)
    let outDimName ← elementAt outDimNames dim
    let identity ← identity1D f2 split "block" outDimName
    let zeros ← zeros1D f2 (ctas.tdiv split) "block" outDimName
    let factor ← mul f2 identity zeros
    mul f2 ret factor

def makeCgaLayout (layout : CTALayoutAttr) : Except LayoutError LinearLayout := do
  let outDimNames := standardOutDimNames layout.CTAOrder.length
  let ret ← empty f2
  let ret ← layout.CTAOrder.foldlM (multiplySplit f2 layout outDimNames) ret
  ret.transposeOuts f2 outDimNames

def labeledShape (outDimNames : List String) (shape : List ℕ) : MapVector ℤ :=
  MapVector.build (fun _ size => size) (outDimNames.zip (shape.map Nat.cast))

/-- The size of the part of every dimension that one block holds. -/
def ctaShape (ctaLayout cgaLayout : LinearLayout) (shape : MapVector ℤ) : MapVector ℤ :=
  MapVector.build (fun _ size => size) (ctaLayout.getOutDimNames.map fun dim =>
    (dim, max 1 (((shape.find dim).getD 0).tdiv (cgaLayout.getOutDimSize dim))))

def combineCtaCgaWithShape (ctaLayout : LinearLayout) (cgaLayoutAttr : CTALayoutAttr)
    (shape : List ℕ) : Except LayoutError LinearLayout := do
  let rank := shape.length
  assertThat "ctaLayout.getNumOutDims() == rank" (ctaLayout.getOutDimNames.length == rank)
  assertThat "cgaLayoutAttr.getCTAOrder().size() == rank" (cgaLayoutAttr.CTAOrder.length == rank)
  let outDimNames := standardOutDimNames rank
  let labeled := labeledShape outDimNames shape
  let cgaLayout ← ensureLayoutNotLargerThan f2 (← makeCgaLayout f2 cgaLayoutAttr) labeled
  let cgaLayout ← cgaLayout.transposeOuts f2 ctaLayout.getOutDimNames
  assertThat "ctaLayout.getOutDimNames() == cgaLayout.getOutDimNames()"
    (ctaLayout.getOutDimNames == cgaLayout.getOutDimNames)
  let perCta := ctaShape ctaLayout cgaLayout labeled
  let ctaLayout ← ensureLayoutNotSmallerThan f2 ctaLayout perCta
  let ctaLayout ← ensureLayoutNotLargerThan f2 ctaLayout perCta
  let ret ← mul f2 ctaLayout cgaLayout
  let ret ← ret.transposeOuts f2 outDimNames
  assertThat "ret.getOutDimSize(dim) == labeledShape[dim]"
    (ret.getOutDimNames.all fun dim => ((ret.getOutDimSize dim : ℕ) : ℤ) == (labeled.find dim).getD 0)
  pure ret

def BlockedEncodingAttr.toLinearLayout (enc : BlockedEncodingAttr) (shape : List ℕ) :
    Except LayoutError LinearLayout := do
  assertThat "shape.size() == getOrder().size()" (shape.length == enc.order.length)
  let outDimNames := standardOutDimNames shape.length
  let registers ← identityND f2 "register" enc.sizePerThread enc.order outDimNames
  let lanes ← identityND f2 "lane" enc.threadsPerWarp enc.order outDimNames
  let warps ← identityND f2 "warp" enc.warpsPerCTA enc.order outDimNames
  let ctaLayout ← mul f2 (← mul f2 registers lanes) warps
  combineCtaCgaWithShape f2 ctaLayout enc.CTALayout shape

end Build

section Names

theorem outDimName_injective : Function.Injective outDimName := by
  intro i j h
  have hchars := congrArg String.toList h
  rw [outDimName, outDimName, String.toList_append, String.toList_append,
    append_cancel_left_eq] at hchars
  have hdigits : Nat.toDigits 10 i = Nat.toDigits 10 j := by
    rw [← Nat.toList_repr, ← Nat.toList_repr]
    exact hchars
  rw [← Nat.ofDigitChars_ten_toDigits (n := i), hdigits, Nat.ofDigitChars_ten_toDigits]

theorem nodup_standardOutDimNames (rank : ℕ) : (standardOutDimNames rank).Nodup :=
  List.nodup_range.map outDimName_injective

theorem elementAt_name {rank dim : ℕ} (h : dim < rank) :
    elementAt (standardOutDimNames rank) dim = .ok (outDimName dim) := by
  rw [elementAt, List.getElem?_eq_getElem (by simpa [standardOutDimNames] using h)]
  simp [standardOutDimNames]

theorem idxOf_name {rank dim : ℕ} (h : dim < rank) :
    (standardOutDimNames rank).idxOf (outDimName dim) = dim := by
  have hlt : dim < (standardOutDimNames rank).length := by simpa [standardOutDimNames] using h
  have hidx := (nodup_standardOutDimNames rank).idxOf_getElem dim hlt
  simpa [standardOutDimNames] using hidx

def bitsOf (rank : ℕ) (sizes : List ℕ) (name : String) : ℕ :=
  Nat.log2 (sizes.getD ((standardOutDimNames rank).idxOf name) 1)

theorem bitsOf_name {rank dim : ℕ} (h : dim < rank) (sizes : List ℕ) :
    bitsOf rank sizes (outDimName dim) = Nat.log2 (sizes.getD dim 1) := by
  rw [bitsOf, idxOf_name h]

end Names

/-- One size for each dimension, each of them a power of two. -/
structure PowersOfTwo (rank : ℕ) (sizes : List ℕ) : Prop where
  length : sizes.length = rank
  pow : ∀ size ∈ sizes, ∃ k, size = 2 ^ k

section Powers

variable {rank : ℕ} {sizes : List ℕ} (h : PowersOfTwo rank sizes)

include h

theorem PowersOfTwo.getD_eq {dim : ℕ} :
    sizes.getD dim 1 = 2 ^ Nat.log2 (sizes.getD dim 1) := by
  by_cases hdim : dim < sizes.length
  · obtain ⟨k, hk⟩ := h.pow _ (getElem_mem hdim)
    rw [getD_eq_getElem _ _ hdim, hk, Nat.log2_two_pow]
  · rw [getD_eq_default _ _ (by omega)]
    rfl

theorem PowersOfTwo.elementAt_eq {dim : ℕ} (hdim : dim < rank) :
    elementAt sizes dim = .ok (2 ^ bitsOf rank sizes (outDimName dim)) := by
  rw [bitsOf_name hdim, ← h.getD_eq, elementAt, List.getElem?_eq_getElem (h.length ▸ hdim),
    getD_eq_getElem _ _ (h.length ▸ hdim)]

end Powers

theorem int32_bits {bits : ℕ} (h : bits < 31) : int32 ((2 ^ bits : ℕ) : ℤ) = 2 ^ bits := by
  rw [Nat.cast_pow]
  exact int32_two_pow h

theorem ok_bind {α β : Type} (a : α) (f : α → Except LayoutError β) :
    (Except.ok a >>= f) = f a :=
  rfl

section IdentityND

variable (f2 : F2Reduce) {rank : ℕ}

theorem nodup_map_outDimName {order : List ℕ} (h : order.Perm (List.range rank)) :
    (order.map outDimName).Nodup :=
  (h.nodup_iff.mpr nodup_range).map outDimName_injective

/-- The specification of the layouts that `identityND` and `makeCgaLayout` build. -/
def digitsSpec (inDim : String) (order : List ℕ) (width size : String → ℕ) : LayoutSpec :=
  LayoutSpec.empty.appendDigits inDim (order.map outDimName) width size

theorem multiplyIdentity_eq (inDim : String) {sizes : List ℕ} {dim : ℕ}
    (hsizes : PowersOfTwo rank sizes) (hdim : dim < rank)
    (hsmall : bitsOf rank sizes (outDimName dim) < 31) (ret : LinearLayout) :
    ∃ factor : LinearLayout,
      multiplyIdentity f2 inDim sizes (standardOutDimNames rank) ret dim = mul f2 ret factor ∧
      Describes factor (LayoutSpec.oneDim (bitsOf rank sizes (outDimName dim))
        (bitsOf rank sizes (outDimName dim)) inDim (outDimName dim)) := by
  obtain ⟨factor, hid, hfactor⟩ := identity1D_describes f2 inDim (outDimName dim) hsmall
  refine ⟨factor, ?_, hfactor⟩
  rw [multiplyIdentity, hsizes.elementAt_eq hdim, ok_bind, elementAt_name hdim, ok_bind,
    int32_bits hsmall, hid, ok_bind]

theorem identityND_describes (inDim : String) {sizes order : List ℕ}
    (hsizes : PowersOfTwo rank sizes) (horder : order.Perm (List.range rank))
    (hsmall : ∀ dim < rank, bitsOf rank sizes (outDimName dim) < 31)
    (hcols : ((order.map outDimName).map (bitsOf rank sizes)).sum ≤ 64) :
    ∃ L : LinearLayout,
      identityND f2 inDim sizes order (standardOutDimNames rank) = .ok L ∧
      Describes L (digitsSpec inDim order (bitsOf rank sizes) (bitsOf rank sizes)) ∧
      (digitsSpec inDim order (bitsOf rank sizes) (bitsOf rank sizes)).total =
        ((order.map outDimName).map (bitsOf rank sizes)).sum := by
  have hlen : (sizes.length == order.length) = true := by
    rw [hsizes.length, horder.length_eq, length_range, beq_self_eq_true]
  have hlt : ∀ dim ∈ order, dim < rank := fun dim hdim =>
    mem_range.mp (horder.mem_iff.mp hdim)
  have hempty : LayoutSpec.empty.total = 0 := rfl
  obtain ⟨L₀, hstart, hL₀⟩ := empty_describes f2
  obtain ⟨L, hloop, hL, htotal⟩ := foldlM_appendDigits inDim
    (bitsOf rank sizes) (bitsOf rank sizes) outDimName
    (multiplyIdentity f2 inDim sizes (standardOutDimNames rank)) order
    (nodup_map_outDimName horder) Describes.computes hL₀
    (fun _ _ => le_rfl)
    (fun dim hdim => by
      rw [LayoutSpec.empty, Nat.zero_add]
      exact hsmall dim (hlt dim hdim))
    (by rwa [hempty, Nat.zero_add])
    (fun dim hdim ret t ht hlog _ _ hfit => by
      have hdimlt := hlt dim hdim
      obtain ⟨factor, heq, hfactor⟩ := multiplyIdentity_eq f2 inDim hsizes hdimlt
        (hsmall dim hdimlt) ret
      rw [heq]
      exact mul_oneDim inDim _ _ f2 ht hfactor le_rfl
        (by rw [hlog, LayoutSpec.empty, Nat.zero_add]; exact hsmall dim hdimlt) hfit)
  refine ⟨L, ?_, hL, ?_⟩
  · rw [identityND, assertThat_ok hlen, hstart]
    exact hloop
  · rw [digitsSpec, htotal, hempty, Nat.zero_add]

end IdentityND

section Cga

variable (f2 : F2Reduce) {rank : ℕ} {layout : CTALayoutAttr}

/-- The split and the repetition of a dimension are one factor, of which the bits
of the split are used. -/
theorem oneDim_mul_zeros (inDim outDim : String) {bits splitBits : ℕ} (hle : splitBits ≤ bits) :
    (LayoutSpec.oneDim splitBits splitBits inDim outDim).mul
      (LayoutSpec.oneDim (bits - splitBits) 0 inDim outDim) =
        LayoutSpec.oneDim bits splitBits inDim outDim := by
  refine LayoutSpec.ext ?_ ?_ ?_ ?_ ?_
  · simp [LayoutSpec.mul, LayoutSpec.oneDim]
  · funext d
    by_cases h : d = inDim
    · simp [LayoutSpec.mul, LayoutSpec.oneDim, h, Nat.add_sub_cancel' hle]
    · simp [LayoutSpec.mul, LayoutSpec.oneDim, h]
  · simp [LayoutSpec.mul, LayoutSpec.oneDim]
  · funext o
    by_cases h : o = outDim <;> simp [LayoutSpec.mul, LayoutSpec.oneDim, h]
  · funext o ins
    by_cases h : o = outDim <;> simp [LayoutSpec.mul, LayoutSpec.oneDim, h, Nat.mod_one]

/-- The blocks of a group, and how many pieces the tensor is split into. -/
structure CTALayoutAttr.WellFormed (rank : ℕ) (layout : CTALayoutAttr) : Prop where
  CTAsPerCGA : PowersOfTwo rank layout.CTAsPerCGA
  CTASplitNum : PowersOfTwo rank layout.CTASplitNum
  CTAOrder : layout.CTAOrder.Perm (List.range rank)
  split_dvd : ∀ dim < rank, layout.CTASplitNum.getD dim 1 ∣ layout.CTAsPerCGA.getD dim 1

theorem splitBits_le (h : layout.WellFormed rank) {dim : ℕ} (hdim : dim < rank) :
    bitsOf rank layout.CTASplitNum (outDimName dim) ≤
      bitsOf rank layout.CTAsPerCGA (outDimName dim) := by
  have hdvd := h.split_dvd dim hdim
  rw [h.CTASplitNum.getD_eq, h.CTAsPerCGA.getD_eq, Nat.pow_dvd_pow_iff_le_right (by omega)] at hdvd
  rwa [bitsOf_name hdim, bitsOf_name hdim]

theorem multiplySplit_ok (h : layout.WellFormed rank) {dim : ℕ} (hdim : dim < rank)
    (hsmall : bitsOf rank layout.CTAsPerCGA (outDimName dim) < 31) {ret : LinearLayout}
    {t : LayoutSpec} (ht : Describes ret t) (hnew : t.outLog (outDimName dim) = 0)
    (hcols : t.total + bitsOf rank layout.CTAsPerCGA (outDimName dim) ≤ 64) :
    ∃ ret' : LinearLayout, multiplySplit f2 layout (standardOutDimNames rank) ret dim = .ok ret' ∧
      Describes ret' (t.appendDigits "block" [outDimName dim] (bitsOf rank layout.CTAsPerCGA)
        (bitsOf rank layout.CTASplitNum)) := by
  have hle := splitBits_le h hdim
  obtain ⟨identity, hid, hidentity⟩ := identity1D_describes f2 "block" (outDimName dim)
    (hle.trans_lt hsmall)
  obtain ⟨zeros, hzero, hzeros⟩ := zeros1D_describes f2 "block" (outDimName dim)
    (show bitsOf rank layout.CTAsPerCGA (outDimName dim) -
      bitsOf rank layout.CTASplitNum (outDimName dim) < 31 by omega)
  obtain ⟨houts, hins⟩ := sameOrder_singleton "block" hidentity.computes (outDimName dim)
  obtain ⟨factor, hmul, hfactor⟩ := mul_describes f2 hidentity hzeros houts hins
    (fun o => by
      simp only [LayoutSpec.oneDim]
      split_ifs <;> omega)
    (by
      rw [total_oneDim, total_oneDim]
      omega)
  rw [oneDim_mul_zeros _ _ hle] at hfactor
  obtain ⟨product, hret, hdesc⟩ := mul_oneDim "block" (bitsOf rank layout.CTAsPerCGA)
    (bitsOf rank layout.CTASplitNum) f2 ht hfactor hle
    (by
      rw [hnew, Nat.zero_add]
      exact hle.trans_lt hsmall)
    hcols
  refine ⟨product, ?_, hdesc⟩
  have hne : ((2 : ℤ) ^ bitsOf rank layout.CTASplitNum (outDimName dim)) ≠ 0 := by positivity
  have hsplit : (2 : ℤ) ^ bitsOf rank layout.CTAsPerCGA (outDimName dim) =
      2 ^ (bitsOf rank layout.CTAsPerCGA (outDimName dim) -
        bitsOf rank layout.CTASplitNum (outDimName dim)) *
      2 ^ bitsOf rank layout.CTASplitNum (outDimName dim) := by
    rw [← pow_add, Nat.sub_add_cancel hle]
  have hrem : Int.tmod (2 ^ bitsOf rank layout.CTAsPerCGA (outDimName dim))
      (2 ^ bitsOf rank layout.CTASplitNum (outDimName dim)) = 0 :=
    Int.tmod_eq_zero_of_dvd (pow_dvd_pow 2 hle)
  have hquot : Int.tdiv (2 ^ bitsOf rank layout.CTAsPerCGA (outDimName dim))
      (2 ^ bitsOf rank layout.CTASplitNum (outDimName dim)) =
      2 ^ (bitsOf rank layout.CTAsPerCGA (outDimName dim) -
        bitsOf rank layout.CTASplitNum (outDimName dim)) := by
    rw [hsplit, Int.mul_tdiv_cancel _ hne]
  rw [multiplySplit, h.CTASplitNum.elementAt_eq hdim, ok_bind, h.CTAsPerCGA.elementAt_eq hdim,
    ok_bind, int32_bits (hle.trans_lt hsmall), int32_bits hsmall, if_neg hne, hrem, hquot,
    assertThat_ok (beq_self_eq_true _), ok_bind, elementAt_name hdim, ok_bind, hid, ok_bind, hzero,
    ok_bind, hmul, ok_bind, hret]

theorem map_outDimName_perm {order : List ℕ} (h : order.Perm (List.range rank)) :
    (order.map outDimName).Perm (standardOutDimNames rank) :=
  h.map outDimName

theorem outDims_digitsSpec (inDim : String) (order : List ℕ) (width size : String → ℕ) :
    (digitsSpec inDim order width size).outDims = order.map outDimName := by
  simp [digitsSpec, LayoutSpec.appendDigits, LayoutSpec.empty]

theorem makeCgaLayout_describes (h : layout.WellFormed rank)
    (hsmall : ∀ dim < rank, bitsOf rank layout.CTAsPerCGA (outDimName dim) < 31)
    (hcols : ((layout.CTAOrder.map outDimName).map (bitsOf rank layout.CTAsPerCGA)).sum ≤ 64) :
    ∃ L : LinearLayout, makeCgaLayout f2 layout = .ok L ∧
      Describes L { digitsSpec "block" layout.CTAOrder (bitsOf rank layout.CTAsPerCGA)
        (bitsOf rank layout.CTASplitNum) with outDims := standardOutDimNames rank } ∧
      (digitsSpec "block" layout.CTAOrder (bitsOf rank layout.CTAsPerCGA)
        (bitsOf rank layout.CTASplitNum)).total =
          ((layout.CTAOrder.map outDimName).map (bitsOf rank layout.CTAsPerCGA)).sum := by
  have hlt : ∀ dim ∈ layout.CTAOrder, dim < rank := fun dim hdim =>
    mem_range.mp (h.CTAOrder.mem_iff.mp hdim)
  have hempty : LayoutSpec.empty.total = 0 := rfl
  have hrank : layout.CTAOrder.length = rank := by rw [h.CTAOrder.length_eq, length_range]
  obtain ⟨L₀, hstart, hL₀⟩ := empty_describes f2
  obtain ⟨L, hloop, hL, htotal⟩ := foldlM_appendDigits "block" (bitsOf rank layout.CTAsPerCGA)
    (bitsOf rank layout.CTASplitNum) outDimName
    (multiplySplit f2 layout (standardOutDimNames rank)) layout.CTAOrder
    (nodup_map_outDimName h.CTAOrder) Describes.computes hL₀
    (fun dim hdim => splitBits_le h (hlt dim hdim))
    (fun dim hdim => by
      rw [LayoutSpec.empty, Nat.zero_add]
      exact (splitBits_le h (hlt dim hdim)).trans_lt (hsmall dim (hlt dim hdim)))
    (by rwa [hempty, Nat.zero_add])
    (fun dim hdim ret t ht hlog _ _ hfit =>
      multiplySplit_ok f2 h (hlt dim hdim) (hsmall dim (hlt dim hdim)) ht hlog hfit)
  obtain ⟨L', htranspose, hL'⟩ := transposeOuts_describes f2 hL
    (show (standardOutDimNames rank).Perm _ by
      have houts := outDims_digitsSpec "block" layout.CTAOrder (bitsOf rank layout.CTAsPerCGA)
        (bitsOf rank layout.CTASplitNum)
      rw [digitsSpec] at houts
      rw [houts]
      exact (map_outDimName_perm h.CTAOrder).symm)
  refine ⟨L', ?_, hL', ?_⟩
  · rw [makeCgaLayout, hrank, hstart, ok_bind, hloop, ok_bind, htranspose]
  · rw [digitsSpec, htotal, hempty, Nat.zero_add]

end Cga

section Shapes

variable {rank : ℕ} {shape : List ℕ}

theorem entries_labeledShape (h : shape.length = rank) :
    (labeledShape (standardOutDimNames rank) shape).entries =
      (standardOutDimNames rank).zip (shape.map Nat.cast) := by
  rw [labeledShape, MapVector.entries_build]
  · exact map_id _
  · rw [map_fst_zip (by simp [standardOutDimNames, h])]
    exact nodup_standardOutDimNames rank

theorem find_labeledShape (h : PowersOfTwo rank shape) {dim : ℕ} (hdim : dim < rank) :
    (labeledShape (standardOutDimNames rank) shape).find (outDimName dim) =
      some (2 ^ bitsOf rank shape (outDimName dim)) := by
  have hshape : dim < shape.length := h.length ▸ hdim
  apply MapVector.find_of_mem
  rw [entries_labeledShape h.length]
  have hget : ((standardOutDimNames rank).zip (shape.map (Nat.cast : ℕ → ℤ)))[dim]? =
      some (outDimName dim, ((shape[dim] : ℕ) : ℤ)) := by
    rw [List.getElem?_zip_eq_some]
    constructor
    · simp [standardOutDimNames, hdim]
    · simp [hshape]
  have hpow : ((shape[dim] : ℕ) : ℤ) = 2 ^ bitsOf rank shape (outDimName dim) := by
    have hsize : shape.getD dim 1 = 2 ^ Nat.log2 (shape.getD dim 1) := h.getD_eq
    rw [getD_eq_getElem _ _ hshape] at hsize
    rw [bitsOf_name hdim, getD_eq_getElem _ _ hshape, ← Nat.cast_two, ← Nat.cast_pow, ← hsize]
  rw [← hpow]
  exact mem_of_getElem? hget

theorem mem_standardOutDimNames {name : String} : name ∈ standardOutDimNames rank ↔
    ∃ dim < rank, outDimName dim = name := by
  simp [standardOutDimNames]

def perCtaBits (shapeBits splitBits : String → ℕ) (name : String) : ℕ :=
  shapeBits name - min (splitBits name) (shapeBits name)

theorem shapeLog_ctaShape {shapeBits splitBits : String → ℕ} {ctaLayout cgaLayout : LinearLayout}
    {names : List String} (hnames : ctaLayout.getOutDimNames = names) {labeled : MapVector ℤ}
    (hlabeled : ShapeLog labeled shapeBits names)
    (hcga : ∀ n ∈ names, cgaLayout.getOutDimSizeLog2 n = min (splitBits n) (shapeBits n)) :
    ShapeLog (ctaShape ctaLayout cgaLayout labeled) (perCtaBits shapeBits splitBits) names ∧
      (ctaShape ctaLayout cgaLayout labeled).entries.length = names.length := by
  have hentries : (ctaShape ctaLayout cgaLayout labeled).entries =
      names.map fun dim => (dim, max 1 (((labeled.find dim).getD 0).tdiv
        ((cgaLayout.getOutDimSize dim : ℕ) : ℤ))) := by
    rw [ctaShape, MapVector.entries_build, hnames]
    · exact map_id _
    · rw [map_map]
      exact (map_id ctaLayout.getOutDimNames).symm ▸
        nodup_getOutDimNames ctaLayout.toRawLayout
  constructor
  · intro n hn
    obtain ⟨hsmall, hfind⟩ := hlabeled n hn
    refine ⟨(Nat.sub_le _ _).trans_lt hsmall, ?_⟩
    apply MapVector.find_of_mem
    rw [hentries]
    refine mem_map.mpr ⟨n, hn, ?_⟩
    have hsplit : (2 : ℤ) ^ shapeBits n =
        2 ^ perCtaBits shapeBits splitBits n * 2 ^ min (splitBits n) (shapeBits n) := by
      rw [← pow_add, perCtaBits, Nat.sub_add_cancel (Nat.min_le_right _ _)]
    have hpos : (0 : ℤ) < 2 ^ min (splitBits n) (shapeBits n) := by positivity
    have hone : (1 : ℤ) ≤ 2 ^ perCtaBits shapeBits splitBits n := one_le_pow₀ (by omega)
    rw [hfind, Option.getD_some, RawLayout.getOutDimSize, hcga n hn, Nat.cast_pow, Nat.cast_two,
      hsplit, Int.mul_tdiv_cancel _ hpos.ne', max_eq_right hone]
  · rw [hentries, length_map]

end Shapes

section Combine

variable (f2 : F2Reduce) {rank : ℕ} {shape : List ℕ} {layout : CTALayoutAttr}

/-- The layout of the blocks that is left when the shape is smaller than the
number of pieces, with the dimensions in the order of the layout of a block. -/
def cgaSpec (rank : ℕ) (shape : List ℕ) (layout : CTALayoutAttr) (outDims : List String) :
    LayoutSpec :=
  { (digitsSpec "block" layout.CTAOrder (bitsOf rank layout.CTAsPerCGA)
      (bitsOf rank layout.CTASplitNum)).truncate (bitsOf rank shape) with outDims := outDims }

/-- The bits that the tile of a block lacks to fill its part of the tensor. -/
def perCtaOf (rank : ℕ) (shape : List ℕ) (layout : CTALayoutAttr) : String → ℕ :=
  perCtaBits (bitsOf rank shape) (bitsOf rank layout.CTASplitNum)

def ctaSpec (rank : ℕ) (shape : List ℕ) (layout : CTALayoutAttr) (t : LayoutSpec) : LayoutSpec :=
  (t.appendDigits "register" t.outDims (t.missing (perCtaOf rank shape layout))
    (t.missing (perCtaOf rank shape layout))).truncate (perCtaOf rank shape layout)

def combinedSpec (rank : ℕ) (shape : List ℕ) (layout : CTALayoutAttr) (t : LayoutSpec) :
    LayoutSpec :=
  { (ctaSpec rank shape layout t).mul (cgaSpec rank shape layout t.outDims) with
    outDims := standardOutDimNames rank }

theorem outLog_digitsSpec (inDim : String) {order : List ℕ} (horder : order.Perm (List.range rank))
    (width size : String → ℕ) {dim : ℕ} (hdim : dim < rank) :
    (digitsSpec inDim order width size).outLog (outDimName dim) = size (outDimName dim) := by
  have hmem : outDimName dim ∈ order.map outDimName :=
    mem_map_of_mem (horder.mem_iff.mpr (mem_range.mpr hdim))
  simp only [digitsSpec, LayoutSpec.appendDigits, LayoutSpec.empty, if_pos hmem, Nat.zero_add]

theorem outDims_ctaSpec (rank : ℕ) (shape : List ℕ) (layout : CTALayoutAttr) (t : LayoutSpec) :
    (ctaSpec rank shape layout t).outDims = t.outDims := by
  simp [ctaSpec, LayoutSpec.truncate, LayoutSpec.appendDigits]

theorem outLog_cgaSpec (hlayout : layout.WellFormed rank) {dim : ℕ} (hdim : dim < rank)
    (outDims : List String) : (cgaSpec rank shape layout outDims).outLog (outDimName dim) =
      min (bitsOf rank layout.CTASplitNum (outDimName dim))
        (bitsOf rank shape (outDimName dim)) := by
  rw [← outLog_digitsSpec "block" hlayout.CTAOrder (bitsOf rank layout.CTAsPerCGA)
    (bitsOf rank layout.CTASplitNum) hdim]
  rfl

theorem inDims_cgaSpec (rank : ℕ) (shape : List ℕ) (layout : CTALayoutAttr)
    (outDims : List String) : (cgaSpec rank shape layout outDims).inDims = [] ∨
      (cgaSpec rank shape layout outDims).inDims = ["block"] := by
  simp only [cgaSpec, LayoutSpec.truncate, digitsSpec, LayoutSpec.appendDigits, LayoutSpec.empty]
  split_ifs
  · exact Or.inl rfl
  · exact Or.inr rfl

/-- The sizes of the tensor are below `2 ^ 31`, and so is the number of blocks. -/
structure SmallShape (rank : ℕ) (shape : List ℕ) (layout : CTALayoutAttr) : Prop where
  shapePow : PowersOfTwo rank shape
  wellFormed : layout.WellFormed rank
  shape_lt : ∀ dim < rank, bitsOf rank shape (outDimName dim) < 31
  ctas_lt : ∀ dim < rank, bitsOf rank layout.CTAsPerCGA (outDimName dim) < 31

theorem shapeLog_labeledShape (h : SmallShape rank shape layout) :
    ShapeLog (labeledShape (standardOutDimNames rank) shape) (bitsOf rank shape)
      (standardOutDimNames rank) := by
  intro n hn
  obtain ⟨dim, hdim, rfl⟩ := mem_standardOutDimNames.mp hn
  exact ⟨h.shape_lt dim hdim, find_labeledShape h.shapePow hdim⟩

theorem cga_describes (h : SmallShape rank shape layout)
    (hcols : ((standardOutDimNames rank).map (bitsOf rank layout.CTAsPerCGA)).sum ≤ 64)
    {outDims : List String} (houts : outDims.Perm (standardOutDimNames rank)) :
    ∃ L₁ L₂ L₃ : LinearLayout, makeCgaLayout f2 layout = .ok L₁ ∧
      ensureLayoutNotLargerThan f2 L₁ (labeledShape (standardOutDimNames rank) shape) = .ok L₂ ∧
      L₂.transposeOuts f2 outDims = .ok L₃ ∧
      Describes L₃ (cgaSpec rank shape layout outDims) ∧
      (cgaSpec rank shape layout outDims).total =
        ((standardOutDimNames rank).map (bitsOf rank layout.CTAsPerCGA)).sum := by
  have hsum : ((layout.CTAOrder.map outDimName).map (bitsOf rank layout.CTAsPerCGA)).sum =
      ((standardOutDimNames rank).map (bitsOf rank layout.CTAsPerCGA)).sum :=
    ((map_outDimName_perm h.wellFormed.CTAOrder).map _).sum_eq
  have hcount : (labeledShape (standardOutDimNames rank) shape).entries.length =
      (standardOutDimNames rank).length := by
    rw [entries_labeledShape h.shapePow.length]
    simp [standardOutDimNames, h.shapePow.length]
  obtain ⟨L₁, hL₁, hdesc₁, htotal₁⟩ := makeCgaLayout_describes f2 h.wellFormed h.ctas_lt
    (hsum ▸ hcols)
  rw [hsum] at htotal₁
  obtain ⟨L₂, hL₂, hdesc₂⟩ := ensureLayoutNotLargerThan_describes f2 hdesc₁
    (shapeLog_labeledShape h) hcount (htotal₁.trans_le hcols)
  obtain ⟨L₃, hL₃, hdesc₃⟩ := transposeOuts_describes f2 hdesc₂ houts
  exact ⟨L₁, L₂, L₃, hL₁, hL₂, hL₃, hdesc₃, htotal₁⟩

theorem cta_describes (h : SmallShape rank shape layout) {ctaLayout cgaLayout : LinearLayout}
    {t : LayoutSpec} (ht : Describes ctaLayout t)
    (hcga : Describes cgaLayout (cgaSpec rank shape layout t.outDims))
    (houts : t.outDims.Perm (standardOutDimNames rank))
    (hfirst : t.outDims = [] ∨ t.inDims.head? = some "register")
    (hcols : t.total + (t.outDims.map (t.missing (perCtaOf rank shape layout))).sum ≤ 64) :
    ∃ L₁ L₂ : LinearLayout,
      ensureLayoutNotSmallerThan f2 ctaLayout (ctaShape ctaLayout cgaLayout
        (labeledShape (standardOutDimNames rank) shape)) = .ok L₁ ∧
      ensureLayoutNotLargerThan f2 L₁ (ctaShape ctaLayout cgaLayout
        (labeledShape (standardOutDimNames rank) shape)) = .ok L₂ ∧
      Describes L₂ (ctaSpec rank shape layout t) ∧ (ctaSpec rank shape layout t).total =
        t.total + (t.outDims.map (t.missing (perCtaOf rank shape layout))).sum := by
  have hperCta : ShapeLog (ctaShape ctaLayout cgaLayout
      (labeledShape (standardOutDimNames rank) shape)) (perCtaOf rank shape layout) t.outDims ∧
      (ctaShape ctaLayout cgaLayout
        (labeledShape (standardOutDimNames rank) shape)).entries.length = t.outDims.length := by
    apply shapeLog_ctaShape ht.outDims
    · exact fun n hn => shapeLog_labeledShape h n (houts.mem_iff.mp hn)
    · intro n hn
      obtain ⟨dim, hdim, rfl⟩ := mem_standardOutDimNames.mp (houts.mem_iff.mp hn)
      rw [hcga.outSize, outLog_cgaSpec h.wellFormed hdim]
  obtain ⟨L₁, hL₁, hdesc₁, htotal₁⟩ := ensureLayoutNotSmallerThan_describes f2 ht hperCta.1
    hperCta.2 (Or.inl rfl) hfirst hcols
  have hsame : (t.appendDigits "register" t.outDims (t.missing (perCtaOf rank shape layout))
      (t.missing (perCtaOf rank shape layout))).outDims = t.outDims :=
    outDims_ctaSpec rank shape layout t
  obtain ⟨L₂, hL₂, hdesc₂⟩ := ensureLayoutNotLargerThan_describes f2 hdesc₁
    (hsame.symm ▸ hperCta.1) (hsame.symm ▸ hperCta.2) (htotal₁.trans_le hcols)
  exact ⟨L₁, L₂, hL₁, hL₂, hdesc₂, htotal₁⟩

/-- The steps of the combination, of which each one succeeds. -/
theorem combineCtaCgaWithShape_eq (h : SmallShape rank shape layout)
    {ctaLayout cga₁ cga₂ cga₃ cta₁ cta₂ prod L : LinearLayout}
    (houts : ctaLayout.getOutDimNames.Perm (standardOutDimNames rank))
    (hcga₁ : makeCgaLayout f2 layout = .ok cga₁)
    (hcga₂ : ensureLayoutNotLargerThan f2 cga₁
      (labeledShape (standardOutDimNames rank) shape) = .ok cga₂)
    (hcga₃ : cga₂.transposeOuts f2 ctaLayout.getOutDimNames = .ok cga₃)
    (hcgaOuts : cga₃.getOutDimNames = ctaLayout.getOutDimNames)
    (hcta₁ : ensureLayoutNotSmallerThan f2 ctaLayout
      (ctaShape ctaLayout cga₃ (labeledShape (standardOutDimNames rank) shape)) = .ok cta₁)
    (hcta₂ : ensureLayoutNotLargerThan f2 cta₁
      (ctaShape ctaLayout cga₃ (labeledShape (standardOutDimNames rank) shape)) = .ok cta₂)
    (hprod : mul f2 cta₂ cga₃ = .ok prod)
    (hL : prod.transposeOuts f2 (standardOutDimNames rank) = .ok L)
    (houtsL : L.getOutDimNames = standardOutDimNames rank)
    (hlog : ∀ dim < rank,
      L.getOutDimSizeLog2 (outDimName dim) = bitsOf rank shape (outDimName dim)) :
    combineCtaCgaWithShape f2 ctaLayout layout shape = .ok L := by
  have hsize : (L.getOutDimNames.all fun dim => ((L.getOutDimSize dim : ℕ) : ℤ) ==
      ((labeledShape (standardOutDimNames rank) shape).find dim).getD 0) = true := by
    rw [all_eq_true, houtsL]
    intro n hn
    obtain ⟨dim, hdim, rfl⟩ := mem_standardOutDimNames.mp hn
    rw [find_labeledShape h.shapePow hdim, RawLayout.getOutDimSize, hlog dim hdim,
      Option.getD_some, Nat.cast_pow, Nat.cast_two, beq_self_eq_true]
  have hcheck₁ : (ctaLayout.getOutDimNames.length == rank) = true := by
    rw [houts.length_eq]
    simp [standardOutDimNames]
  have hcheck₂ : (layout.CTAOrder.length == rank) = true := by
    rw [h.wellFormed.CTAOrder.length_eq, length_range, beq_self_eq_true]
  have hcheck₃ : (ctaLayout.getOutDimNames == cga₃.getOutDimNames) = true := by
    rw [hcgaOuts, beq_self_eq_true]
  simp only [combineCtaCgaWithShape, h.shapePow.length]
  rw [assertThat_ok hcheck₁, ok_bind, assertThat_ok hcheck₂, ok_bind, hcga₁, ok_bind, hcga₂, ok_bind,
    hcga₃, ok_bind, assertThat_ok hcheck₃, ok_bind, hcta₁, ok_bind, hcta₂, ok_bind, hprod, ok_bind,
    hL, ok_bind, assertThat_ok hsize]
  rfl

theorem combineCtaCgaWithShape_describes (h : SmallShape rank shape layout)
    {ctaLayout : LinearLayout} {t : LayoutSpec} (ht : Describes ctaLayout t)
    (houts : t.outDims.Perm (standardOutDimNames rank))
    (hfirst : t.outDims = [] ∨ t.inDims.head? = some "register")
    (hfull : ∀ dim < rank, perCtaOf rank shape layout (outDimName dim) ≤
      (t.appendDigits "register" t.outDims (t.missing (perCtaOf rank shape layout))
        (t.missing (perCtaOf rank shape layout))).outLog (outDimName dim))
    (hcols : t.total + (t.outDims.map (t.missing (perCtaOf rank shape layout))).sum +
      ((standardOutDimNames rank).map (bitsOf rank layout.CTAsPerCGA)).sum ≤ 64) :
    ∃ L : LinearLayout, combineCtaCgaWithShape f2 ctaLayout layout shape = .ok L ∧
      Describes L (combinedSpec rank shape layout t) := by
  have hlen : (standardOutDimNames rank).length = rank := by simp [standardOutDimNames]
  have hcount : t.outDims.length = rank := houts.length_eq.trans hlen
  obtain ⟨cga₁, cga₂, cga₃, hcga₁, hcga₂, hcga₃, hcga, hcgaTotal⟩ := cga_describes f2 h
    (by omega) houts
  obtain ⟨cta₁, cta₂, hcta₁, hcta₂, hcta, hctaTotal⟩ := cta_describes f2 h ht hcga houts hfirst
    (by omega)
  have hctaOuts := outDims_ctaSpec rank shape layout t
  have hfits : ∀ n, (ctaSpec rank shape layout t).outLog n +
      (cgaSpec rank shape layout t.outDims).outLog n < 31 := by
    intro n
    by_cases hn : n ∈ t.outDims
    · obtain ⟨dim, hdim, rfl⟩ := mem_standardOutDimNames.mp (houts.mem_iff.mp hn)
      have hbits := h.shape_lt dim hdim
      have hle : (ctaSpec rank shape layout t).outLog (outDimName dim) ≤
          perCtaOf rank shape layout (outDimName dim) := Nat.min_le_right _ _
      have hsplit := Nat.min_le_right (bitsOf rank layout.CTASplitNum (outDimName dim))
        (bitsOf rank shape (outDimName dim))
      rw [outLog_cgaSpec h.wellFormed hdim]
      rw [perCtaOf, perCtaBits] at hle
      omega
    · rw [← hcta.outSize, ← hcga.outSize, getOutDimSizeLog2_of_notMem cta₂.toRawLayout,
        getOutDimSizeLog2_of_notMem cga₃.toRawLayout]
      · omega
      · rw [hcga.outDims]
        exact hn
      · rw [hcta.outDims, hctaOuts]
        exact hn
  obtain ⟨prod, hprod, hdescProd⟩ := mul_describes f2 hcta hcga
    (by
      rw [hctaOuts]
      exact sameOrder_of_sublist (houts.nodup_iff.mpr (nodup_standardOutDimNames rank))
        (List.Sublist.refl _))
    (by
      obtain hnil | hone := inDims_cgaSpec rank shape layout t.outDims
      · rw [hnil]
        exact sameOrder_of_disjoint fun _ _ => not_mem_nil
      · rw [hone]
        exact (sameOrder_singleton "block" hcta.computes "").2)
    hfits (by omega)
  have houtsProd : ((ctaSpec rank shape layout t).mul
      (cgaSpec rank shape layout t.outDims)).outDims = t.outDims := by
    rw [LayoutSpec.mul, hctaOuts]
    simp [cgaSpec]
  obtain ⟨L, hL, hdesc⟩ := transposeOuts_describes f2 hdescProd
    (show (standardOutDimNames rank).Perm _ from houtsProd.symm ▸ houts.symm)
  rw [← ht.outDims] at hcga₃ houts
  refine ⟨L, combineCtaCgaWithShape_eq f2 h houts hcga₁ hcga₂ hcga₃
    (hcga.outDims.trans ht.outDims.symm) hcta₁ hcta₂ hprod hL hdesc.outDims fun dim hdim => ?_, hdesc⟩
  have hsplit := Nat.min_le_right (bitsOf rank layout.CTASplitNum (outDimName dim))
    (bitsOf rank shape (outDimName dim))
  have hcta : (ctaSpec rank shape layout t).outLog (outDimName dim) =
      perCtaOf rank shape layout (outDimName dim) := Nat.min_eq_right (hfull dim hdim)
  rw [hdesc.outSize]
  change (ctaSpec rank shape layout t).outLog _ + (cgaSpec rank shape layout _).outLog _ = _
  rw [hcta, outLog_cgaSpec h.wellFormed hdim, perCtaOf, perCtaBits]
  omega

end Combine

end TritonCpu
