import TritonCpu.BlockedEncoding

/-!
# The layout of a blocked encoding

Every dimension of the tensor is divided among the blocks; a part is filled by
the tile of a block, again and again or not at all, and inside the tile the
registers of a thread are next to each other, then the lanes, then the warps.
-/

set_option autoImplicit false

namespace TritonCpu

open LinearLayout List

section Tile

variable (f2 : F2Reduce) {rank : ℕ} {enc : BlockedEncodingAttr}

def BlockedEncodingAttr.tileSpec (enc : BlockedEncodingAttr) (rank : ℕ) : LayoutSpec :=
  ((digitsSpec "register" enc.order (bitsOf rank enc.sizePerThread)
      (bitsOf rank enc.sizePerThread)).mul
    (digitsSpec "lane" enc.order (bitsOf rank enc.threadsPerWarp)
      (bitsOf rank enc.threadsPerWarp))).mul
    (digitsSpec "warp" enc.order (bitsOf rank enc.warpsPerCTA) (bitsOf rank enc.warpsPerCTA))

def BlockedEncodingAttr.tileBits (enc : BlockedEncodingAttr) (rank : ℕ) (name : String) : ℕ :=
  bitsOf rank enc.sizePerThread name + bitsOf rank enc.threadsPerWarp name +
    bitsOf rank enc.warpsPerCTA name

def totalBits (rank : ℕ) (bits : String → ℕ) : ℕ := ((standardOutDimNames rank).map bits).sum

theorem totalBits_order {order : List ℕ} (h : order.Perm (List.range rank)) (bits : String → ℕ) :
    ((order.map outDimName).map bits).sum = totalBits rank bits :=
  ((map_outDimName_perm h).map bits).sum_eq

/-- The sizes of an encoding are powers of two, and its tile is below `2 ^ 31`. -/
structure SmallTile (rank : ℕ) (enc : BlockedEncodingAttr) : Prop where
  sizePerThread : PowersOfTwo rank enc.sizePerThread
  threadsPerWarp : PowersOfTwo rank enc.threadsPerWarp
  warpsPerCTA : PowersOfTwo rank enc.warpsPerCTA
  order : enc.order.Perm (List.range rank)
  tile_lt : ∀ dim < rank, enc.tileBits rank (outDimName dim) < 31

theorem inDims_digitsSpec (inDim : String) (order : List ℕ) (width size : String → ℕ) :
    (digitsSpec inDim order width size).inDims =
      if order.map outDimName = [] then [] else [inDim] := by
  simp only [digitsSpec, LayoutSpec.appendDigits, LayoutSpec.empty]
  split_ifs <;> simp

theorem value_digitsSpec (inDim : String) (order : List ℕ) (width size : String → ℕ) (name : String)
    (ins : String → ℕ) : (digitsSpec inDim order width size).value name ins =
      digitOf width (order.map outDimName) name (ins inDim) % 2 ^ size name := by
  simp only [digitsSpec, LayoutSpec.appendDigits, LayoutSpec.empty, Nat.zero_add, Nat.pow_zero,
    Nat.one_mul, Nat.div_one]

theorem tile_describes (h : SmallTile rank enc)
    (hcols : totalBits rank (bitsOf rank enc.sizePerThread) +
      totalBits rank (bitsOf rank enc.threadsPerWarp) +
      totalBits rank (bitsOf rank enc.warpsPerCTA) ≤ 64) :
    ∃ R W P Q T : LinearLayout,
      identityND f2 "register" enc.sizePerThread enc.order (standardOutDimNames rank) = .ok R ∧
      identityND f2 "lane" enc.threadsPerWarp enc.order (standardOutDimNames rank) = .ok W ∧
      identityND f2 "warp" enc.warpsPerCTA enc.order (standardOutDimNames rank) = .ok P ∧
      mul f2 R W = .ok Q ∧ mul f2 Q P = .ok T ∧ Describes T (enc.tileSpec rank) ∧
      (enc.tileSpec rank).total = totalBits rank (bitsOf rank enc.sizePerThread) +
        totalBits rank (bitsOf rank enc.threadsPerWarp) +
        totalBits rank (bitsOf rank enc.warpsPerCTA) := by
  have htile : ∀ dim < rank, bitsOf rank enc.sizePerThread (outDimName dim) +
      bitsOf rank enc.threadsPerWarp (outDimName dim) +
      bitsOf rank enc.warpsPerCTA (outDimName dim) < 31 := h.tile_lt
  have hsum := totalBits_order h.order
  obtain ⟨R, hR, hRdesc, hRtotal⟩ := identityND_describes f2 "register" h.sizePerThread h.order
    (fun dim hdim => by have hlt := htile dim hdim; omega) (by rw [hsum]; omega)
  obtain ⟨W, hW, hWdesc, hWtotal⟩ := identityND_describes f2 "lane" h.threadsPerWarp h.order
    (fun dim hdim => by have hlt := htile dim hdim; omega) (by rw [hsum]; omega)
  obtain ⟨P, hP, hPdesc, hPtotal⟩ := identityND_describes f2 "warp" h.warpsPerCTA h.order
    (fun dim hdim => by have hlt := htile dim hdim; omega) (by rw [hsum]; omega)
  rw [hsum] at hRtotal hWtotal hPtotal
  have hnodup := nodup_map_outDimName h.order
  have hzero : ∀ {L : LinearLayout} {u : LayoutSpec}, Describes L u →
      ∀ n, n ∉ u.outDims → u.outLog n = 0 := by
    intro L u hu n hn
    rw [← hu.outSize, getOutDimSizeLog2_of_notMem L.toRawLayout (hu.outDims ▸ hn)]
  have houts : ∀ (inDim : String) (bits : String → ℕ),
      (digitsSpec inDim enc.order bits bits).outDims = enc.order.map outDimName :=
    fun inDim bits => outDims_digitsSpec inDim enc.order bits bits
  have hmem : ∀ {n : String}, n ∈ enc.order.map outDimName → ∃ dim < rank, outDimName dim = n :=
    fun hn => mem_standardOutDimNames.mp ((map_outDimName_perm h.order).mem_iff.mp hn)
  have hins : ∀ (a b : String) (f g : String → ℕ), a ≠ b → assertCommonDimsSameOrder
      (digitsSpec a enc.order f f).inDims (digitsSpec b enc.order g g).inDims = .ok () := by
    intro a b f g hne
    apply sameOrder_of_disjoint
    rw [inDims_digitsSpec, inDims_digitsSpec]
    split_ifs
    · exact fun _ _ => not_mem_nil
    · intro n hn
      rw [mem_singleton.mp hn, mem_singleton]
      exact hne
  obtain ⟨Q, hQ, hQdesc⟩ := mul_describes f2 hRdesc hWdesc
    (by
      rw [houts, houts]
      exact sameOrder_of_sublist hnodup (List.Sublist.refl _))
    (hins _ _ _ _ (by decide))
    (fun n => by
      by_cases hn : n ∈ enc.order.map outDimName
      · obtain ⟨dim, hdim, rfl⟩ := hmem hn
        have hlt := htile dim hdim
        rw [outLog_digitsSpec _ h.order _ _ hdim, outLog_digitsSpec _ h.order _ _ hdim]
        omega
      · rw [hzero hRdesc n (by rwa [houts]), hzero hWdesc n (by rwa [houts])]
        omega)
    (by omega)
  have hQtotal := total_mul hRdesc.computes hWdesc.computes
  have houtsQ : ((digitsSpec "register" enc.order (bitsOf rank enc.sizePerThread)
      (bitsOf rank enc.sizePerThread)).mul (digitsSpec "lane" enc.order
        (bitsOf rank enc.threadsPerWarp) (bitsOf rank enc.threadsPerWarp))).outDims =
      enc.order.map outDimName := by
    rw [LayoutSpec.mul, houts, houts]
    simp
  obtain ⟨T, hT, hTdesc⟩ := mul_describes f2 hQdesc hPdesc
    (by
      rw [houtsQ, houts]
      exact sameOrder_of_sublist hnodup (List.Sublist.refl _))
    (by
      apply sameOrder_of_disjoint
      simp only [LayoutSpec.mul, inDims_digitsSpec]
      split_ifs
      · exact fun _ _ => not_mem_nil
      · decide)
    (fun n => by
      by_cases hn : n ∈ enc.order.map outDimName
      · obtain ⟨dim, hdim, rfl⟩ := hmem hn
        have hlt := htile dim hdim
        simp only [LayoutSpec.mul, outLog_digitsSpec _ h.order _ _ hdim]
        exact hlt
      · rw [hzero hQdesc n (by rwa [houtsQ]), hzero hPdesc n (by rwa [houts])]
        omega)
    (by omega)
  refine ⟨R, W, P, Q, T, hR, hW, hP, hQ, hT, hTdesc, ?_⟩
  rw [BlockedEncodingAttr.tileSpec, total_mul hQdesc.computes hPdesc.computes, hQtotal, hRtotal, hWtotal, hPtotal]

theorem outDims_tileSpec (enc : BlockedEncodingAttr) (rank : ℕ) :
    (enc.tileSpec rank).outDims = enc.order.map outDimName := by
  simp only [BlockedEncodingAttr.tileSpec, LayoutSpec.mul, outDims_digitsSpec]
  simp

theorem outLog_tileSpec (h : enc.order.Perm (List.range rank)) {dim : ℕ} (hdim : dim < rank) :
    (enc.tileSpec rank).outLog (outDimName dim) = enc.tileBits rank (outDimName dim) := by
  simp only [BlockedEncodingAttr.tileSpec, LayoutSpec.mul, outLog_digitsSpec _ h _ _ hdim]
  rfl

end Tile

section Coordinates

/-- The digit of `x` that belongs to `dim`. The dimensions are counted in the
given order, the first of them is the lowest digit. -/
def digit (sizes : ℕ → ℕ) : List ℕ → ℕ → ℕ → ℕ
  | [], _, _ => 0
  | d :: order, dim, x => if d = dim then x % sizes d else digit sizes order dim (x / sizes d)

def dimProduct (rank : ℕ) (sizes : ℕ → ℕ) : ℕ := ((List.range rank).map sizes).prod

namespace BlockedEncodingAttr

variable (enc : BlockedEncodingAttr) (shape : List ℕ)

def tileSize (dim : ℕ) : ℕ :=
  enc.sizePerThread.getD dim 1 * enc.threadsPerWarp.getD dim 1 * enc.warpsPerCTA.getD dim 1

def parts (dim : ℕ) : ℕ := min (enc.CTALayout.CTASplitNum.getD dim 1) (shape.getD dim 1)

def shapePerCTA (dim : ℕ) : ℕ := shape.getD dim 1 / enc.parts shape dim

/-- How often the tile of a block is repeated in its part of the tensor. -/
def repetitions (dim : ℕ) : ℕ := max 1 (enc.shapePerCTA shape dim / enc.tileSize dim)

def registers : ℕ :=
  dimProduct shape.length (enc.sizePerThread.getD · 1) *
    dimProduct shape.length (enc.repetitions shape)

def lanes : ℕ := dimProduct shape.length (enc.threadsPerWarp.getD · 1)

def warps : ℕ := dimProduct shape.length (enc.warpsPerCTA.getD · 1)

def blocks : ℕ := dimProduct shape.length (enc.CTALayout.CTAsPerCGA.getD · 1)

/-- The coordinate at `dim` of the element that a register holds. -/
def coordinate (reg lane warp block dim : ℕ) : ℕ :=
  let regDigit := digit (enc.sizePerThread.getD · 1) enc.order dim reg
  let repDigit := digit (enc.repetitions shape) enc.order dim
    (reg / dimProduct shape.length (enc.sizePerThread.getD · 1))
  let laneDigit := digit (enc.threadsPerWarp.getD · 1) enc.order dim lane
  let warpDigit := digit (enc.warpsPerCTA.getD · 1) enc.order dim warp
  let ctaDigit := digit (enc.CTALayout.CTAsPerCGA.getD · 1) enc.CTALayout.CTAOrder dim block %
    enc.parts shape dim
  ctaDigit * enc.shapePerCTA shape dim +
    (regDigit + enc.sizePerThread.getD dim 1 * (laneDigit + enc.threadsPerWarp.getD dim 1 *
      (warpDigit + enc.warpsPerCTA.getD dim 1 * repDigit))) % enc.shapePerCTA shape dim

/-- The sizes are powers of two, one for each dimension of the tensor, and the
orders are permutations. -/
structure WellFormed : Prop where
  sizePerThread : PowersOfTwo shape.length enc.sizePerThread
  threadsPerWarp : PowersOfTwo shape.length enc.threadsPerWarp
  warpsPerCTA : PowersOfTwo shape.length enc.warpsPerCTA
  order : enc.order.Perm (List.range shape.length)
  CTALayout : enc.CTALayout.WellFormed shape.length
  shapePow : PowersOfTwo shape.length shape

/-- The sizes fit the integers of the compiler. -/
structure Fits : Prop where
  tile : ∀ dim < shape.length, enc.tileSize dim < 2 ^ 31
  ctas : ∀ dim < shape.length, enc.CTALayout.CTAsPerCGA.getD dim 1 < 2 ^ 31
  shapeSize : ∀ dim < shape.length, shape.getD dim 1 < 2 ^ 31
  inputs : enc.registers shape * enc.lanes shape * enc.warps shape * enc.blocks shape ≤ 2 ^ 64

end BlockedEncodingAttr

variable {rank : ℕ} {sizes : ℕ → ℕ} {bits : String → ℕ}

theorem digit_eq_digitOf (order : List ℕ) (h : ∀ d ∈ order, sizes d = 2 ^ bits (outDimName d))
    (dim x : ℕ) : digit sizes order dim x =
      digitOf bits (order.map outDimName) (outDimName dim) x := by
  induction order generalizing x with
  | nil => rfl
  | cons d order ih =>
    rw [digit, map_cons, digitOf, ih fun d' hd' => h d' (mem_cons_of_mem _ hd'),
      h d mem_cons_self]
    simp only [outDimName_injective.eq_iff]

theorem dimProduct_eq (h : ∀ dim < rank, sizes dim = 2 ^ bits (outDimName dim)) :
    dimProduct rank sizes = 2 ^ totalBits rank bits := by
  have hpow : ∀ l : List ℕ, (l.map fun dim => 2 ^ bits (outDimName dim)).prod =
      2 ^ ((l.map outDimName).map bits).sum := by
    intro l
    induction l with
    | nil => rfl
    | cons d l ih => rw [map_cons, prod_cons, ih, map_cons, map_cons,
        sum_cons, Nat.pow_add]
  rw [dimProduct, totalBits, standardOutDimNames, ← hpow]
  congr 1
  apply map_congr_left
  intro dim hdim
  exact h dim (mem_range.mp hdim)

end Coordinates

section Bits

variable {enc : BlockedEncodingAttr} {shape : List ℕ} (h : enc.WellFormed shape) {dim : ℕ}
  (hdim : dim < shape.length)

def BlockedEncodingAttr.missingBits (enc : BlockedEncodingAttr) (shape : List ℕ) : String → ℕ :=
  (enc.tileSpec shape.length).missing (perCtaOf shape.length shape enc.CTALayout)

include hdim

theorem getD_eq_bits {sizes : List ℕ} (hsizes : PowersOfTwo shape.length sizes) :
    sizes.getD dim 1 = 2 ^ bitsOf shape.length sizes (outDimName dim) := by
  rw [bitsOf_name hdim, ← hsizes.getD_eq]

include h

theorem tileSize_eq : enc.tileSize dim = 2 ^ enc.tileBits shape.length (outDimName dim) := by
  rw [BlockedEncodingAttr.tileSize, getD_eq_bits hdim h.sizePerThread,
    getD_eq_bits hdim h.threadsPerWarp, getD_eq_bits hdim h.warpsPerCTA, ← Nat.pow_add,
    ← Nat.pow_add]
  rfl

theorem parts_eq : enc.parts shape dim =
    2 ^ min (bitsOf shape.length enc.CTALayout.CTASplitNum (outDimName dim))
      (bitsOf shape.length shape (outDimName dim)) := by
  rw [BlockedEncodingAttr.parts, getD_eq_bits hdim h.CTALayout.CTASplitNum,
    getD_eq_bits hdim h.shapePow]
  rcases Nat.le_total (bitsOf shape.length enc.CTALayout.CTASplitNum (outDimName dim))
    (bitsOf shape.length shape (outDimName dim)) with hle | hle
  · rw [Nat.min_eq_left hle, Nat.min_eq_left (Nat.pow_le_pow_right (by omega) hle)]
  · rw [Nat.min_eq_right hle, Nat.min_eq_right (Nat.pow_le_pow_right (by omega) hle)]

theorem shapePerCTA_eq : enc.shapePerCTA shape dim =
    2 ^ perCtaOf shape.length shape enc.CTALayout (outDimName dim) := by
  rw [BlockedEncodingAttr.shapePerCTA, parts_eq h hdim, getD_eq_bits hdim h.shapePow,
    Nat.pow_div (Nat.min_le_right _ _) (by omega)]
  rfl

theorem missingBits_eq : enc.missingBits shape (outDimName dim) =
    perCtaOf shape.length shape enc.CTALayout (outDimName dim) -
      enc.tileBits shape.length (outDimName dim) := by
  rw [BlockedEncodingAttr.missingBits, LayoutSpec.missing, outLog_tileSpec h.order hdim]

theorem repetitions_eq : enc.repetitions shape dim =
    2 ^ enc.missingBits shape (outDimName dim) := by
  rw [BlockedEncodingAttr.repetitions, shapePerCTA_eq h hdim, tileSize_eq h hdim,
    missingBits_eq h hdim]
  rcases Nat.le_total (enc.tileBits shape.length (outDimName dim))
    (perCtaOf shape.length shape enc.CTALayout (outDimName dim)) with hle | hle
  · rw [Nat.pow_div hle (by omega), Nat.max_eq_right (Nat.two_pow_pos _)]
  · rw [Nat.sub_eq_zero_of_le hle, Nat.pow_zero, Nat.max_eq_left]
    rcases hle.eq_or_lt with heq | hlt
    · rw [heq, Nat.div_self (Nat.two_pow_pos _)]
    · rw [Nat.div_eq_of_lt (Nat.pow_lt_pow_right (by omega) hlt)]
      omega

end Bits

section Value

variable {enc : BlockedEncodingAttr} {shape : List ℕ} (h : enc.WellFormed shape)

include h

omit h in
theorem inLog_digitsSpec (inDim : String) (order : List ℕ) (width size : String → ℕ) (d : String) :
    (digitsSpec inDim order width size).inLog d =
      if d = inDim then ((order.map outDimName).map width).sum else 0 := by
  simp only [digitsSpec, LayoutSpec.appendDigits, LayoutSpec.empty, Nat.zero_add]

omit h in
theorem value_digitsSpec_self (inDim : String) (order : List ℕ) (bits : String → ℕ) (name : String)
    (ins : String → ℕ) : (digitsSpec inDim order bits bits).value name ins =
      digitOf bits (order.map outDimName) name (ins inDim) := by
  rw [value_digitsSpec, Nat.mod_eq_of_lt (digitOf_lt _)]

theorem inLog_tileSpec (d : String) : (enc.tileSpec shape.length).inLog d =
    (if d = "register" then totalBits shape.length (bitsOf shape.length enc.sizePerThread) else 0) +
    (if d = "lane" then totalBits shape.length (bitsOf shape.length enc.threadsPerWarp) else 0) +
    (if d = "warp" then totalBits shape.length (bitsOf shape.length enc.warpsPerCTA) else 0) := by
  simp only [BlockedEncodingAttr.tileSpec, LayoutSpec.mul, inLog_digitsSpec,
    totalBits_order h.order]

theorem value_tileSpec {dim : ℕ} (hdim : dim < shape.length) (ins : String → ℕ) :
    (enc.tileSpec shape.length).value (outDimName dim) ins =
      digit (enc.sizePerThread.getD · 1) enc.order dim (ins "register") +
        enc.sizePerThread.getD dim 1 *
          (digit (enc.threadsPerWarp.getD · 1) enc.order dim (ins "lane") +
            enc.threadsPerWarp.getD dim 1 *
              digit (enc.warpsPerCTA.getD · 1) enc.order dim (ins "warp")) := by
  have hmem : ∀ {d}, d ∈ enc.order → d < shape.length := fun hd =>
    mem_range.mp (h.order.mem_iff.mp hd)
  have hlane : (digitsSpec "register" enc.order (bitsOf shape.length enc.sizePerThread)
      (bitsOf shape.length enc.sizePerThread)).inLog "lane" = 0 := by
    rw [inLog_digitsSpec, if_neg (by decide)]
  have hwarp : (digitsSpec "register" enc.order (bitsOf shape.length enc.sizePerThread)
      (bitsOf shape.length enc.sizePerThread)).inLog "warp" = 0 := by
    rw [inLog_digitsSpec, if_neg (by decide)]
  have hwarp' : (digitsSpec "lane" enc.order (bitsOf shape.length enc.threadsPerWarp)
      (bitsOf shape.length enc.threadsPerWarp)).inLog "warp" = 0 := by
    rw [inLog_digitsSpec, if_neg (by decide)]
  rw [digit_eq_digitOf enc.order (fun d hd => getD_eq_bits (hmem hd) h.sizePerThread),
    digit_eq_digitOf enc.order (fun d hd => getD_eq_bits (hmem hd) h.threadsPerWarp),
    digit_eq_digitOf enc.order (fun d hd => getD_eq_bits (hmem hd) h.warpsPerCTA),
    getD_eq_bits hdim h.sizePerThread, getD_eq_bits hdim h.threadsPerWarp]
  simp only [BlockedEncodingAttr.tileSpec, LayoutSpec.mul, value_digitsSpec_self, hlane, hwarp,
    hwarp', outLog_digitsSpec _ h.order _ _ hdim, Nat.pow_zero, Nat.mul_one, Nat.div_one,
    Nat.pow_add]
  ring

theorem value_ctaSpec {dim : ℕ} (hdim : dim < shape.length) (ins : String → ℕ) :
    (ctaSpec shape.length shape enc.CTALayout (enc.tileSpec shape.length)).value
      (outDimName dim) ins =
      ((enc.tileSpec shape.length).value (outDimName dim) ins + enc.tileSize dim *
        digit (enc.repetitions shape) enc.order dim
          (ins "register" / dimProduct shape.length (enc.sizePerThread.getD · 1))) %
            enc.shapePerCTA shape dim := by
  have hmem : ∀ {d}, d ∈ enc.order → d < shape.length := fun hd =>
    mem_range.mp (h.order.mem_iff.mp hd)
  have hthreads : dimProduct shape.length (enc.sizePerThread.getD · 1) =
      2 ^ totalBits shape.length (bitsOf shape.length enc.sizePerThread) :=
    dimProduct_eq fun d hd => getD_eq_bits hd h.sizePerThread
  have hin : (enc.tileSpec shape.length).inLog "register" =
      totalBits shape.length (bitsOf shape.length enc.sizePerThread) := by
    rw [inLog_tileSpec h, if_pos rfl, if_neg (by decide), if_neg (by decide)]
    rfl
  have hrep : digit (enc.repetitions shape) enc.order dim
      (ins "register" / dimProduct shape.length (enc.sizePerThread.getD · 1)) =
      digitOf (enc.missingBits shape) (enc.order.map outDimName) (outDimName dim)
        (ins "register" / 2 ^ (enc.tileSpec shape.length).inLog "register") := by
    rw [digit_eq_digitOf enc.order (fun d hd => repetitions_eq h (hmem hd)), hthreads, hin]
  rw [hrep, tileSize_eq h hdim, shapePerCTA_eq h hdim, ← outLog_tileSpec h.order hdim]
  simp only [ctaSpec, LayoutSpec.truncate, LayoutSpec.appendDigits, outDims_tileSpec]
  rw [← BlockedEncodingAttr.missingBits, Nat.mod_eq_of_lt (digitOf_lt _)]

theorem value_cgaSpec {dim : ℕ} (hdim : dim < shape.length) (outDims : List String)
    (ins : String → ℕ) : (cgaSpec shape.length shape enc.CTALayout outDims).value
      (outDimName dim) ins = digit (enc.CTALayout.CTAsPerCGA.getD · 1) enc.CTALayout.CTAOrder dim
        (ins "block") % enc.parts shape dim := by
  have hmem : ∀ {d}, d ∈ enc.CTALayout.CTAOrder → d < shape.length := fun hd =>
    mem_range.mp (h.CTALayout.CTAOrder.mem_iff.mp hd)
  rw [digit_eq_digitOf enc.CTALayout.CTAOrder
    (fun d hd => getD_eq_bits (hmem hd) h.CTALayout.CTAsPerCGA), parts_eq h hdim]
  simp only [cgaSpec, LayoutSpec.truncate, value_digitsSpec]
  rcases Nat.le_total (bitsOf shape.length enc.CTALayout.CTASplitNum (outDimName dim))
    (bitsOf shape.length shape (outDimName dim)) with hle | hle
  · rw [Nat.min_eq_left hle, Nat.mod_eq_of_lt
      ((Nat.mod_lt _ (Nat.two_pow_pos _)).trans_le (Nat.pow_le_pow_right (by omega) hle))]
  · rw [Nat.min_eq_right hle, Nat.mod_mod_of_dvd _ (Nat.pow_dvd_pow 2 hle)]

theorem outLog_ctaSpec {dim : ℕ} (hdim : dim < shape.length) :
    (ctaSpec shape.length shape enc.CTALayout (enc.tileSpec shape.length)).outLog
      (outDimName dim) = perCtaOf shape.length shape enc.CTALayout (outDimName dim) := by
  have hmem : outDimName dim ∈ enc.order.map outDimName :=
    mem_map_of_mem (h.order.mem_iff.mpr (mem_range.mpr hdim))
  simp only [ctaSpec, LayoutSpec.truncate, LayoutSpec.appendDigits, outDims_tileSpec, if_pos hmem,
    LayoutSpec.missing]
  omega

theorem inLog_ctaSpec (d : String) :
    (ctaSpec shape.length shape enc.CTALayout (enc.tileSpec shape.length)).inLog d =
      (enc.tileSpec shape.length).inLog d +
        if d = "register" then totalBits shape.length (enc.missingBits shape) else 0 := by
  simp only [ctaSpec, LayoutSpec.truncate, LayoutSpec.appendDigits, outDims_tileSpec]
  rw [← BlockedEncodingAttr.missingBits, totalBits_order h.order]

theorem value_combinedSpec {dim : ℕ} (hdim : dim < shape.length) (ins : String → ℕ) :
    (combinedSpec shape.length shape enc.CTALayout (enc.tileSpec shape.length)).value
      (outDimName dim) ins =
      enc.coordinate shape (ins "register") (ins "lane") (ins "warp") (ins "block") dim := by
  have hblock : (ctaSpec shape.length shape enc.CTALayout
      (enc.tileSpec shape.length)).inLog "block" = 0 := by
    rw [inLog_ctaSpec h, inLog_tileSpec h, if_neg (by decide), if_neg (by decide),
      if_neg (by decide), if_neg (by decide)]
  simp only [combinedSpec, LayoutSpec.mul, value_ctaSpec h hdim, value_tileSpec h hdim,
    value_cgaSpec h hdim, outLog_ctaSpec h hdim, hblock, Nat.pow_zero, Nat.div_one,
    BlockedEncodingAttr.coordinate, ← shapePerCTA_eq h hdim, BlockedEncodingAttr.tileSize]
  rw [Nat.add_comm, Nat.mul_comm (enc.shapePerCTA shape dim)]
  congr 2
  ring

end Value

section Claim

variable (f2 : F2Reduce) {enc : BlockedEncodingAttr} {shape : List ℕ}

def hardwareIndex (reg lane warp block : ℕ) (inDim : String) : ℕ :=
  if inDim = "register" then reg
  else if inDim = "lane" then lane
  else if inDim = "warp" then warp
  else block

/-- A surjective layout of the registers, lanes, warps and blocks onto the tensor
with the coordinates of the encoding. -/
structure IsBlockedLayout (enc : BlockedEncodingAttr) (shape : List ℕ) (L : LinearLayout) : Prop where
  outDims : L.outDims.entries = (standardOutDimNames shape.length).zip shape
  surjective : L.surjective = true
  inDims : L.getInDimNames =
    if shape = [] then [] else ["register", "lane", "warp", "block"]
  registers : 2 ^ L.getInDimSizeLog2 "register" = enc.registers shape
  lanes : 2 ^ L.getInDimSizeLog2 "lane" = enc.lanes shape
  warps : 2 ^ L.getInDimSizeLog2 "warp" = enc.warps shape
  blocks : 2 ^ L.getInDimSizeLog2 "block" = enc.blocks shape
  apply : ∀ reg < enc.registers shape, ∀ lane < enc.lanes shape, ∀ warp < enc.warps shape,
    ∀ block < enc.blocks shape, (∀ inDim ∈ L.getInDimNames, L.getInDimSizeLog2 inDim ≤ 31) →
    L.apply (L.getInDimNames.map fun inDim =>
        (inDim, hardwareIndex reg lane warp block inDim)) =
      .ok ((List.range shape.length).map fun dim =>
        (outDimName dim, enc.coordinate shape reg lane warp block dim))
  holder : ∀ element : ℕ → ℕ, (∀ dim < shape.length, element dim < shape.getD dim 1) →
    ∃ reg < enc.registers shape, ∃ lane < enc.lanes shape, ∃ warp < enc.warps shape,
      ∃ block < enc.blocks shape, ∀ dim < shape.length,
        enc.coordinate shape reg lane warp block dim = element dim

section Described

variable (h : enc.WellFormed shape) {L : LinearLayout}
  (hL : Describes L (combinedSpec shape.length shape enc.CTALayout (enc.tileSpec shape.length)))

include h

omit h in
theorem inLog_combinedSpec (layout : CTALayoutAttr) (t : LayoutSpec) (d : String) :
    (combinedSpec shape.length shape layout t).inLog d =
      (ctaSpec shape.length shape layout t).inLog d +
        if d = "block" then ((layout.CTAOrder.map outDimName).map
          (bitsOf shape.length layout.CTAsPerCGA)).sum else 0 := by
  simp only [combinedSpec, LayoutSpec.mul, cgaSpec, LayoutSpec.truncate, inLog_digitsSpec]

include hL

theorem registers_of_describes : 2 ^ L.getInDimSizeLog2 "register" = enc.registers shape := by
  rw [hL.inSize, inLog_combinedSpec, inLog_ctaSpec h, inLog_tileSpec h, if_pos rfl,
    if_neg (by decide), if_neg (by decide), if_pos rfl, if_neg (by decide)]
  simp only [Nat.add_zero]
  rw [Nat.pow_add, BlockedEncodingAttr.registers,
    dimProduct_eq fun d hd => getD_eq_bits hd h.sizePerThread,
    dimProduct_eq fun d hd => repetitions_eq h hd]

theorem lanes_of_describes : 2 ^ L.getInDimSizeLog2 "lane" = enc.lanes shape := by
  rw [hL.inSize, inLog_combinedSpec, inLog_ctaSpec h, inLog_tileSpec h, if_neg (by decide),
    if_pos rfl, if_neg (by decide), if_neg (by decide), if_neg (by decide)]
  simp only [Nat.zero_add, Nat.add_zero]
  rw [BlockedEncodingAttr.lanes,
    dimProduct_eq fun d hd => getD_eq_bits hd h.threadsPerWarp]

theorem warps_of_describes : 2 ^ L.getInDimSizeLog2 "warp" = enc.warps shape := by
  rw [hL.inSize, inLog_combinedSpec, inLog_ctaSpec h, inLog_tileSpec h, if_neg (by decide),
    if_neg (by decide), if_pos rfl, if_neg (by decide), if_neg (by decide)]
  simp only [Nat.zero_add, Nat.add_zero]
  rw [BlockedEncodingAttr.warps,
    dimProduct_eq fun d hd => getD_eq_bits hd h.warpsPerCTA]

theorem blocks_of_describes : 2 ^ L.getInDimSizeLog2 "block" = enc.blocks shape := by
  rw [hL.inSize, inLog_combinedSpec, inLog_ctaSpec h, inLog_tileSpec h, if_neg (by decide),
    if_neg (by decide), if_neg (by decide), if_neg (by decide), if_pos rfl]
  simp only [Nat.zero_add]
  rw [totalBits_order h.CTALayout.CTAOrder, BlockedEncodingAttr.blocks,
    dimProduct_eq fun d hd => getD_eq_bits hd h.CTALayout.CTAsPerCGA]

theorem inDims_of_describes : L.getInDimNames =
    if shape = [] then [] else ["register", "lane", "warp", "block"] := by
  have horder : ∀ {order : List ℕ}, order.Perm (List.range shape.length) →
      (order.map outDimName = [] ↔ shape = []) := by
    intro order hperm
    rw [map_eq_nil_iff, ← length_eq_zero_iff, hperm.length_eq, length_range,
      length_eq_zero_iff]
  have htile : (enc.tileSpec shape.length).inDims =
      if shape = [] then [] else ["register", "lane", "warp"] := by
    simp only [BlockedEncodingAttr.tileSpec, LayoutSpec.mul, inDims_digitsSpec, horder h.order]
    split_ifs
    · rfl
    · decide
  rw [hL.inDims]
  simp only [combinedSpec, LayoutSpec.mul, ctaSpec, cgaSpec, LayoutSpec.truncate,
    LayoutSpec.appendDigits, outDims_tileSpec, htile, inDims_digitsSpec, horder h.order,
    horder h.CTALayout.CTAOrder]
  split_ifs
  · rfl
  · decide

theorem outDims_of_describes : L.outDims.entries =
    (standardOutDimNames shape.length).zip shape := by
  have hnames : L.getOutDimNames = standardOutDimNames shape.length := hL.outDims
  have hlen : L.outDims.entries.length = shape.length := by
    rw [← MapVector.length_keys]
    change L.getOutDimNames.length = _
    rw [hnames]
    simp [standardOutDimNames]
  apply ext_getElem
  · rw [hlen]
    simp [standardOutDimNames]
  · intro dim hdim hdim'
    have hlt : dim < shape.length := hlen ▸ hdim
    have hkey : L.outDims.entries[dim].1 = outDimName dim := by
      have hname : dim < L.getOutDimNames.length := by
        rw [hnames]
        simpa [standardOutDimNames] using hlt
      have hget : L.getOutDimNames[dim] = outDimName dim := by
        simp only [hnames]
        simp [standardOutDimNames]
      simpa [RawLayout.getOutDimNames, MapVector.keys] using hget
    have hsize := size_eq_two_pow L.toRawLayout L.size_pow (getElem_mem hdim)
    have hsplit := Nat.min_le_right
      (bitsOf shape.length enc.CTALayout.CTASplitNum (outDimName dim))
      (bitsOf shape.length shape (outDimName dim))
    have hlog : L.getOutDimSizeLog2 (outDimName dim) =
        bitsOf shape.length shape (outDimName dim) := by
      rw [hL.outSize]
      change (ctaSpec _ _ _ _).outLog _ + (cgaSpec _ _ _ _).outLog _ = _
      rw [outLog_ctaSpec h hlt, outLog_cgaSpec h.CTALayout hlt, perCtaOf, perCtaBits]
      omega
    rw [hkey, hlog, ← getD_eq_bits hlt h.shapePow, getD_eq_getElem _ _ hlt] at hsize
    rw [getElem_zip]
    apply Prod.ext
    · rw [hkey]
      simp [standardOutDimNames]
    · exact hsize

theorem isBlockedLayout_of_describes : IsBlockedLayout enc shape L where
  outDims := outDims_of_describes h hL
  surjective := hL.surjective
  inDims := inDims_of_describes h hL
  registers := registers_of_describes h hL
  lanes := lanes_of_describes h hL
  warps := warps_of_describes h hL
  blocks := blocks_of_describes h hL
  apply := by
    intro reg hreg lane hlane warp hwarp block hblock hwidth
    rw [← registers_of_describes h hL] at hreg
    rw [← lanes_of_describes h hL] at hlane
    rw [← warps_of_describes h hL] at hwarp
    rw [← blocks_of_describes h hL] at hblock
    have hfit : ∀ inDim ∈ L.getInDimNames,
        hardwareIndex reg lane warp block inDim < 2 ^ L.getInDimSizeLog2 inDim := by
      intro inDim hin
      rw [inDims_of_describes h hL] at hin
      split_ifs at hin
      · exact absurd hin not_mem_nil
      · simp only [mem_cons, not_mem_nil, or_false] at hin
        rcases hin with rfl | rfl | rfl | rfl
        · exact hreg
        · exact hlane
        · exact hwarp
        · exact hblock
    rw [apply_eq_value L.toRawLayout hfit hwidth]
    have hnames : L.getOutDimNames = (List.range shape.length).map outDimName := hL.outDims
    rw [hnames, map_map]
    congr 1
    apply map_congr_left
    intro dim hdim
    rw [Function.comp_apply, hL.value, value_combinedSpec h (mem_range.mp hdim)]
    rfl
  holder := by
    intro element helement
    have hnames : L.getOutDimNames = standardOutDimNames shape.length := hL.outDims
    have hlog : ∀ dim < shape.length, 2 ^ L.getOutDimSizeLog2 (outDimName dim) =
        shape.getD dim 1 := by
      intro dim hdim
      have hentry : (outDimName dim, shape[dim]) ∈ L.outDims.entries := by
        rw [outDims_of_describes h hL]
        apply mem_of_getElem? (i := dim)
        rw [List.getElem?_zip_eq_some]
        exact ⟨by simp [standardOutDimNames, hdim], List.getElem?_eq_getElem hdim⟩
      rw [← size_eq_two_pow L.toRawLayout L.size_pow hentry, getD_eq_getElem _ _ hdim]
    obtain ⟨ins, hfit, hvalue⟩ := L.surjective_iff_reaches.mp hL.surjective
      (fun name => element ((standardOutDimNames shape.length).idxOf name))
      (fun name hname => by
        rw [hnames] at hname
        obtain ⟨dim, hdim, rfl⟩ := mem_standardOutDimNames.mp hname
        rw [idxOf_name hdim, hlog dim hdim]
        exact helement dim hdim)
    have hreached : ∀ dim < shape.length, enc.coordinate shape (ins "register") (ins "lane")
        (ins "warp") (ins "block") dim = element dim := by
      intro dim hdim
      have hout : outDimName dim ∈ L.getOutDimNames := by
        rw [hnames]
        exact mem_standardOutDimNames.mpr ⟨dim, hdim, rfl⟩
      rw [← value_combinedSpec h hdim, ← hL.value, hvalue _ hout, idxOf_name hdim]
    by_cases hempty : shape = []
    · have hrank : ∀ dim, ¬ dim < shape.length := by
        intro dim
        rw [hempty]
        exact Nat.not_lt_zero dim
      exact ⟨0, registers_of_describes h hL ▸ Nat.two_pow_pos _, 0,
        lanes_of_describes h hL ▸ Nat.two_pow_pos _, 0,
        warps_of_describes h hL ▸ Nat.two_pow_pos _, 0,
        blocks_of_describes h hL ▸ Nat.two_pow_pos _, fun dim hdim => absurd hdim (hrank dim)⟩
    · have hin := inDims_of_describes h hL
      rw [if_neg hempty] at hin
      exact ⟨ins "register", registers_of_describes h hL ▸ hfit "register" (by simp [hin]),
        ins "lane", lanes_of_describes h hL ▸ hfit "lane" (by simp [hin]),
        ins "warp", warps_of_describes h hL ▸ hfit "warp" (by simp [hin]),
        ins "block", blocks_of_describes h hL ▸ hfit "block" (by simp [hin]), hreached⟩

end Described

theorem toLinearLayout_describes (h : enc.WellFormed shape) (hfits : enc.Fits shape) :
    ∃ L : LinearLayout, enc.toLinearLayout f2 shape = .ok L ∧ Describes L
      (combinedSpec shape.length shape enc.CTALayout (enc.tileSpec shape.length)) := by
  have hlt : ∀ {bits : ℕ}, 2 ^ bits < 2 ^ 31 → bits < 31 := fun hpow =>
    (Nat.pow_lt_pow_iff_right (by omega)).mp hpow
  have htile : SmallTile shape.length enc := {
    sizePerThread := h.sizePerThread
    threadsPerWarp := h.threadsPerWarp
    warpsPerCTA := h.warpsPerCTA
    order := h.order
    tile_lt := fun dim hdim => hlt (tileSize_eq h hdim ▸ hfits.tile dim hdim) }
  have hsmall : SmallShape shape.length shape enc.CTALayout := {
    shapePow := h.shapePow
    wellFormed := h.CTALayout
    shape_lt := fun dim hdim => hlt (getD_eq_bits hdim h.shapePow ▸ hfits.shapeSize dim hdim)
    ctas_lt := fun dim hdim =>
      hlt (getD_eq_bits hdim h.CTALayout.CTAsPerCGA ▸ hfits.ctas dim hdim) }
  have hbits : totalBits shape.length (bitsOf shape.length enc.sizePerThread) +
      totalBits shape.length (enc.missingBits shape) +
      totalBits shape.length (bitsOf shape.length enc.threadsPerWarp) +
      totalBits shape.length (bitsOf shape.length enc.warpsPerCTA) +
      totalBits shape.length (bitsOf shape.length enc.CTALayout.CTAsPerCGA) ≤ 64 := by
    have hinputs := hfits.inputs
    rw [BlockedEncodingAttr.registers, BlockedEncodingAttr.lanes, BlockedEncodingAttr.warps,
      BlockedEncodingAttr.blocks, dimProduct_eq fun d hd => getD_eq_bits hd h.sizePerThread,
      dimProduct_eq fun d hd => repetitions_eq h hd,
      dimProduct_eq fun d hd => getD_eq_bits hd h.threadsPerWarp,
      dimProduct_eq fun d hd => getD_eq_bits hd h.warpsPerCTA,
      dimProduct_eq fun d hd => getD_eq_bits hd h.CTALayout.CTAsPerCGA, ← Nat.pow_add,
      ← Nat.pow_add, ← Nat.pow_add, ← Nat.pow_add] at hinputs
    exact (Nat.pow_le_pow_iff_right (by omega)).mp hinputs
  obtain ⟨R, W, P, Q, T, hR, hW, hP, hQ, hT, hTdesc, htotal⟩ := tile_describes f2 htile (by omega)
  have houts := outDims_tileSpec enc shape.length
  have hmissing : ((enc.tileSpec shape.length).outDims.map
      ((enc.tileSpec shape.length).missing (perCtaOf shape.length shape enc.CTALayout))).sum =
      totalBits shape.length (enc.missingBits shape) := by
    rw [houts]
    exact totalBits_order h.order _
  obtain ⟨L, hL, hdesc⟩ := combineCtaCgaWithShape_describes f2 hsmall hTdesc
    (by
      rw [houts]
      exact map_outDimName_perm h.order)
    (by
      by_cases hnil : enc.order.map outDimName = []
      · exact Or.inl (houts.trans hnil)
      · right
        simp only [BlockedEncodingAttr.tileSpec, LayoutSpec.mul, inDims_digitsSpec, if_neg hnil]
        rfl)
    (fun dim hdim => by
      have hmem : outDimName dim ∈ enc.order.map outDimName :=
        mem_map_of_mem (h.order.mem_iff.mpr (mem_range.mpr hdim))
      simp only [LayoutSpec.appendDigits, houts, if_pos hmem, LayoutSpec.missing]
      omega)
    (by
      rw [hmissing, htotal]
      change _ + _ + totalBits _ _ ≤ 64
      omega)
  have hlen : (shape.length == enc.order.length) = true := by
    rw [h.order.length_eq, length_range, beq_self_eq_true]
  refine ⟨L, ?_, hdesc⟩
  simp only [BlockedEncodingAttr.toLinearLayout]
  rw [assertThat_ok hlen, ok_bind, hR, ok_bind, hW, ok_bind, hP, ok_bind, hQ, ok_bind, hT, ok_bind,
    hL]

/-- A blocked encoding divides the tensor among registers, lanes, warps and
blocks, and every element has a holder. -/
theorem toLinearLayout_blocked (h : enc.WellFormed shape) (hfits : enc.Fits shape) :
    ∃ L : LinearLayout, enc.toLinearLayout f2 shape = .ok L ∧ IsBlockedLayout enc shape L := by
  obtain ⟨L, hL, hdesc⟩ := toLinearLayout_describes f2 h hfits
  exact ⟨L, hL, isBlockedLayout_of_describes h hdesc⟩

omit f2 in
theorem powersOfTwo_of_bits (bits : List ℕ) {sizes : List ℕ} (h : sizes = bits.map (2 ^ ·)) :
    PowersOfTwo bits.length sizes where
  length := by rw [h, length_map]
  pow := by
    intro size hsize
    rw [h] at hsize
    obtain ⟨k, _, rfl⟩ := mem_map.mp hsize
    exact ⟨k, rfl⟩

/-- Four lanes of two elements, two warps and four blocks, of which two share
their part. -/
def fourBlocks : BlockedEncodingAttr :=
  ⟨[1, 2], [2, 2], [2, 1], [1, 0], ⟨[2, 2], [1, 2], [0, 1]⟩⟩

theorem fourBlocks_wellFormed : fourBlocks.WellFormed [2, 32] where
  sizePerThread := powersOfTwo_of_bits [0, 1] rfl
  threadsPerWarp := powersOfTwo_of_bits [1, 1] rfl
  warpsPerCTA := powersOfTwo_of_bits [1, 0] rfl
  order := by decide
  CTALayout := ⟨powersOfTwo_of_bits [1, 1] rfl, powersOfTwo_of_bits [0, 1] rfl, by decide,
    by decide⟩
  shapePow := powersOfTwo_of_bits [1, 5] rfl

/-- The first dimension is shorter than the tile and the second one longer. -/
theorem toLinearLayout_blocked_fourBlocks : ∃ L : LinearLayout,
    fourBlocks.toLinearLayout f2reduce [2, 32] = .ok L ∧ IsBlockedLayout fourBlocks [2, 32] L :=
  toLinearLayout_blocked f2reduce fourBlocks_wellFormed
    ⟨by decide, by decide, by decide, by decide⟩

/-- A thread of `2 ^ 30` elements in each of three dimensions. -/
def hugeThread : BlockedEncodingAttr :=
  ⟨[2 ^ 30, 2 ^ 30, 2 ^ 30], [1, 1, 1], [1, 1, 1], [0, 1, 2],
    ⟨[1, 1, 1], [1, 1, 1], [0, 1, 2]⟩⟩

theorem hugeThread_wellFormed : hugeThread.WellFormed [1, 1, 1] where
  sizePerThread := powersOfTwo_of_bits [30, 30, 30] rfl
  threadsPerWarp := powersOfTwo_of_bits [0, 0, 0] rfl
  warpsPerCTA := powersOfTwo_of_bits [0, 0, 0] rfl
  order := by decide
  CTALayout := ⟨powersOfTwo_of_bits [0, 0, 0] rfl, powersOfTwo_of_bits [0, 0, 0] rfl, by decide,
    by decide⟩
  shapePow := powersOfTwo_of_bits [0, 0, 0] rfl

/-- The blocks count from the last dimension, the other indices from the first. -/
def reversedCTAs : BlockedEncodingAttr :=
  ⟨[1, 1], [1, 1], [1, 1], [0, 1], ⟨[2, 2], [2, 2], [1, 0]⟩⟩

theorem reversedCTAs_wellFormed : reversedCTAs.WellFormed [2, 2] where
  sizePerThread := powersOfTwo_of_bits [0, 0] rfl
  threadsPerWarp := powersOfTwo_of_bits [0, 0] rfl
  warpsPerCTA := powersOfTwo_of_bits [0, 0] rfl
  order := by decide
  CTALayout := ⟨powersOfTwo_of_bits [1, 1] rfl, powersOfTwo_of_bits [1, 1] rfl, by decide,
    by decide⟩
  shapePow := powersOfTwo_of_bits [1, 1] rfl

/-- A layout of more than 64 columns is refused, and the blocks are counted in
their own order: block 1 holds the element `(0, 1)`, in `order` it would be
`(1, 0)`. -/
theorem toLinearLayout_limits_and_CTAOrder :
    (hugeThread.WellFormed [1, 1, 1] ∧
      (hugeThread.toLinearLayout f2reduce [1, 1, 1]).isOk = false) ∧
    reversedCTAs.WellFormed [2, 2] ∧
      ((reversedCTAs.toLinearLayout f2reduce [2, 2]).toOption.map fun L =>
        (L.apply [("register", 0), ("lane", 0), ("warp", 0), ("block", 1)]).toOption) =
          some (some [("dim0", 0), ("dim1", 1)]) ∧
      (List.range 2).map ({ reversedCTAs with
        CTALayout := ⟨[2, 2], [2, 2], reversedCTAs.order⟩ }.coordinate [2, 2] 0 0 0 1) = [1, 0] :=
  ⟨⟨hugeThread_wellFormed, by decide +kernel⟩, reversedCTAs_wellFormed, by decide +kernel,
    by decide⟩

end Claim

end TritonCpu
