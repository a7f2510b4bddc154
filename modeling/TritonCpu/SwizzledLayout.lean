import TritonCpu.BlockedLayout
import TritonCpu.LayoutExact

/-!
# Swizzled shared layouts

The elements of a tensor in shared memory follow each other in the order of the
encoding, and the columns of a row are permuted: the column is xored with the
phase of the row. The layout fixes the images of the powers of two only.
-/

set_option autoImplicit false

namespace TritonCpu

open XorSpan LinearLayout List

structure SharedEncodingAttr where
  vec : ℕ
  perPhase : ℕ
  maxPhase : ℕ
  order : List ℕ
  CTALayout : CTALayoutAttr
  hasLeadingOffset : Bool
  deriving DecidableEq, Repr

/-- `(vec * ((row / perPhase) % maxPhase)) % numCols` on `int`. A basis that is
negative is refused. -/
def swizzledCol (shared : SharedEncodingAttr) (numCols row : ℤ) : Except LayoutError ℕ :=
  let vec := int32 shared.vec
  let perPhase := int32 shared.perPhase
  let maxPhase := int32 shared.maxPhase
  if perPhase = 0 ∨ maxPhase = 0 ∨ numCols = 0 then .error .undefined
  else
    let product := vec * (row.tdiv perPhase).tmod maxPhase
    if int32 product ≠ product then .error .undefined
    else if product.tmod numCols < 0 then .error (.assertion "basis >= 0")
    else .ok (product.tmod numCols).toNat

section Build

variable (f2 : F2Reduce)

/-- `llvm::Log2_32` of an `int`. -/
def log2_32 (size : ℤ) : ℕ := Nat.log2 (size % 2 ^ 32).toNat

/-- `bases2D[row]` for one row. -/
def rowBasis (shared : SharedEncodingAttr) (numCols : ℤ) (logRow : ℕ) :
    Except LayoutError (List ℕ) := do
  let col ← swizzledCol shared numCols (2 ^ logRow)
  pure [2 ^ logRow, col]

def sharedToLinearLayoutNoLeadingOffset (shape : List ℕ) (shared : SharedEncodingAttr) :
    Except LayoutError LinearLayout := do
  assertThat "!shared.getHasLeadingOffset()" (!shared.hasLeadingOffset)
  let rank := shape.length
  if rank = 1 then do
    let size ← elementAt shape 0
    let ctaLayout ← identity1D f2 (int32 size) "offset" "dim0"
    combineCtaCgaWithShape f2 ctaLayout shared.CTALayout shape
  else do
    let outDimNames := standardOutDimNames rank
    assertThat "shape.size() >= 2" (decide (2 ≤ rank))
    let colDim ← elementAt shared.order 0
    let rowDim ← elementAt shared.order 1
    let numCols := int32 (← elementAt shape colDim)
    let numRows := int32 (← elementAt shape rowDim)
    let colDimName ← elementAt outDimNames colDim
    let rowDimName ← elementAt outDimNames rowDim
    let cols := (List.range (log2_32 numCols)).map fun logCol => [0, 2 ^ logCol]
    let rows ← (List.range (log2_32 numRows)).mapM (rowBasis shared numCols)
    let ctaLayout ← createInferred f2 (makeBasesMap [("offset", cols ++ rows)])
      [rowDimName, colDimName]
    let ctaLayout ← (List.range' 2 (rank - 2)).foldlM (fun ctaLayout i => do
      let dim ← elementAt shared.order i
      multiplyIdentity f2 "offset" shape outDimNames ctaLayout dim) ctaLayout
    combineCtaCgaWithShape f2 ctaLayout shared.CTALayout shape

end Build

def SharedEncodingAttr.phaseCol (shared : SharedEncodingAttr) (row : ℕ) : ℕ :=
  shared.vec * ((row / shared.perPhase) % shared.maxPhase)

/-- The sizes of an encoding are powers of two, `unsigned` ones, and the phases
stay within the columns. -/
structure Phases (shared : SharedEncodingAttr) (colBits : ℕ) : Prop where
  vec : ∃ k, shared.vec = 2 ^ k
  perPhase : ∃ k < 32, shared.perPhase = 2 ^ k
  maxPhase : ∃ k, shared.maxPhase = 2 ^ k
  fits : shared.vec * shared.maxPhase ≤ 2 ^ colBits

section Phase

variable {shared : SharedEncodingAttr} {colBits : ℕ} (h : Phases shared colBits)

include h

theorem Phases.phaseCol_lt (row : ℕ) : shared.phaseCol row < 2 ^ colBits := by
  obtain ⟨v, hv⟩ := h.vec
  obtain ⟨m, hm⟩ := h.maxPhase
  calc shared.phaseCol row < shared.vec * shared.maxPhase := by
        rw [SharedEncodingAttr.phaseCol, hv, hm]
        exact Nat.mul_lt_mul_of_pos_left (Nat.mod_lt _ (Nat.two_pow_pos m)) (Nat.two_pow_pos v)
    _ ≤ 2 ^ colBits := h.fits

theorem Phases.phaseCol_xor (a b : ℕ) :
    shared.phaseCol (a ^^^ b) = shared.phaseCol a ^^^ shared.phaseCol b := by
  obtain ⟨v, hv⟩ := h.vec
  obtain ⟨p, -, hp⟩ := h.perPhase
  obtain ⟨m, hm⟩ := h.maxPhase
  simp only [SharedEncodingAttr.phaseCol, hv, hp, hm, ← Nat.shiftRight_eq_div_pow,
    Nat.shiftRight_xor_distrib, Nat.xor_mod_two_pow, Nat.mul_comm (2 ^ v), ← Nat.shiftLeft_eq,
    Nat.shiftLeft_xor_distrib]

omit h in
theorem phaseCol_zero : shared.phaseCol 0 = 0 := by
  rw [SharedEncodingAttr.phaseCol, Nat.zero_div, Nat.zero_mod, Nat.mul_zero]

theorem Phases.swizzledCol_eq (hcol : colBits < 31) {logRow : ℕ} (hrow : logRow < 31) :
    swizzledCol shared (2 ^ colBits) (2 ^ logRow) = .ok (shared.phaseCol (2 ^ logRow)) := by
  have hlt := h.phaseCol_lt (2 ^ logRow)
  obtain ⟨v, hv⟩ := h.vec
  obtain ⟨p, hp32, hp⟩ := h.perPhase
  obtain ⟨m, hm⟩ := h.maxPhase
  have hbits : v + m ≤ colBits := by
    have hfits := h.fits
    rw [hv, hm, ← Nat.pow_add] at hfits
    exact (Nat.pow_le_pow_iff_right (by omega)).mp hfits
  have hcast : ∀ k : ℕ, (2 : ℤ) ^ k = ((2 ^ k : ℕ) : ℤ) := fun k => by push_cast; rfl
  have hvec : int32 shared.vec = (2 ^ v : ℕ) := by
    rw [hv]
    exact int32_of_lt (Nat.pow_lt_pow_right (by omega) (by omega))
  have hmax : int32 shared.maxPhase = (2 ^ m : ℕ) := by
    rw [hm]
    exact int32_of_lt (Nat.pow_lt_pow_right (by omega) (by omega))
  have hper : int32 shared.perPhase ≠ 0 ∧
      Int.tdiv (2 ^ logRow) (int32 shared.perPhase) = ((2 ^ logRow / 2 ^ p : ℕ) : ℤ) := by
    rw [hp]
    by_cases hp31 : p < 31
    · rw [int32_of_lt (Nat.pow_lt_pow_right (by omega) hp31)]
      have hpos := Nat.two_pow_pos p
      refine ⟨by omega, ?_⟩
      rw [hcast, Int.ofNat_tdiv]
    · -- the conversion of `2 ^ 31` is negative, and no row reaches it
      obtain rfl : p = 31 := by omega
      have hconv : int32 ((2 ^ 31 : ℕ) : ℤ) = -(2 ^ 31) := by decide
      have hlow : 2 ^ logRow < 2 ^ 31 := Nat.pow_lt_pow_right (by omega) hrow
      have hlow' : (2 : ℤ) ^ logRow < 2 ^ 31 := by exact_mod_cast hlow
      rw [hconv, Int.tdiv_neg, Nat.div_eq_of_lt hlow, Int.tdiv_eq_zero_of_lt (by positivity) hlow']
      decide
  have hpos : ((2 ^ m : ℕ) : ℤ) ≠ 0 := Int.natCast_ne_zero.mpr (Nat.two_pow_pos m).ne'
  have hcols : (2 : ℤ) ^ colBits ≠ 0 := by positivity
  have hproduct : ((2 ^ v : ℕ) : ℤ) * Int.tmod ((2 ^ logRow / 2 ^ p : ℕ) : ℤ) ((2 ^ m : ℕ) : ℤ) =
      (shared.phaseCol (2 ^ logRow) : ℕ) := by
    rw [SharedEncodingAttr.phaseCol, hv, hp, hm, ← Int.ofNat_tmod]
    exact (Int.natCast_mul _ _).symm
  have hint : int32 (shared.phaseCol (2 ^ logRow) : ℕ) = (shared.phaseCol (2 ^ logRow) : ℕ) :=
    int32_of_lt (hlt.trans (Nat.pow_lt_pow_right (by omega) hcol))
  have hmod : Int.tmod (shared.phaseCol (2 ^ logRow) : ℕ) (2 ^ colBits) =
      (shared.phaseCol (2 ^ logRow) : ℕ) := by
    rw [hcast, ← Int.ofNat_tmod, Nat.mod_eq_of_lt hlt]
  simp only [swizzledCol, hvec, hmax, hper.2, hproduct, hint, hmod]
  rw [if_neg (by simp [hper.1, hcols]), if_neg (by simp),
    if_neg (Int.not_lt.mpr (Int.natCast_nonneg _)), Int.toNat_natCast]

end Phase

section Rows

variable {shared : SharedEncodingAttr} {colBits rowBits : ℕ}

/-- `bases2D` -/
def bases2D (shared : SharedEncodingAttr) (colBits rowBits : ℕ) : List (List ℕ) :=
  ((List.range colBits).map fun logCol => [0, 2 ^ logCol]) ++
    (List.range rowBits).map fun logRow => [2 ^ logRow, shared.phaseCol (2 ^ logRow)]

theorem length_bases2D : (bases2D shared colBits rowBits).length = colBits + rowBits := by
  simp [bases2D]

theorem combine_zeros (n x : ℕ) : combine (List.replicate n 0) x = 0 := by
  induction n generalizing x with
  | zero => rfl
  | succ n ih => rw [replicate_succ, combine, ih]; simp

theorem combine_rows (x : ℕ) : combine ((bases2D shared colBits rowBits).map fun b => b.getD 0 0) x =
    x / 2 ^ colBits % 2 ^ rowBits := by
  have hcols : ((List.range colBits).map fun logCol => [0, 2 ^ logCol]).map
      (fun b => b.getD 0 0) = List.replicate colBits 0 := by
    rw [map_map]
    exact (map_const' ..).trans (by rw [length_range])
  have hrows : ((List.range rowBits).map fun logRow => [2 ^ logRow, shared.phaseCol (2 ^ logRow)]).map
      (fun b => b.getD 0 0) = (List.range rowBits).map (2 ^ ·) := by
    rw [map_map]
    rfl
  rw [bases2D, map_append, hcols, hrows, combine_append, combine_zeros, Nat.zero_xor,
    length_replicate, combine_units]

theorem combine_cols (h : Phases shared colBits) (x : ℕ) :
    combine ((bases2D shared colBits rowBits).map fun b => b.getD 1 0) x =
      (x % 2 ^ colBits) ^^^ shared.phaseCol (x / 2 ^ colBits % 2 ^ rowBits) := by
  have hcols : ((List.range colBits).map fun logCol => [0, 2 ^ logCol]).map
      (fun b => b.getD 1 0) = (List.range colBits).map (2 ^ ·) := by
    rw [map_map]
    rfl
  have hrows : ((List.range rowBits).map fun logRow => [2 ^ logRow, shared.phaseCol (2 ^ logRow)]).map
      (fun b => b.getD 1 0) = ((List.range rowBits).map (2 ^ ·)).map shared.phaseCol := by
    rw [map_map, map_map]
    rfl
  rw [bases2D, map_append, hcols, hrows, combine_append, combine_units, length_map,
    length_range, combine_map _ _ shared.phaseCol phaseCol_zero h.phaseCol_xor, combine_units]

end Rows

section Loop

variable (f2 : F2Reduce) {rank : ℕ}

theorem foldlM_elementAt {α β : Type} (f : β → α → Except LayoutError β) (front rest : List α)
    (b : β) : (List.range' front.length rest.length).foldlM (fun b i => do
      let a ← elementAt (front ++ rest) i
      f b a) b = rest.foldlM f b := by
  induction rest generalizing front b with
  | nil => rfl
  | cons a rest ih =>
    have hget : elementAt (front ++ a :: rest) front.length = .ok a := by
      rw [elementAt, List.getElem?_append_right le_rfl, Nat.sub_self]
      rfl
    rw [length_cons, List.range'_succ, foldlM_cons, foldlM_cons, hget, ok_bind]
    have hrest := fun b => ih (front ++ [a]) b
    simp only [append_assoc, singleton_append, length_append,
      length_singleton] at hrest
    cases f b a with
    | error e => rfl
    | ok b' => exact hrest b'

theorem multiplyIdentity_computes {inDim : String} {sizes : List ℕ} {dim : ℕ}
    (hsizes : PowersOfTwo rank sizes) (hdim : dim < rank)
    (hsmall : bitsOf rank sizes (outDimName dim) < 31) {ret : LinearLayout} {t : LayoutSpec}
    (ht : Computes ret t) (hnew : t.outLog (outDimName dim) = 0)
    (hcols : t.total + bitsOf rank sizes (outDimName dim) ≤ 64) : ∃ ret' : LinearLayout,
      multiplyIdentity f2 inDim sizes (standardOutDimNames rank) ret dim = .ok ret' ∧
      Computes ret' (t.appendDigits inDim [outDimName dim] (bitsOf rank sizes)
        (bitsOf rank sizes)) := by
  obtain ⟨factor, heq, hfactor⟩ := multiplyIdentity_eq f2 inDim hsizes hdim hsmall ret
  rw [heq]
  exact mul_oneDim_computes inDim (bitsOf rank sizes) (bitsOf rank sizes) f2 ht
    hfactor.computes le_rfl (by rwa [hnew, Nat.zero_add]) hcols

end Loop

/-- The two most minor dimensions of a tensor, the columns and the rows. -/
def swizzleSpec (shared : SharedEncodingAttr) (bits : String → ℕ) (colDim rowDim : ℕ) :
    LayoutSpec :=
  oneInputSpec "offset"
    (bases2D shared (bits (outDimName colDim)) (bits (outDimName rowDim)))
    [outDimName rowDim, outDimName colDim] bits

section Swizzle

variable (f2 : F2Reduce) {shared : SharedEncodingAttr} {bits : String → ℕ} {colDim rowDim : ℕ}
  (h : Phases shared (bits (outDimName colDim))) (hne : rowDim ≠ colDim)

theorem columnOf_row (bs : List (List ℕ)) : columnOf bs [outDimName rowDim, outDimName colDim]
    (outDimName rowDim) = bs.map fun b => b.getD 0 0 := by
  rw [columnOf, idxOf_cons_self]

include hne

theorem columnOf_col (bs : List (List ℕ)) : columnOf bs [outDimName rowDim, outDimName colDim]
    (outDimName colDim) = bs.map fun b => b.getD 1 0 := by
  have hname : outDimName rowDim ≠ outDimName colDim := fun heq =>
    hne (outDimName_injective heq)
  rw [columnOf, idxOf_cons_ne _ hname, idxOf_cons_self]

include h

theorem swizzle_computes (hcol : bits (outDimName colDim) < 31) (hrow : bits (outDimName rowDim) < 31)
    (hcols : bits (outDimName colDim) + bits (outDimName rowDim) ≤ 64) :
    ∃ L : LinearLayout, createInferred f2 (makeBasesMap [("offset",
        bases2D shared (bits (outDimName colDim)) (bits (outDimName rowDim)))])
          [outDimName rowDim, outDimName colDim] = .ok L ∧
      Computes L (swizzleSpec shared bits colDim rowDim) := by
  have hname : outDimName rowDim ≠ outDimName colDim := fun heq =>
    hne (outDimName_injective heq)
  have hnodup : [outDimName rowDim, outDimName colDim].Nodup := by simp [hname]
  have hmem : ∀ {P : String → Prop}, P (outDimName rowDim) → P (outDimName colDim) →
      ∀ o ∈ [outDimName rowDim, outDimName colDim], P o := by
    intro P hr hc o ho
    simp only [mem_cons, not_mem_nil, or_false] at ho
    rcases ho with rfl | rfl
    · exact hr
    · exact hc
  apply oneInput_computes "offset" _ hnodup f2 bits (hmem hrow hcol)
  · intro basis hbasis
    simp only [bases2D, mem_append, mem_map] at hbasis
    rcases hbasis with ⟨i, -, rfl⟩ | ⟨i, -, rfl⟩
    · rfl
    · rfl
  · rw [length_bases2D]
    exact hcols
  · apply hmem
    · intro c hc
      rw [columnOf_row, bases2D, map_append, map_map, map_map,
        mem_append, mem_map, mem_map] at hc
      rcases hc with ⟨i, -, rfl⟩ | ⟨i, hi, rfl⟩
      · exact Nat.two_pow_pos _
      · exact Nat.pow_lt_pow_right (by omega) (mem_range.mp hi)
    · intro c hc
      rw [columnOf_col hne, bases2D, map_append, map_map, map_map,
        mem_append, mem_map, mem_map] at hc
      rcases hc with ⟨i, hi, rfl⟩ | ⟨i, -, rfl⟩
      · exact Nat.pow_lt_pow_right (by omega) (mem_range.mp hi)
      · exact h.phaseCol_lt _
  · intro target htarget
    have htargetRow := htarget (outDimName rowDim) (by simp)
    have htargetCol := htarget (outDimName colDim) (by simp)
    -- the column before it is swizzled
    obtain ⟨col, hswizzled⟩ : ∃ col, target (outDimName colDim) ^^^
        shared.phaseCol (target (outDimName rowDim)) = col := ⟨_, rfl⟩
    have hlow : col < 2 ^ bits (outDimName colDim) :=
      hswizzled ▸ Nat.xor_lt_two_pow htargetCol (h.phaseCol_lt _)
    obtain ⟨x, hx⟩ : ∃ x, col + 2 ^ bits (outDimName colDim) * target (outDimName rowDim) = x :=
      ⟨_, rfl⟩
    have hrowOf : x / 2 ^ bits (outDimName colDim) % 2 ^ bits (outDimName rowDim) =
        target (outDimName rowDim) := by
      rw [← hx, Nat.add_mul_div_left _ _ (Nat.two_pow_pos _), Nat.div_eq_of_lt hlow, Nat.zero_add,
        Nat.mod_eq_of_lt htargetRow]
    have hcolOf : x % 2 ^ bits (outDimName colDim) = col := by
      rw [← hx, Nat.add_mul_mod_self_left, Nat.mod_eq_of_lt hlow]
    refine ⟨x, ?_, hmem ?_ ?_⟩
    · rw [length_bases2D, Nat.pow_add, ← hx]
      calc col + 2 ^ bits (outDimName colDim) * target (outDimName rowDim) <
          2 ^ bits (outDimName colDim) * (target (outDimName rowDim) + 1) := by
            rw [Nat.mul_add_one]
            omega
        _ ≤ _ := Nat.mul_le_mul_left _ htargetRow
    · rw [columnOf_row, combine_rows, hrowOf]
    · rw [columnOf_col hne, combine_cols h, hcolOf, hrowOf, ← hswizzled, Nat.xor_assoc, Nat.xor_self,
        Nat.xor_zero]

end Swizzle

namespace SharedEncodingAttr

variable (shared : SharedEncodingAttr) (shape : List ℕ)

def colDim : ℕ := shared.order.getD 0 0

def rowDim : ℕ := shared.order.getD 1 0

/-- The sizes are powers of two, the phases stay within the columns, and there is
one block. -/
structure WellFormed : Prop where
  rank : 2 ≤ shape.length
  order : shared.order.Perm (List.range shape.length)
  shapePow : PowersOfTwo shape.length shape
  vec : ∃ k, shared.vec = 2 ^ k
  perPhase : ∃ k < 32, shared.perPhase = 2 ^ k
  maxPhase : ∃ k, shared.maxPhase = 2 ^ k
  phases : shared.vec * shared.maxPhase ≤ shape.getD shared.colDim 1
  hasLeadingOffset : shared.hasLeadingOffset = false
  CTAsPerCGA : shared.CTALayout.CTAsPerCGA = List.replicate shape.length 1
  CTASplitNum : shared.CTALayout.CTASplitNum = List.replicate shape.length 1
  CTAOrder : shared.CTALayout.CTAOrder.Perm (List.range shape.length)

/-- The sizes fit the integers of the compiler. -/
structure Fits : Prop where
  shapeSize : ∀ dim < shape.length, shape.getD dim 1 < 2 ^ 31
  elements : shape.prod ≤ 2 ^ 64

/-- The layout that the encoding builds before the blocks are added. -/
def tileSpec : LayoutSpec :=
  (swizzleSpec shared (bitsOf shape.length shape) shared.colDim shared.rowDim).appendDigits "offset"
    ((shared.order.drop 2).map outDimName) (bitsOf shape.length shape) (bitsOf shape.length shape)

end SharedEncodingAttr

theorem log2_32_two_pow {bits : ℕ} (h : bits < 31) : log2_32 (2 ^ bits) = bits := by
  have hlt : (2 : ℤ) ^ bits < 2 ^ 32 := pow_lt_pow_right₀ (by omega) (by omega)
  rw [log2_32, Int.emod_eq_of_lt (by positivity) hlt, Int.toNat_pow_of_nonneg (by omega)]
  exact Nat.log2_two_pow

section Shape

variable {rank : ℕ} {shape : List ℕ}

theorem prod_eq_two_pow (h : PowersOfTwo rank shape) :
    shape.prod = 2 ^ totalBits rank (bitsOf rank shape) := by
  rw [← dimProduct_eq fun dim hdim => (bitsOf_name hdim shape).symm ▸ h.getD_eq, dimProduct]
  congr 1
  apply ext_getElem
  · simp [h.length]
  · intro dim hdim hdim'
    rw [getElem_map, getElem_range, getD_eq_getElem _ _ hdim]

theorem powersOfTwo_ones (rank : ℕ) : PowersOfTwo rank (List.replicate rank 1) where
  length := length_replicate
  pow := fun _ hsize => ⟨0, eq_of_mem_replicate hsize⟩

theorem bitsOf_ones {dim : ℕ} (hdim : dim < rank) :
    bitsOf rank (List.replicate rank 1) (outDimName dim) = 0 := by
  rw [bitsOf_name hdim, getD_eq_getElem _ _ (by simpa using hdim), getElem_replicate]
  rfl

end Shape

section Tile

variable (f2 : F2Reduce) {shared : SharedEncodingAttr} {shape : List ℕ}
  (h : shared.WellFormed shape)

include h

theorem SharedEncodingAttr.WellFormed.order_eq :
    shared.order = shared.colDim :: shared.rowDim :: shared.order.drop 2 := by
  have hlen : shared.order.length = shape.length := by
    rw [h.order.length_eq, length_range]
  have hrank := h.rank
  rw [SharedEncodingAttr.colDim, SharedEncodingAttr.rowDim]
  match horder : shared.order with
  | [] => simp [horder] at hlen; omega
  | [_] => simp [horder] at hlen; omega
  | _ :: _ :: _ => rfl

theorem SharedEncodingAttr.WellFormed.nodup :
    (shared.colDim :: shared.rowDim :: shared.order.drop 2).Nodup := by
  rw [← h.order_eq]
  exact h.order.nodup_iff.mpr nodup_range

theorem SharedEncodingAttr.WellFormed.mem_order {dim : ℕ} :
    dim ∈ shared.colDim :: shared.rowDim :: shared.order.drop 2 ↔ dim < shape.length := by
  rw [← h.order_eq, h.order.mem_iff, mem_range]

theorem SharedEncodingAttr.WellFormed.colDim_lt : shared.colDim < shape.length :=
  h.mem_order.mp mem_cons_self

theorem SharedEncodingAttr.WellFormed.rowDim_lt : shared.rowDim < shape.length :=
  h.mem_order.mp (by simp)

theorem SharedEncodingAttr.WellFormed.rest_lt {dim : ℕ} (hdim : dim ∈ shared.order.drop 2) :
    dim < shape.length :=
  h.mem_order.mp (by simp [hdim])

theorem SharedEncodingAttr.WellFormed.row_ne_col : shared.rowDim ≠ shared.colDim := by
  have hnodup := h.nodup
  simp only [nodup_cons, mem_cons, not_or] at hnodup
  exact Ne.symm hnodup.1.1

theorem SharedEncodingAttr.WellFormed.toPhases :
    Phases shared (bitsOf shape.length shape (outDimName shared.colDim)) where
  vec := h.vec
  perPhase := h.perPhase
  maxPhase := h.maxPhase
  fits := by
    rw [bitsOf_name h.colDim_lt, ← h.shapePow.getD_eq]
    exact h.phases

theorem SharedEncodingAttr.WellFormed.smallShape (hfits : SharedEncodingAttr.Fits shape) :
    SmallShape shape.length shape shared.CTALayout where
  shapePow := h.shapePow
  wellFormed := {
    CTAsPerCGA := h.CTAsPerCGA ▸ powersOfTwo_ones _
    CTASplitNum := h.CTASplitNum ▸ powersOfTwo_ones _
    CTAOrder := h.CTAOrder
    split_dvd := fun dim hdim => by rw [h.CTAsPerCGA, h.CTASplitNum] }
  shape_lt := fun dim hdim => by
    have hlt := hfits.shapeSize dim hdim
    rw [h.shapePow.getD_eq, ← bitsOf_name hdim] at hlt
    exact (Nat.pow_lt_pow_iff_right (by omega)).mp hlt
  ctas_lt := fun dim hdim => by
    rw [h.CTAsPerCGA, bitsOf_ones hdim]
    omega

omit h in
theorem outLog_swizzleSpec {dim : ℕ} (bits : String → ℕ) :
    (swizzleSpec shared bits shared.colDim shared.rowDim).outLog (outDimName dim) =
      if dim = shared.rowDim ∨ dim = shared.colDim then bits (outDimName dim) else 0 := by
  simp only [swizzleSpec, oneInputSpec, mem_cons, not_mem_nil, or_false,
    outDimName_injective.eq_iff]

theorem totalBits_split (bits : String → ℕ) : totalBits shape.length bits =
    bits (outDimName shared.colDim) + bits (outDimName shared.rowDim) +
      (((shared.order.drop 2).map outDimName).map bits).sum := by
  rw [← totalBits_order h.order, h.order_eq, map_cons, map_cons, map_cons,
    map_cons, sum_cons, sum_cons, ← h.order_eq, Nat.add_assoc]

theorem tile_computes (hfits : SharedEncodingAttr.Fits shape) : ∃ L T : LinearLayout,
    createInferred f2 (makeBasesMap [("offset", bases2D shared
        (bitsOf shape.length shape (outDimName shared.colDim))
        (bitsOf shape.length shape (outDimName shared.rowDim)))])
      [outDimName shared.rowDim, outDimName shared.colDim] = .ok L ∧
    (shared.order.drop 2).foldlM (multiplyIdentity f2 "offset" shape
      (standardOutDimNames shape.length)) L = .ok T ∧
    Computes T (shared.tileSpec shape) ∧
    (shared.tileSpec shape).total = totalBits shape.length (bitsOf shape.length shape) := by
  have hsmall := (h.smallShape hfits).shape_lt
  have hsplit := totalBits_split h (bitsOf shape.length shape)
  have htotal : totalBits shape.length (bitsOf shape.length shape) ≤ 64 := by
    have helements := hfits.elements
    rw [prod_eq_two_pow h.shapePow] at helements
    exact (Nat.pow_le_pow_iff_right (by omega)).mp helements
  have hnodup := h.nodup
  simp only [nodup_cons, mem_cons, not_or] at hnodup
  obtain ⟨L, hL, hLdesc⟩ := swizzle_computes f2 h.toPhases h.row_ne_col (hsmall _ h.colDim_lt)
    (hsmall _ h.rowDim_lt) (by omega)
  have hLtotal : (swizzleSpec shared (bitsOf shape.length shape) shared.colDim
      shared.rowDim).total = bitsOf shape.length shape (outDimName shared.colDim) +
        bitsOf shape.length shape (outDimName shared.rowDim) := by
    simp [LayoutSpec.total, swizzleSpec, oneInputSpec, length_bases2D]
  have hnew : ∀ dim ∈ shared.order.drop 2, (swizzleSpec shared (bitsOf shape.length shape)
      shared.colDim shared.rowDim).outLog (outDimName dim) = 0 := by
    intro dim hdim
    rw [outLog_swizzleSpec, if_neg]
    rintro (rfl | rfl)
    · exact hnodup.2.1 hdim
    · exact hnodup.1.2 hdim
  obtain ⟨T, hT, hTdesc, hTtotal⟩ := foldlM_appendDigits "offset" (bitsOf shape.length shape)
    (bitsOf shape.length shape) outDimName
    (multiplyIdentity f2 "offset" shape (standardOutDimNames shape.length)) (shared.order.drop 2)
    (hnodup.2.2.map outDimName_injective) id hLdesc (fun _ _ => le_rfl)
    (fun dim hdim => by
      rw [hnew dim hdim, Nat.zero_add]
      exact hsmall dim (h.rest_lt hdim))
    (by rw [hLtotal]; omega)
    (fun dim hdim ret t ht hlog _ _ hfit =>
      multiplyIdentity_computes f2 h.shapePow (h.rest_lt hdim) (hsmall dim (h.rest_lt hdim)) ht
        (hlog.trans (hnew dim hdim)) hfit)
  exact ⟨L, T, hL, hT, hTdesc, by rw [SharedEncodingAttr.tileSpec, hTtotal, hLtotal]; omega⟩

theorem outDims_tileSpec' : (shared.tileSpec shape).outDims.Perm
    (standardOutDimNames shape.length) := by
  have hnodup := h.nodup
  simp only [nodup_cons, mem_cons, not_or] at hnodup
  have hnot : ∀ o ∈ (shared.order.drop 2).map outDimName,
      o ∉ [outDimName shared.rowDim, outDimName shared.colDim] := by
    intro o ho
    obtain ⟨dim, hdim, rfl⟩ := mem_map.mp ho
    simp only [mem_cons, not_mem_nil, or_false, outDimName_injective.eq_iff, not_or]
    constructor
    · rintro rfl
      exact hnodup.2.1 hdim
    · rintro rfl
      exact hnodup.1.2 hdim
  have houts : (shared.tileSpec shape).outDims = [outDimName shared.rowDim,
      outDimName shared.colDim] ++ (shared.order.drop 2).map outDimName := by
    simp only [SharedEncodingAttr.tileSpec, LayoutSpec.appendDigits, swizzleSpec, oneInputSpec]
    congr 1
    exact filter_eq_self.mpr fun o ho => decide_eq_true (hnot o ho)
  rw [houts]
  refine List.Perm.trans ?_ (map_outDimName_perm h.order)
  rw [h.order_eq, map_cons, map_cons, ← h.order_eq]
  exact List.Perm.swap _ _ _

theorem outLog_tileSpec' {dim : ℕ} (hdim : dim < shape.length) :
    (shared.tileSpec shape).outLog (outDimName dim) =
      bitsOf shape.length shape (outDimName dim) := by
  have hnodup := h.nodup
  simp only [nodup_cons, mem_cons, not_or] at hnodup
  have hmem := h.mem_order.mpr hdim
  simp only [mem_cons] at hmem
  have hrest : outDimName dim ∈ (shared.order.drop 2).map outDimName ↔
      dim ∈ shared.order.drop 2 := mem_map_of_injective outDimName_injective
  change (swizzleSpec shared _ _ _).outLog _ + _ = _
  rw [outLog_swizzleSpec]
  simp only [hrest]
  rcases hmem with rfl | rfl | hmem
  · rw [if_pos (Or.inr rfl), if_neg hnodup.1.2, Nat.add_zero]
  · rw [if_pos (Or.inl rfl), if_neg hnodup.2.1, Nat.add_zero]
  · rw [if_neg, if_pos hmem, Nat.zero_add]
    rintro (rfl | rfl)
    · exact hnodup.2.1 hmem
    · exact hnodup.1.2 hmem

theorem sharedToLinearLayout_computes (hfits : SharedEncodingAttr.Fits shape) :
    ∃ L : LinearLayout, sharedToLinearLayoutNoLeadingOffset f2 shape shared = .ok L ∧
      Computes L { (shared.tileSpec shape).mul (cgaSpec shape.length shape shared.CTALayout
        (shared.tileSpec shape).outDims) with outDims := standardOutDimNames shape.length } := by
  have hsmall := h.smallShape hfits
  have htotalBits : totalBits shape.length (bitsOf shape.length shape) ≤ 64 := by
    have helements := hfits.elements
    rw [prod_eq_two_pow h.shapePow] at helements
    exact (Nat.pow_le_pow_iff_right (by omega)).mp helements
  have hones : ((standardOutDimNames shape.length).map
      (bitsOf shape.length shared.CTALayout.CTAsPerCGA)).sum = 0 := by
    rw [sum_eq_zero_iff]
    intro bits hbits
    obtain ⟨name, hname, rfl⟩ := mem_map.mp hbits
    obtain ⟨dim, hdim, rfl⟩ := mem_standardOutDimNames.mp hname
    rw [h.CTAsPerCGA, bitsOf_ones hdim]
  obtain ⟨L₀, T, hL₀, hT, hTdesc, htotal⟩ := tile_computes f2 h hfits
  obtain ⟨L, hL, hdesc⟩ := combineCtaCgaWithShape_exact f2 hsmall
    (fun dim hdim => by rw [h.CTASplitNum, bitsOf_ones hdim]) hTdesc (outDims_tileSpec' h)
    (Or.inr rfl) (by
      simp only [SharedEncodingAttr.tileSpec, LayoutSpec.appendDigits, swizzleSpec, oneInputSpec]
      split_ifs <;> rfl)
    (fun dim hdim => outLog_tileSpec' h hdim) (by omega)
  refine ⟨L, ?_, hdesc⟩
  have hrank := h.rank
  have hrank₁ : shape.length ≠ 1 := by omega
  have hcolSize : elementAt shape shared.colDim =
      .ok (2 ^ bitsOf shape.length shape (outDimName shared.colDim)) :=
    h.shapePow.elementAt_eq h.colDim_lt
  have hrowSize := h.shapePow.elementAt_eq h.rowDim_lt
  have hcolBits := hsmall.shape_lt _ h.colDim_lt
  have hrowBits := hsmall.shape_lt _ h.rowDim_lt
  have hrows : (List.range (bitsOf shape.length shape (outDimName shared.rowDim))).mapM
      (rowBasis shared (2 ^ bitsOf shape.length shape (outDimName shared.colDim))) =
        .ok ((List.range (bitsOf shape.length shape (outDimName shared.rowDim))).map fun logRow =>
          [2 ^ logRow, shared.phaseCol (2 ^ logRow)]) := by
    apply mapM_ok
    intro logRow hlogRow
    have hlt := mem_range.mp hlogRow
    rw [rowBasis, h.toPhases.swizzledCol_eq hcolBits (hlt.trans hrowBits)]
    rfl
  have hlen : shape.length - 2 = (shared.order.drop 2).length := by
    rw [length_drop, h.order.length_eq, length_range]
  have hrest : (List.range' 2 (shape.length - 2)).foldlM (fun ctaLayout i => do
      let dim ← elementAt shared.order i
      multiplyIdentity f2 "offset" shape (standardOutDimNames shape.length) ctaLayout dim) L₀ =
        .ok T := by
    have hloop := foldlM_elementAt (multiplyIdentity f2 "offset" shape
      (standardOutDimNames shape.length)) [shared.colDim, shared.rowDim] (shared.order.drop 2) L₀
    rw [cons_append, cons_append, nil_append, ← h.order_eq, ← hlen] at hloop
    exact hloop.trans hT
  have horder₀ : elementAt shared.order 0 = .ok shared.colDim := by
    rw [h.order_eq]
    rfl
  have horder₁ : elementAt shared.order 1 = .ok shared.rowDim := by
    rw [h.order_eq]
    rfl
  have hleading : (!shared.hasLeadingOffset) = true := by rw [h.hasLeadingOffset]; rfl
  rw [sharedToLinearLayoutNoLeadingOffset, assertThat_ok hleading, ok_bind]
  change (if shape.length = 1 then _ else _) = _
  rw [if_neg hrank₁, assertThat_ok (decide_eq_true hrank), ok_bind, horder₀, ok_bind, horder₁, ok_bind,
    hcolSize, ok_bind, hrowSize, ok_bind, elementAt_name h.colDim_lt, ok_bind,
    elementAt_name h.rowDim_lt, ok_bind, int32_bits hcolBits, int32_bits hrowBits,
    log2_32_two_pow hcolBits, log2_32_two_pow hrowBits, hrows, ok_bind, ← bases2D, hL₀, ok_bind,
    hrest, ok_bind, hL]

end Tile

/-- The offset of an element when the dimensions follow each other in the order. -/
def offsetOf (shape : List ℕ) (element : ℕ → ℕ) : List ℕ → ℕ
  | [] => 0
  | dim :: order => element dim + shape.getD dim 1 * offsetOf shape element order

/-- The element that the encoding puts at the offset of an element. -/
def SharedEncodingAttr.swizzled (shared : SharedEncodingAttr) (element : ℕ → ℕ) (dim : ℕ) : ℕ :=
  if dim = shared.colDim then
    element shared.colDim ^^^
      shared.vec * ((element shared.rowDim / shared.perPhase) % shared.maxPhase)
  else element dim

def InTensor (shape : List ℕ) (element : ℕ → ℕ) : Prop :=
  ∀ dim < shape.length, element dim < shape.getD dim 1

def offsetInput (offset : ℕ) (inDim : String) : ℕ := if inDim = "offset" then offset else 0

section Offsets

variable {shape : List ℕ} {element : ℕ → ℕ} {order : List ℕ}

theorem offsetOf_congr {element' : ℕ → ℕ} (h : ∀ d ∈ order, element d = element' d) :
    offsetOf shape element order = offsetOf shape element' order := by
  induction order with
  | nil => rfl
  | cons dim order ih =>
    rw [offsetOf, offsetOf, h dim mem_cons_self, ih fun d hd => h d (mem_cons_of_mem _ hd)]

theorem offsetOf_lt (h : ∀ d ∈ order, element d < shape.getD d 1) :
    offsetOf shape element order < (order.map fun d => shape.getD d 1).prod := by
  induction order with
  | nil => exact Nat.one_pos
  | cons dim order ih =>
    have hdim := h dim mem_cons_self
    have hrest := ih fun d hd => h d (mem_cons_of_mem _ hd)
    rw [offsetOf, map_cons, prod_cons]
    calc element dim + shape.getD dim 1 * offsetOf shape element order <
        shape.getD dim 1 * (offsetOf shape element order + 1) := by
          rw [Nat.mul_add_one]
          omega
      _ ≤ _ := Nat.mul_le_mul_left _ hrest

theorem exists_offsetOf (hnodup : order.Nodup) {x : ℕ}
    (hx : x < (order.map fun d => shape.getD d 1).prod) :
    ∃ element : ℕ → ℕ, (∀ d ∈ order, element d < shape.getD d 1) ∧
      offsetOf shape element order = x := by
  induction order generalizing x with
  | nil => exact ⟨fun _ => 0, by simp, (Nat.lt_one_iff.mp hx).symm⟩
  | cons dim order ih =>
    rw [nodup_cons] at hnodup
    rw [map_cons, prod_cons] at hx
    have hpos : 0 < shape.getD dim 1 := by
      by_contra hzero
      rw [Nat.eq_zero_of_not_pos hzero, Nat.zero_mul] at hx
      exact absurd hx (Nat.not_lt_zero x)
    obtain ⟨element, helement, hoffset⟩ := ih hnodup.2 (Nat.div_lt_of_lt_mul hx)
    have hother : ∀ d ∈ order, Function.update element dim (x % shape.getD dim 1) d = element d := by
      intro d hd
      apply Function.update_of_ne
      rintro rfl
      exact hnodup.1 hd
    refine ⟨Function.update element dim (x % shape.getD dim 1), ?_, ?_⟩
    · intro d hd
      rcases mem_cons.mp hd with rfl | hd'
      · rw [Function.update_self]
        exact Nat.mod_lt _ hpos
      · rw [hother d hd']
        exact helement d hd'
    · rw [offsetOf, Function.update_self, offsetOf_congr hother, hoffset, Nat.mod_add_div]

theorem digitOf_offsetOf {bits : String → ℕ} (hnodup : order.Nodup)
    (hbits : ∀ d ∈ order, shape.getD d 1 = 2 ^ bits (outDimName d))
    (h : ∀ d ∈ order, element d < shape.getD d 1) {dim : ℕ} (hdim : dim ∈ order) :
    digitOf bits (order.map outDimName) (outDimName dim) (offsetOf shape element order) =
      element dim := by
  induction order with
  | nil => exact absurd hdim not_mem_nil
  | cons d order ih =>
    have hd := h d mem_cons_self
    rw [nodup_cons] at hnodup
    rw [map_cons, digitOf, offsetOf, ← hbits d mem_cons_self]
    by_cases heq : d = dim
    · rw [if_pos (congrArg outDimName heq), Nat.add_mul_mod_self_left, Nat.mod_eq_of_lt hd, heq]
    · have hmem : dim ∈ order := (mem_cons.mp hdim).resolve_left (Ne.symm heq)
      rw [if_neg fun hname => heq (outDimName_injective hname),
        Nat.add_mul_div_left _ _ (by omega), Nat.div_eq_of_lt hd, Nat.zero_add]
      exact ih hnodup.2 (fun d' hd' => hbits d' (mem_cons_of_mem _ hd'))
        (fun d' hd' => h d' (mem_cons_of_mem _ hd')) hmem

end Offsets

/-- A layout of the offsets of one block onto the tensor, in which the columns of
a row are xored with its phase. -/
structure IsSwizzledLayout (shared : SharedEncodingAttr) (shape : List ℕ) (L : LinearLayout) :
    Prop where
  outDims : L.outDims.entries = (standardOutDimNames shape.length).zip shape
  inDims : L.getInDimNames = ["offset", "block"]
  offsets : 2 ^ L.getInDimSizeLog2 "offset" = shape.prod
  blocks : 2 ^ L.getInDimSizeLog2 "block" = 1
  value : ∀ element, InTensor shape element →
    offsetOf shape element shared.order < shape.prod ∧ ∀ dim < shape.length,
      L.value (outDimName dim) (offsetInput (offsetOf shape element shared.order)) =
        shared.swizzled element dim
  apply : shape.prod ≤ 2 ^ 31 → ∀ element, InTensor shape element →
    L.apply [("offset", offsetOf shape element shared.order), ("block", 0)] =
      .ok ((List.range shape.length).map fun dim => (outDimName dim, shared.swizzled element dim))
  bijective : ∀ target, InTensor shape target → ∃! offset, offset < shape.prod ∧
    ∀ dim < shape.length, L.value (outDimName dim) (offsetInput offset) = target dim

section Described

variable {shared : SharedEncodingAttr} {shape : List ℕ} (h : shared.WellFormed shape)

include h

theorem SharedEncodingAttr.WellFormed.size_eq {dim : ℕ} (hdim : dim < shape.length) :
    shape.getD dim 1 = 2 ^ bitsOf shape.length shape (outDimName dim) := by
  rw [bitsOf_name hdim]
  exact h.shapePow.getD_eq

theorem SharedEncodingAttr.WellFormed.prod_order :
    (shared.order.map fun d => shape.getD d 1).prod = shape.prod := by
  rw [(h.order.map fun d => shape.getD d 1).prod_eq]
  congr 1
  apply ext_getElem
  · simp
  · intro dim hdim hdim'
    rw [getElem_map, getElem_range, getD_eq_getElem _ _ hdim']

theorem value_tileSpec' {element : ℕ → ℕ} (helement : InTensor shape element) {dim : ℕ}
    (hdim : dim < shape.length) {ins : String → ℕ}
    (hins : ins "offset" = offsetOf shape element shared.order) :
    (shared.tileSpec shape).value (outDimName dim) ins = shared.swizzled element dim := by
  have hcol := helement _ h.colDim_lt
  have hrow := helement _ h.rowDim_lt
  have hcolSize := h.size_eq h.colDim_lt
  have hrowSize := h.size_eq h.rowDim_lt
  have hnodup := h.nodup
  simp only [nodup_cons, mem_cons, not_or] at hnodup
  have hnotMem : ∀ {d}, d ∉ shared.order.drop 2 →
      outDimName d ∉ (shared.order.drop 2).map outDimName := fun hd hmem =>
    hd ((mem_map_of_injective outDimName_injective).mp hmem)
  have hname : ∀ {d d' : ℕ}, d ≠ d' → outDimName d ≠ outDimName d' := fun hne heq =>
    hne (outDimName_injective heq)
  -- the offset, digit by digit
  obtain ⟨rest, hrest⟩ : ∃ rest, offsetOf shape element (shared.order.drop 2) = rest := ⟨_, rfl⟩
  have hx : ins "offset" = element shared.colDim +
      2 ^ bitsOf shape.length shape (outDimName shared.colDim) * (element shared.rowDim +
        2 ^ bitsOf shape.length shape (outDimName shared.rowDim) * rest) := by
    rw [hins, h.order_eq, offsetOf, offsetOf, hcolSize, hrowSize, hrest]
  rw [hcolSize] at hcol
  rw [hrowSize] at hrow
  have hdiv : ins "offset" / 2 ^ bitsOf shape.length shape (outDimName shared.colDim) =
      element shared.rowDim + 2 ^ bitsOf shape.length shape (outDimName shared.rowDim) * rest := by
    rw [hx, Nat.add_mul_div_left _ _ (Nat.two_pow_pos _), Nat.div_eq_of_lt hcol, Nat.zero_add]
  have hrowOf : ins "offset" / 2 ^ bitsOf shape.length shape (outDimName shared.colDim) %
      2 ^ bitsOf shape.length shape (outDimName shared.rowDim) = element shared.rowDim := by
    rw [hdiv, Nat.add_mul_mod_self_left, Nat.mod_eq_of_lt hrow]
  have hcolOf : ins "offset" % 2 ^ bitsOf shape.length shape (outDimName shared.colDim) =
      element shared.colDim := by
    rw [hx, Nat.add_mul_mod_self_left, Nat.mod_eq_of_lt hcol]
  have hrestOf : ins "offset" / 2 ^ (bitsOf shape.length shape (outDimName shared.colDim) +
      bitsOf shape.length shape (outDimName shared.rowDim)) = rest := by
    rw [Nat.pow_add, ← Nat.div_div_eq_div_mul, hdiv, Nat.add_mul_div_left _ _ (Nat.two_pow_pos _),
      Nat.div_eq_of_lt hrow, Nat.zero_add]
  change (swizzleSpec shared _ _ _).value _ ins + 2 ^ (swizzleSpec shared _ _ _).outLog _ *
    (digitOf _ _ _ (ins "offset" / 2 ^ (swizzleSpec shared _ _ _).inLog "offset") % _) = _
  have hmem := h.mem_order.mpr hdim
  simp only [mem_cons] at hmem
  rcases hmem with rfl | rfl | hmem
  · rw [digitOf_of_notMem (hnotMem hnodup.1.2), Nat.zero_mod, Nat.mul_zero, Nat.add_zero]
    simp only [swizzleSpec, oneInputSpec, mem_cons, true_or, or_true, if_true]
    rw [columnOf_col h.row_ne_col, combine_cols h.toPhases, hcolOf, hrowOf,
      SharedEncodingAttr.swizzled, if_pos rfl, SharedEncodingAttr.phaseCol]
  · rw [digitOf_of_notMem (hnotMem hnodup.2.1), Nat.zero_mod, Nat.mul_zero, Nat.add_zero]
    simp only [swizzleSpec, oneInputSpec, mem_cons, true_or, if_true]
    rw [columnOf_row, combine_rows, hrowOf, SharedEncodingAttr.swizzled, if_neg h.row_ne_col]
  · have hneCol : dim ≠ shared.colDim := by
      rintro rfl
      exact hnodup.1.2 hmem
    have hneRow : dim ≠ shared.rowDim := by
      rintro rfl
      exact hnodup.2.1 hmem
    have hdigit := digitOf_offsetOf hnodup.2.2 (fun d hd => h.size_eq (h.rest_lt hd))
      (fun d hd => helement d (h.rest_lt hd)) hmem
    have hlt := helement dim hdim
    rw [h.size_eq hdim] at hlt
    simp only [swizzleSpec, oneInputSpec, mem_cons, not_mem_nil, or_false, hname hneCol,
      hname hneRow, or_self, if_false, if_true, length_bases2D, Nat.pow_zero, Nat.one_mul,
      Nat.zero_add]
    rw [hrestOf, ← hrest, hdigit, Nat.mod_eq_of_lt hlt, SharedEncodingAttr.swizzled,
      if_neg hneCol]

theorem swizzled_swizzled (element : ℕ → ℕ) (dim : ℕ) :
    shared.swizzled (shared.swizzled element) dim = element dim := by
  have hrow : shared.swizzled element shared.rowDim = element shared.rowDim :=
    if_neg h.row_ne_col
  have hcol : shared.swizzled element shared.colDim = element shared.colDim ^^^
      shared.vec * ((element shared.rowDim / shared.perPhase) % shared.maxPhase) := if_pos rfl
  rw [SharedEncodingAttr.swizzled]
  split_ifs with hdim
  · rw [hrow, hcol, Nat.xor_assoc, Nat.xor_self, Nat.xor_zero, hdim]
  · exact if_neg hdim

theorem inTensor_swizzled {element : ℕ → ℕ} (helement : InTensor shape element) :
    InTensor shape (shared.swizzled element) := by
  intro dim hdim
  rw [SharedEncodingAttr.swizzled]
  split_ifs with hcol
  · have hlt := helement _ h.colDim_lt
    rw [hcol]
    rw [h.size_eq h.colDim_lt] at hlt ⊢
    exact Nat.xor_lt_two_pow hlt (h.toPhases.phaseCol_lt _)
  · exact helement dim hdim

theorem swizzled_congr {element element' : ℕ → ℕ}
    (heq : ∀ d < shape.length, element d = element' d) {dim : ℕ} (hdim : dim < shape.length) :
    shared.swizzled element dim = shared.swizzled element' dim := by
  rw [SharedEncodingAttr.swizzled, SharedEncodingAttr.swizzled, heq dim hdim, heq _ h.colDim_lt,
    heq _ h.rowDim_lt]

omit h in
theorem inDims_tileSpec : (shared.tileSpec shape).inDims = ["offset"] := by
  simp only [SharedEncodingAttr.tileSpec, LayoutSpec.appendDigits, swizzleSpec, oneInputSpec]
  split_ifs <;> rfl

theorem inLog_tileSpec' : (shared.tileSpec shape).inLog "offset" =
    totalBits shape.length (bitsOf shape.length shape) := by
  rw [totalBits_split h]
  simp [SharedEncodingAttr.tileSpec, LayoutSpec.appendDigits, swizzleSpec, oneInputSpec,
    length_bases2D]

variable {L : LinearLayout} (hL : Computes L { (shared.tileSpec shape).mul (cgaSpec shape.length
  shape shared.CTALayout (shared.tileSpec shape).outDims) with
    outDims := standardOutDimNames shape.length })

include hL

theorem value_of_computes {element : ℕ → ℕ} (helement : InTensor shape element) {dim : ℕ}
    (hdim : dim < shape.length) {ins : String → ℕ}
    (hins : ins "offset" = offsetOf shape element shared.order) :
    L.value (outDimName dim) ins = shared.swizzled element dim := by
  have hcga : ∀ ins, (cgaSpec shape.length shape shared.CTALayout
      (shared.tileSpec shape).outDims).value (outDimName dim) ins = 0 := by
    intro ins
    simp only [cgaSpec, LayoutSpec.truncate, value_digitsSpec]
    rw [h.CTASplitNum, bitsOf_ones hdim, Nat.pow_zero, Nat.mod_one, Nat.zero_mod]
  rw [hL.value]
  change (shared.tileSpec shape).value _ ins + _ * (cgaSpec _ _ _ _).value _ _ = _
  rw [hcga, Nat.mul_zero, Nat.add_zero, value_tileSpec' h helement hdim hins]

omit h in
theorem inLog_of_computes (d : String) : L.getInDimSizeLog2 d = (shared.tileSpec shape).inLog d +
    if d = "block" then ((shared.CTALayout.CTAOrder.map outDimName).map
      (bitsOf shape.length shared.CTALayout.CTAsPerCGA)).sum else 0 := by
  rw [hL.inSize]
  simp only [LayoutSpec.mul, cgaSpec, LayoutSpec.truncate, inLog_digitsSpec]

theorem inDims_of_computes : L.getInDimNames = ["offset", "block"] := by
  have horder : shared.CTALayout.CTAOrder.map outDimName ≠ [] := by
    have hrank := h.rank
    rw [ne_eq, map_eq_nil_iff, ← length_eq_zero_iff, h.CTAOrder.length_eq,
      length_range]
    omega
  rw [hL.inDims]
  simp only [LayoutSpec.mul, inDims_tileSpec, cgaSpec, LayoutSpec.truncate, inDims_digitsSpec,
    if_neg horder]
  rfl

theorem offsets_of_computes : 2 ^ L.getInDimSizeLog2 "offset" = shape.prod := by
  rw [inLog_of_computes hL, inLog_tileSpec' h, if_neg (by decide), Nat.add_zero,
    prod_eq_two_pow h.shapePow]

theorem blocks_of_computes : L.getInDimSizeLog2 "block" = 0 := by
  have hones : ((shared.CTALayout.CTAOrder.map outDimName).map
      (bitsOf shape.length shared.CTALayout.CTAsPerCGA)).sum = 0 := by
    rw [sum_eq_zero_iff]
    intro bits hbits
    obtain ⟨name, hname, rfl⟩ := mem_map.mp hbits
    obtain ⟨dim, hdim, rfl⟩ := mem_map.mp hname
    rw [h.CTAsPerCGA, bitsOf_ones (mem_range.mp (h.CTAOrder.mem_iff.mp hdim))]
  have htile : (shared.tileSpec shape).inLog "block" = 0 := by
    simp [SharedEncodingAttr.tileSpec, LayoutSpec.appendDigits, swizzleSpec, oneInputSpec]
  rw [inLog_of_computes hL, htile, if_pos rfl, hones]

theorem isSwizzledLayout_of_computes : IsSwizzledLayout shared shape L where
  outDims := by
    have hnames : L.getOutDimNames = standardOutDimNames shape.length := hL.outDims
    rw [entries_outDims, hnames]
    apply ext_getElem
    · simp [standardOutDimNames]
    · intro dim hdim hdim'
      have hlt : dim < shape.length := by simpa [standardOutDimNames] using hdim
      have hlog : L.getOutDimSizeLog2 (outDimName dim) =
          bitsOf shape.length shape (outDimName dim) := by
        rw [hL.outSize]
        change (shared.tileSpec shape).outLog _ + min _ _ = _
        rw [outLog_tileSpec' h hlt, outLog_digitsSpec _ h.CTAOrder _ _ hlt, h.CTASplitNum,
          bitsOf_ones hlt, Nat.zero_min, Nat.add_zero]
      simp only [getElem_map, getElem_zip, standardOutDimNames, getElem_range]
      rw [hlog, ← h.size_eq hlt, getD_eq_getElem _ _ hlt]
  inDims := inDims_of_computes h hL
  offsets := offsets_of_computes h hL
  blocks := by rw [blocks_of_computes h hL, Nat.pow_zero]
  value := fun element helement =>
    ⟨h.prod_order ▸ offsetOf_lt fun d hd =>
      helement d (mem_range.mp (h.order.mem_iff.mp hd)),
      fun dim hdim => value_of_computes h hL helement hdim rfl⟩
  apply := by
    intro hsize element helement
    have hin := inDims_of_computes h hL
    have hoffsets := offsets_of_computes h hL
    have hoffset : offsetOf shape element shared.order < shape.prod :=
      h.prod_order ▸ offsetOf_lt fun d hd => helement d (mem_range.mp (h.order.mem_iff.mp hd))
    have hfit : ∀ inDim ∈ L.getInDimNames,
        offsetInput (offsetOf shape element shared.order) inDim < 2 ^ L.getInDimSizeLog2 inDim := by
      intro inDim hmem
      rw [hin] at hmem
      simp only [mem_cons, not_mem_nil, or_false] at hmem
      rcases hmem with rfl | rfl
      · rw [hoffsets]
        exact hoffset
      · exact Nat.two_pow_pos _
    have hwidth : ∀ inDim ∈ L.getInDimNames, L.getInDimSizeLog2 inDim ≤ 31 := by
      intro inDim hmem
      rw [hin] at hmem
      simp only [mem_cons, not_mem_nil, or_false] at hmem
      rcases hmem with rfl | rfl
      · rw [← hoffsets] at hsize
        exact (Nat.pow_le_pow_iff_right (by omega)).mp hsize
      · rw [blocks_of_computes h hL]
        omega
    have happly := apply_eq_value L.toRawLayout hfit hwidth
    have hnames : L.getOutDimNames = (List.range shape.length).map outDimName := hL.outDims
    rw [hin, hnames, map_map] at happly
    refine happly.trans (congrArg Except.ok (map_congr_left fun dim hdim => ?_))
    rw [Function.comp_apply, value_of_computes h hL helement (mem_range.mp hdim) rfl]
  bijective := by
    intro target htarget
    have hmem : ∀ d ∈ shared.order, d < shape.length := fun d hd =>
      mem_range.mp (h.order.mem_iff.mp hd)
    have hswizzled := inTensor_swizzled h htarget
    refine ⟨offsetOf shape (shared.swizzled target) shared.order, ⟨?_, ?_⟩, ?_⟩
    · exact h.prod_order ▸ offsetOf_lt fun d hd => hswizzled d (hmem d hd)
    · intro dim hdim
      rw [value_of_computes h hL hswizzled hdim rfl, swizzled_swizzled h]
    · rintro offset ⟨hoffset, hvalue⟩
      obtain ⟨element, helement, rfl⟩ := exists_offsetOf
        (h.order.nodup_iff.mpr nodup_range) (h.prod_order ▸ hoffset)
      have helement' : InTensor shape element := fun d hd =>
        helement d (h.order.mem_iff.mpr (mem_range.mpr hd))
      have hreached : ∀ d < shape.length, shared.swizzled element d = target d := by
        intro d hd
        rw [← hvalue d hd, value_of_computes h hL helement' hd rfl]
      apply offsetOf_congr
      intro d hd
      rw [← swizzled_swizzled h element d]
      exact swizzled_congr h hreached (hmem d hd)

end Described

section Claim

variable (f2 : F2Reduce) {shared : SharedEncodingAttr} {shape : List ℕ}

/-- The layout of a tensor in shared memory xors the columns with the phases. -/
theorem sharedToLinearLayout_swizzled (h : shared.WellFormed shape)
    (hfits : SharedEncodingAttr.Fits shape) :
    ∃ L : LinearLayout, sharedToLinearLayoutNoLeadingOffset f2 shape shared = .ok L ∧
      IsSwizzledLayout shared shape L := by
  obtain ⟨L, hL, hdesc⟩ := sharedToLinearLayout_computes f2 h hfits
  exact ⟨L, hL, isSwizzledLayout_of_computes h hdesc⟩

/-- Two columns at a time, two rows in a phase, four phases; the rows are the
last dimension of three. -/
def pairedColumns : SharedEncodingAttr :=
  ⟨2, 2, 4, [1, 2, 0], ⟨[1, 1, 1], [1, 1, 1], [0, 1, 2]⟩, false⟩

theorem pairedColumns_wellFormed : pairedColumns.WellFormed [2, 8, 16] where
  rank := by decide
  order := by decide
  shapePow := powersOfTwo_of_bits [1, 3, 4] rfl
  vec := ⟨1, rfl⟩
  perPhase := ⟨1, by decide, rfl⟩
  maxPhase := ⟨2, rfl⟩
  phases := by decide
  hasLeadingOffset := rfl
  CTAsPerCGA := rfl
  CTASplitNum := rfl
  CTAOrder := by decide

theorem sharedToLinearLayout_swizzled_pairedColumns : ∃ L : LinearLayout,
    sharedToLinearLayoutNoLeadingOffset f2reduce [2, 8, 16] pairedColumns = .ok L ∧
      IsSwizzledLayout pairedColumns [2, 8, 16] L :=
  sharedToLinearLayout_swizzled f2reduce pairedColumns_wellFormed ⟨by decide, by decide⟩

def plainRows : SharedEncodingAttr :=
  ⟨1, 1, 1, [0, 1, 2], ⟨[1, 1, 1], [1, 1, 1], [0, 1, 2]⟩, false⟩

/-- A tensor of more than `2 ^ 64` elements has no layout. -/
theorem sharedToLinearLayout_limits :
    plainRows.WellFormed [2 ^ 30, 2 ^ 30, 2 ^ 30] ∧
      (sharedToLinearLayoutNoLeadingOffset f2reduce [2 ^ 30, 2 ^ 30, 2 ^ 30] plainRows).isOk =
        false :=
  ⟨{ rank := by decide
     order := by decide
     shapePow := powersOfTwo_of_bits [30, 30, 30] rfl
     vec := ⟨0, rfl⟩
     perPhase := ⟨0, by decide, rfl⟩
     maxPhase := ⟨0, rfl⟩
     phases := by decide
     hasLeadingOffset := rfl
     CTAsPerCGA := rfl
     CTASplitNum := rfl
     CTAOrder := by decide }, by decide +kernel⟩

end Claim

end TritonCpu
