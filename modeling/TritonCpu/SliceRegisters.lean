import TritonCpu.SliceLayout

/-!
# The registers of a slice

Taking a dimension away leaves registers whose bases are zero. They are removed,
and as many are added again as the count of the elements of a thread asks for.
Neither changes which elements the registers hold together.
-/

set_option autoImplicit false

namespace TritonCpu

open XorSpan BitFields LinearLayout List

section Rows

variable (L : RawLayout)

def registerBases : List (List ℕ) := (L.bases.find "register").getD []

theorem dimColumn_eq (d o : String) : L.dimColumn d o =
    ((L.bases.find d).getD []).map fun basis => basis.getD (L.getOutDimIndex o) 0 := by
  apply ext_getElem
  · rw [length_dimColumn, length_map, RawLayout.getInDimSizeLog2]
  · intro i hi hi'
    have hlen : i < ((L.bases.find d).getD []).length := by simpa using hi'
    simp only [RawLayout.dimColumn, RawLayout.getBasis, getElem_map, getElem_range]
    rw [getD_eq_getElem _ _ hlen]

theorem getD_of_not_live {basis : List ℕ} (h : live basis = false) (t : ℕ) :
    basis.getD t 0 = 0 := by
  by_cases ht : t < basis.length
  · rw [live, any_eq_false] at h
    rw [getD_eq_getElem _ _ ht]
    simpa using h _ (getElem_mem ht)
  · rw [getD_eq_default _ _ (by omega)]

def liveLayout : RawLayout where
  bases := L.bases.modify "register" fun old => (old.getD []).filter live
  outDims := L.outDims

theorem find_liveLayout (d : String) : (liveLayout L).bases.find d =
    if d = "register" then some ((registerBases L).filter live) else L.bases.find d :=
  MapVector.find_modify _ _ _ _

theorem getInDimSizeLog2_liveLayout (d : String) : (liveLayout L).getInDimSizeLog2 d =
    if d = "register" then ((registerBases L).filter live).length else L.getInDimSizeLog2 d := by
  rw [RawLayout.getInDimSizeLog2, find_liveLayout]
  split_ifs
  · rfl
  · rfl

theorem dimColumn_liveLayout (d o : String) : (liveLayout L).dimColumn d o =
    if d = "register" then
      ((registerBases L).filter live).map fun basis => basis.getD (L.getOutDimIndex o) 0
    else L.dimColumn d o := by
  rw [dimColumn_eq, find_liveLayout, dimColumn_eq]
  split_ifs
  · rfl
  · rfl

variable {L} (hregister : "register" ∈ L.getInDimNames)

include hregister

theorem getInDimNames_liveLayout : (liveLayout L).getInDimNames = L.getInDimNames := by
  rw [RawLayout.getInDimNames, liveLayout, MapVector.keys_modify]
  exact if_pos hregister

theorem flatBases_liveLayout {basis : List ℕ} (h : basis ∈ (liveLayout L).flatBases) :
    basis ∈ L.flatBases := by
  obtain ⟨bs, hbs, hmem⟩ := mem_flatten.mp h
  obtain ⟨e, he, rfl⟩ := mem_map.mp hbs
  have hkey : e.1 ∈ L.getInDimNames := by
    rw [← getInDimNames_liveLayout hregister]
    exact mem_map_of_mem he
  obtain ⟨rows, hrows, hfind⟩ := MapVector.exists_find hkey
  have hbases := find_liveLayout L e.1
  rw [MapVector.find_of_mem he] at hbases
  refine mem_flatten.mpr ⟨rows, mem_map.mpr ⟨_, hrows, rfl⟩, ?_⟩
  by_cases hd : e.1 = "register"
  · rw [if_pos hd, registerBases, ← hd, hfind] at hbases
    rw [Option.some.inj hbases] at hmem
    exact mem_of_mem_filter hmem
  · rw [if_neg hd, hfind] at hbases
    rwa [← Option.some.inj hbases]

theorem value_keepBits (o : String) (ins : String → ℕ) :
    (liveLayout L).value o (Function.update ins "register"
      (keepBits live (registerBases L) (ins "register"))) = L.value o ins := by
  rw [RawLayout.value, getInDimNames_liveLayout hregister]
  apply xorSum_map_congr
  intro d _
  rw [dimColumn_liveLayout]
  by_cases hd : d = "register"
  · rw [if_pos hd, hd, Function.update_self, dimColumn_eq]
    exact combine_keepBits live _ (fun basis _ hdead => getD_of_not_live hdead _) _
  · rw [if_neg hd, Function.update_of_ne hd]

theorem value_spreadBits (o : String) (ins : String → ℕ) :
    L.value o (Function.update ins "register"
      (spreadBits live (registerBases L) (ins "register"))) = (liveLayout L).value o ins := by
  rw [RawLayout.value, RawLayout.value, getInDimNames_liveLayout hregister]
  apply xorSum_map_congr
  intro d _
  rw [dimColumn_liveLayout]
  by_cases hd : d = "register"
  · rw [if_pos hd, hd, Function.update_self, dimColumn_eq]
    exact combine_spreadBits live _ _ _
  · rw [if_neg hd, Function.update_of_ne hd]

end Rows

section Drop

variable (f2 : F2Reduce) {C : LinearLayout} (hregister : "register" ∈ C.getInDimNames)
  (hsurj : C.surjective = true)

include hregister hsurj

theorem reaches_liveLayout : (liveLayout C.toRawLayout).Reaches := by
  intro target htarget
  obtain ⟨ins, hins, hvalue⟩ := C.surjective_iff_reaches.mp hsurj target htarget
  refine ⟨Function.update ins "register"
    (keepBits live (registerBases C.toRawLayout) (ins "register")), ?_, ?_⟩
  · intro d hd
    rw [getInDimNames_liveLayout hregister] at hd
    rw [getInDimSizeLog2_liveLayout]
    by_cases hreg : d = "register"
    · rw [if_pos hreg, hreg, Function.update_self]
      exact keepBits_lt live _ _
    · rw [if_neg hreg, Function.update_of_ne hreg]
      exact hins d hd
  · intro o ho
    rw [value_keepBits hregister]
    exact hvalue o ho

theorem dropZeroRegisters_ok : ∃ R : LinearLayout, dropZeroRegisters f2 C = .ok R ∧
    R.toRawLayout = liveLayout C.toRawLayout ∧ R.surjective = true := by
  have hfits : ∀ basis ∈ (liveLayout C.toRawLayout).flatBases, basis ∈ C.flatBases :=
    fun basis => flatBases_liveLayout hregister
  have hlt : ∀ d i, ∀ o ∈ C.getOutDimNames, (liveLayout C.toRawLayout).getBasis d i o <
      2 ^ C.getOutDimSizeLog2 o := by
    intro d i o ho
    obtain ⟨basis, hbasis, hget⟩ | hzero := getBasis_cases (liveLayout C.toRawLayout) d i
    · have hfit := getD_lt_of_fits (C.fits basis (hfits basis hbasis)) (C.getOutDimIndex o)
      rw [getD_outWidths C ho] at hfit
      rw [hget]
      exact hfit
    · rw [hzero]
      exact Nat.two_pow_pos _
  have hcols : (liveLayout C.toRawLayout).getTotalInDimSizeLog2 ≤ 64 := by
    have hle : ∀ d ∈ C.getInDimNames,
        (liveLayout C.toRawLayout).getInDimSizeLog2 d ≤ C.getInDimSizeLog2 d := by
      intro d _
      rw [getInDimSizeLog2_liveLayout]
      split_ifs with hd
      · rw [hd]
        exact length_filter_le _ _
      · exact le_rfl
    rw [RawLayout.getTotalInDimSizeLog2, getInDimNames_liveLayout hregister]
    exact (sum_le_sum hle).trans C.numCols_le
  exact createInferred_reaches f2 (liveLayout C.toRawLayout)
    (fun basis hbasis => by
      rw [length_of_mem_flatBases C (hfits basis hbasis), RawLayout.getOutDimNames,
        MapVector.length_keys]
      exact (MapVector.length_values _).symm)
    C.size_pow hlt hcols (reaches_liveLayout hregister hsurj)

end Drop

section Count

/-- The register bits that a layout sends to a dimension other than `dim`. -/
def liveRegisterBits (L : RawLayout) (dim : ℕ) : List ℕ :=
  (List.range (L.getInDimSizeLog2 "register")).filter fun i =>
    L.getOutDimNames.any fun o => o ≠ outDimName dim && L.getBasis "register" i o ≠ 0

theorem live_iff (L : LinearLayout) {i : ℕ} (hi : i < L.getInDimSizeLog2 "register") :
    live ((registerBases L.toRawLayout).getD i []) = true ↔
      ∃ o ∈ L.getOutDimNames, L.getBasis "register" i o ≠ 0 := by
  have hlt : i < (registerBases L.toRawLayout).length := hi
  have hmem : (registerBases L.toRawLayout)[i] ∈ L.flatBases := by
    have hkey : "register" ∈ L.getInDimNames := by
      by_contra hnot
      rw [getInDimSizeLog2_of_notMem L.toRawLayout hnot] at hi
      omega
    obtain ⟨rows, hrows, hfind⟩ := MapVector.exists_find hkey
    refine mem_flatten.mpr ⟨rows, mem_map.mpr ⟨_, hrows, rfl⟩, ?_⟩
    have hbases : registerBases L.toRawLayout = rows := by
      rw [registerBases, hfind, Option.getD_some]
    simp only [hbases, getElem_mem]
  have hlen := length_of_mem_flatBases L hmem
  have hbasis : ∀ o, L.getBasis "register" i o =
      (registerBases L.toRawLayout)[i].getD (L.getOutDimIndex o) 0 := by
    intro o
    rw [← getD_eq_getElem _ [] hlt]
    rfl
  rw [getD_eq_getElem _ _ hlt, live, any_eq_true]
  constructor
  · rintro ⟨b, hb, hne⟩
    obtain ⟨t, ht, rfl⟩ := getElem_of_mem hb
    have hname : t < L.getOutDimNames.length := hlen ▸ ht
    refine ⟨_, getElem_mem hname, ?_⟩
    rw [hbasis, getOutDimIndex_getElem L.toRawLayout hname, getD_eq_getElem _ _ ht]
    simpa using hne
  · rintro ⟨o, ho, hne⟩
    have hindex : L.getOutDimIndex o < (registerBases L.toRawLayout)[i].length :=
      hlen ▸ idxOf_lt_length_of_mem ho
    rw [hbasis, getD_eq_getElem _ _ hindex] at hne
    exact ⟨_, getElem_mem hindex, by simpa using hne⟩

variable {P C : LinearLayout} {dim rank : ℕ}

theorem liveRegisterBits_eq (hnames : P.getOutDimNames = standardOutDimNames (rank + 1))
    (hdim : dim ≤ rank) : liveRegisterBits P.toRawLayout dim =
      (List.range (P.getInDimSizeLog2 "register")).filter fun i =>
        (List.range rank).any fun j => P.getBasis "register" i (outDimName (skip dim j)) ≠ 0 := by
  apply filter_congr
  intro i _
  rw [hnames, Bool.eq_iff_iff, any_eq_true, any_eq_true]
  simp only [mem_standardOutDimNames, Bool.and_eq_true, decide_eq_true_eq, mem_range]
  constructor
  · rintro ⟨_, ⟨n, hn, rfl⟩, hother, hne⟩
    rw [ne_eq, outDimName_injective.eq_iff] at hother
    obtain ⟨j, hj, rfl⟩ : ∃ j < rank, skip dim j = n := by
      simp only [skip]
      exact ⟨if n < dim then n else n - 1, by grind, by grind⟩
    exact ⟨j, hj, hne⟩
  · rintro ⟨j, hj, hne⟩
    refine ⟨_, ⟨skip dim j, ?_, rfl⟩, ?_, hne⟩
    · simp only [skip]
      grind
    · rw [ne_eq, outDimName_injective.eq_iff]
      simp only [skip]
      grind

theorem length_filter_live (hnames : P.getOutDimNames = standardOutDimNames (rank + 1))
    (hdim : dim ≤ rank) (h : IsSlice P dim rank C) :
    ((registerBases C.toRawLayout).filter live).length =
      (liveRegisterBits P.toRawLayout dim).length := by
  have hlen : (registerBases C.toRawLayout).length = P.getInDimSizeLog2 "register" :=
    h.inSize "register"
  have hrows : registerBases C.toRawLayout =
      (List.range (P.getInDimSizeLog2 "register")).map
        fun i => (registerBases C.toRawLayout).getD i [] := by
    rw [← hlen]
    apply ext_getElem (by simp)
    intro i hi hi'
    rw [getElem_map, getElem_range, getD_eq_getElem _ _ hi]
  rw [hrows, filter_map, length_map, liveRegisterBits_eq hnames hdim]
  congr 1
  apply filter_congr
  intro i hi
  have hlt : i < C.getInDimSizeLog2 "register" := h.inSize "register" ▸ mem_range.mp hi
  rw [Function.comp_apply, Bool.eq_iff_iff, live_iff C hlt, any_eq_true, h.outDims]
  simp only [mem_standardOutDimNames, decide_eq_true_eq, mem_range]
  constructor
  · rintro ⟨_, ⟨j, hj, rfl⟩, hne⟩
    obtain hrank | hrank := Nat.eq_zero_or_pos rank
    · -- a tensor without dimensions has the coordinate 0 only
      have hzero : C.getBasis "register" i (outDimName j) <
          2 ^ C.getOutDimSizeLog2 (outDimName j) := getBasis_lt C
      have hj' : j = 0 := by omega
      rw [hj', h.scalar hrank] at hzero
      rw [hj'] at hne
      omega
    · have hj' : j < rank := by omega
      exact ⟨j, hj', h.basis _ _ j hj' ▸ hne⟩
  · rintro ⟨j, hj, hne⟩
    exact ⟨_, ⟨j, by omega, rfl⟩, (h.basis _ _ j hj).symm ▸ hne⟩

def registersAt (L : RawLayout) (dim : ℕ) : ℕ :=
  (L.dimColumn "register" (outDimName dim)).countP (· ≠ 0)

theorem registersAt_slice (h : IsSlice P dim rank C) {j : ℕ} (hj : j < rank) :
    registersAt C.toRawLayout j = registersAt P.toRawLayout (skip dim j) := by
  rw [registersAt, registersAt, RawLayout.dimColumn, RawLayout.dimColumn, h.inSize]
  simp only [h.basis _ _ j hj]

theorem registersAt_liveLayout (L : RawLayout) (j : ℕ) :
    registersAt (liveLayout L) j ≤ registersAt L j := by
  rw [registersAt, registersAt, dimColumn_liveLayout, if_pos rfl, dimColumn_eq]
  exact (List.filter_sublist.map _).countP_le

theorem countP_any_le {α β : Type} (q : α → β → Bool) (as : List α) (bs : List β) :
    as.countP (fun a => bs.any (q a)) ≤ (bs.map fun b => as.countP (q · b)).sum := by
  induction bs with
  | nil => simp
  | cons b bs ih =>
    have hor : as.countP (fun a => (b :: bs).any (q a)) ≤
        as.countP (q · b) + as.countP fun a => bs.any (q a) := by
      clear ih
      induction as with
      | nil => rfl
      | cons a as ih =>
        simp only [countP_cons, any_cons] at ih ⊢
        cases hb : q a b <;> cases hbs : bs.any (q a) <;> simp <;> omega
    rw [map_cons, sum_cons]
    exact hor.trans (Nat.add_le_add_left ih _)

theorem length_liveRegisterBits_le (hnames : P.getOutDimNames = standardOutDimNames (rank + 1))
    (hdim : dim ≤ rank) : (liveRegisterBits P.toRawLayout dim).length ≤
      ((List.range rank).map fun j => registersAt P.toRawLayout (skip dim j)).sum := by
  rw [liveRegisterBits_eq hnames hdim, ← countP_eq_length_filter]
  refine (countP_any_le _ _ _).trans (le_of_eq ?_)
  congr 1
  apply map_congr_left
  intro j _
  rw [registersAt, RawLayout.dimColumn, countP_map]
  rfl

end Count

section Pad

variable (f2 : F2Reduce) {R : LinearLayout}

def specOf (L : LinearLayout) : LayoutSpec where
  inDims := L.getInDimNames
  inLog := L.getInDimSizeLog2
  outDims := L.getOutDimNames
  outLog := L.getOutDimSizeLog2
  value := L.value

theorem computes_specOf (h : R.surjective = true) : Computes R (specOf R) :=
  ⟨rfl, rfl, fun _ => rfl, fun _ => rfl, fun _ _ => rfl, h⟩

/-- The layout with registers added that hold what others hold. -/
structure IsPadded (R : LinearLayout) (bits : ℕ) (L : LinearLayout) : Prop where
  inDims : L.getInDimNames = R.getInDimNames
  outDims : L.getOutDimNames = R.getOutDimNames
  registers : L.getInDimSizeLog2 "register" = bits
  inSize : ∀ d, d ≠ "register" → L.getInDimSizeLog2 d = R.getInDimSizeLog2 d
  outSize : ∀ o, L.getOutDimSizeLog2 o = R.getOutDimSizeLog2 o
  value : ∀ o ins, L.value o ins = R.value o ins
  surjective : L.surjective = true

theorem value_basis (L : RawLayout) {d : String} (hd : d ∈ L.getInDimNames) (i : ℕ) (o : String) :
    L.value o (Function.update (fun _ => 0) d (2 ^ i)) = L.getBasis d i o := by
  rw [value_oneInput L hd, combine_two_pow, getD_dimColumn]

theorem IsPadded.basis {L : LinearLayout} {bits : ℕ} (h : IsPadded R bits L) {d : String}
    (hd : d ∈ R.getInDimNames) (i : ℕ) (o : String) : L.getBasis d i o = R.getBasis d i o := by
  rw [← value_basis L.toRawLayout (h.inDims ▸ hd), h.value, value_basis R.toRawLayout hd]

theorem registersAt_padded {L : LinearLayout} {bits : ℕ} (h : IsPadded R bits L)
    (hregister : "register" ∈ R.getInDimNames) (hle : R.getInDimSizeLog2 "register" ≤ bits) (j : ℕ) :
    registersAt L.toRawLayout j ≤ registersAt R.toRawLayout j := by
  have hsplit : List.range bits = List.range (R.getInDimSizeLog2 "register") ++
      (List.range (bits - R.getInDimSizeLog2 "register")).map
        (R.getInDimSizeLog2 "register" + ·) := by
    rw [← range_add, Nat.add_sub_cancel' hle]
  rw [registersAt, registersAt, RawLayout.dimColumn, RawLayout.dimColumn, h.registers, hsplit,
    map_append, countP_append]
  simp only [h.basis hregister]
  have hnone : ((List.range (bits - R.getInDimSizeLog2 "register")).map
      (R.getInDimSizeLog2 "register" + ·)).map (R.getBasis "register" · (outDimName j)) =
        List.replicate (bits - R.getInDimSizeLog2 "register") 0 := by
    rw [map_map, eq_replicate_iff]
    refine ⟨by simp, fun b hb => ?_⟩
    obtain ⟨i, _, rfl⟩ := mem_map.mp hb
    exact getBasis_of_le R.toRawLayout (Nat.le_add_right _ _)
  rw [hnone]
  simp

theorem padRegisters_ok (hsurj : R.surjective = true) (hregister : "register" ∈ R.getInDimNames)
    (hout : outDimName 0 ∈ R.getOutDimNames) {bits : ℕ} (hbits : bits < 31)
    (hle : R.getInDimSizeLog2 "register" ≤ bits)
    (hcols : R.getTotalInDimSizeLog2 + (bits - R.getInDimSizeLog2 "register") ≤ 64) :
    ∃ L : LinearLayout, padRegisters f2 R (2 ^ bits) = .ok L ∧ IsPadded R bits L := by
  have hsize : R.getInDimSize "register" = .ok (2 ^ R.getInDimSizeLog2 "register") :=
    shiftOne_ok (by omega)
  rw [padRegisters, hsize, ok_bind]
  by_cases heq : R.getInDimSizeLog2 "register" = bits
  · have hcast : ((2 ^ R.getInDimSizeLog2 "register" : ℕ) : ℤ) = 2 ^ bits := by
      rw [heq, Nat.cast_pow, Nat.cast_ofNat]
    rw [if_neg (not_not.mpr hcast)]
    exact ⟨R, rfl, rfl, rfl, heq, fun _ _ => rfl, fun _ => rfl, fun _ _ => rfl, hsurj⟩
  · have hcast : ((2 ^ R.getInDimSizeLog2 "register" : ℕ) : ℤ) ≠ 2 ^ bits := by
      rw [Nat.cast_pow, Nat.cast_ofNat]
      exact fun hpow => heq (Int.pow_right_injective (by decide) hpow)
    have hextra : ((2 : ℤ) ^ bits).tdiv ((2 ^ R.getInDimSizeLog2 "register" : ℕ) : ℤ) =
        2 ^ (bits - R.getInDimSizeLog2 "register") := by
      have hsplit : (2 : ℤ) ^ bits = 2 ^ (bits - R.getInDimSizeLog2 "register") *
          2 ^ R.getInDimSizeLog2 "register" := by
        rw [← pow_add, Nat.sub_add_cancel hle]
      rw [Nat.cast_pow, Nat.cast_ofNat, hsplit]
      exact Int.mul_tdiv_cancel _ (by positivity)
    obtain ⟨Z, hZ, hzeros⟩ := zeros1D_describes f2 "register" (outDimName 0)
      (show bits - R.getInDimSizeLog2 "register" < 31 by omega)
    have hR := computes_specOf hsurj
    obtain ⟨houts, hins⟩ := sameOrder_singleton "register" hR (outDimName 0)
    obtain ⟨L, hmul, hproduct, hL⟩ := mul_computes f2 hR hzeros.computes houts hins
      (fun o => by
        simp only [LayoutSpec.oneDim, ite_self, Nat.add_zero]
        exact hR.outLog_lt o)
      (by
        rw [total_oneDim, ← hR.total]
        exact hcols)
    refine ⟨L, ?_, ?_, ?_, ?_, ?_, ?_, ?_, hL.surjective⟩
    · have hname : outDimName 0 = "dim0" := rfl
      rw [if_pos hcast, hextra, ← hname, hZ, ok_bind, hmul]
    · rw [hL.inDims]
      simp [LayoutSpec.mul, LayoutSpec.oneDim, specOf, hregister]
    · rw [hL.outDims]
      simp [LayoutSpec.mul, LayoutSpec.oneDim, specOf, hout]
    · rw [hL.inSize]
      simp only [LayoutSpec.mul, LayoutSpec.oneDim, specOf, if_true]
      omega
    · intro d hd
      rw [hL.inSize]
      simp [LayoutSpec.mul, LayoutSpec.oneDim, specOf, hd]
    · intro o
      rw [hL.outSize]
      simp [LayoutSpec.mul, LayoutSpec.oneDim, specOf]
    · intro o ins
      rw [hL.value]
      simp [LayoutSpec.mul, LayoutSpec.oneDim, specOf, Nat.mod_one]

theorem inSize_of_mul {a b L : LinearLayout} (h : mul f2 a b = .ok L) (d : String) :
    L.getInDimSizeLog2 d = a.getInDimSizeLog2 d + b.getInDimSizeLog2 d := by
  obtain ⟨-, -, h⟩ := bind_eq_ok h
  obtain ⟨-, -, h⟩ := bind_eq_ok h
  obtain ⟨sizes, -, h⟩ := bind_eq_ok h
  rw [← (isProduct_product a b).inSize d, create_eq_ok h]
  rfl

theorem le_of_padRegisters {expected : ℤ} {L : LinearLayout}
    (h : padRegisters f2 R expected = .ok L) :
    R.getInDimSizeLog2 "register" ≤ L.getInDimSizeLog2 "register" := by
  obtain ⟨size, -, h⟩ := bind_eq_ok h
  split_ifs at h
  · obtain ⟨Z, -, h⟩ := bind_eq_ok h
    rw [inSize_of_mul f2 h]
    exact Nat.le_add_right _ _
  · rw [Except.ok.inj h]

end Pad

end TritonCpu
