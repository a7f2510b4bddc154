import TritonCpu.BlockedEncoding

/-!
# Fitting a layout that fits

A layout that has the shape already is kept by the fitting, whatever its bases
are. This covers the layouts whose columns are not single bits.
-/

set_option autoImplicit false

namespace TritonCpu

open XorSpan LinearLayout List

section Same

variable (f2 : F2Reduce) {L : LinearLayout} {s : LayoutSpec}

theorem exists_top_basis (h : L.surjective = true) {o : String} (ho : o ∈ L.getOutDimNames) :
    L.getOutDimSizeLog2 o = 0 ∨ ∃ d i, 2 ^ (L.getOutDimSizeLog2 o - 1) ≤ L.getBasis d i o := by
  by_cases hzero : L.getOutDimSizeLog2 o = 0
  · exact Or.inl hzero
  · right
    by_contra hno
    simp only [not_exists, not_le] at hno
    obtain ⟨ins, -, hreach⟩ := L.surjective_iff_reaches.mp h
      (fun o' => if o' = o then 2 ^ (L.getOutDimSizeLog2 o - 1) else 0)
      (fun o' _ => by
        split_ifs with heq
        · rw [heq]
          exact Nat.pow_lt_pow_right (by omega) (by omega)
        · exact Nat.two_pow_pos _)
    have hvalue := hreach o ho
    rw [if_pos rfl] at hvalue
    have hlt : L.value o ins < 2 ^ (L.getOutDimSizeLog2 o - 1) := by
      apply xorSum_lt
      intro c hc
      obtain ⟨d, -, rfl⟩ := mem_map.mp hc
      apply combine_lt
      intro c hc
      obtain ⟨i, -, rfl⟩ := mem_map.mp hc
      exact hno d i
    omega

theorem entries_outDims (L : LinearLayout) : L.outDims.entries =
    L.getOutDimNames.map fun o => (o, 2 ^ L.getOutDimSizeLog2 o) := by
  rw [RawLayout.getOutDimNames, MapVector.keys, map_map]
  conv_lhs => rw [← map_id L.outDims.entries]
  apply map_congr_left
  intro e he
  exact Prod.ext rfl (size_eq_two_pow L.toRawLayout L.size_pow he)

theorem inferred_self (h : L.surjective = true) :
    inferred L.bases L.getOutDimNames = L.toRawLayout := by
  have hnodup := nodup_getOutDimNames L.toRawLayout
  have hnames := getOutDimNames_inferred L.bases hnodup
  have hbasis : ∀ d i o, (inferred L.bases L.getOutDimNames).getBasis d i o = L.getBasis d i o := by
    intro d i o
    rw [getBasis_eq_entry, getBasis_eq_entry, RawLayout.getOutDimIndex, RawLayout.getOutDimIndex,
      hnames]
    rfl
  have hentries := entries_inferred L.bases hnodup L.getOutDimSizeLog2
    (fun o ho => getOutDimSizeLog2_lt L ho)
    (fun d i o _ => hbasis d i o ▸ getBasis_lt L)
    (fun o ho => by
      simp only [hbasis]
      exact exists_top_basis h ho)
  have houts : inferOutDims L.bases L.getOutDimNames = L.outDims :=
    MapVector.ext (hentries.trans (entries_outDims L).symm)
  rw [inferred, houts]

theorem createInferred_reaches (raw : RawLayout)
    (hlen : ∀ basis ∈ raw.flatBases, basis.length = raw.outDims.values.length)
    (hpow : ∀ size ∈ raw.outDims.values, isPowerOf2_32 size = true)
    (hlt : ∀ d i, ∀ o ∈ raw.getOutDimNames, raw.getBasis d i o < 2 ^ raw.getOutDimSizeLog2 o)
    (hcols : raw.getTotalInDimSizeLog2 ≤ 64) (hreach : raw.Reaches) :
    ∃ L' : LinearLayout, createInferred f2 raw.bases raw.getOutDimNames = .ok L' ∧
      L'.toRawLayout = raw ∧ L'.surjective = true := by
  obtain ⟨L', hcreate, hraw, hsurj⟩ := create_of_reaches f2 raw true hlen hpow hlt hcols hreach
  have hself := inferred_self hsurj
  rw [hraw] at hself
  refine ⟨L', ?_, hraw, hsurj⟩
  change create f2 (inferred raw.bases raw.getOutDimNames) true = _
  rw [hself, hcreate]

theorem createInferred_self (h : Computes L s) (hcols : s.total ≤ 64) :
    ∃ L' : LinearLayout, createInferred f2 L.bases L.getOutDimNames = .ok L' ∧ Computes L' s := by
  obtain ⟨L', hcreate, hraw, hsurj⟩ := createInferred_reaches f2 L.toRawLayout
    (fun basis hbasis => by
      rw [length_of_mem_flatBases L hbasis, RawLayout.getOutDimNames, MapVector.length_keys,
        MapVector.length_values])
    L.size_pow (fun d i o _ => getBasis_lt L) (h.total ▸ hcols)
    (L.surjective_iff_reaches.mp h.surjective)
  refine ⟨L', hcreate, ?_, ?_, ?_, ?_, ?_, hsurj⟩
  · rw [hraw, h.inDims]
  · rw [hraw, h.outDims]
  · exact fun d => hraw ▸ h.inSize d
  · exact fun o => hraw ▸ h.outSize o
  · exact fun o ins => hraw ▸ h.value o ins

end Same

section Unit

/-- The input bits whose basis is `2 ^ e` at a dimension. -/
def bitSources (L : RawLayout) (o : String) (e : ℕ) : List (String × ℕ) :=
  L.getInDimNames.flatMap fun d =>
    ((List.range (L.getInDimSizeLog2 d)).filter fun i => L.getBasis d i o == 2 ^ e).map (d, ·)

theorem mem_bitSources {L : RawLayout} {o : String} {e : ℕ} {d : String} {i : ℕ} :
    (d, i) ∈ bitSources L o e ↔ L.getBasis d i o = 2 ^ e := by
  simp only [bitSources, mem_flatMap, mem_map, mem_filter, mem_range,
    beq_iff_eq, Prod.mk.injEq]
  constructor
  · rintro ⟨_, -, _, ⟨-, hbasis⟩, rfl, rfl⟩
    exact hbasis
  · intro hbasis
    have hlt : i < L.getInDimSizeLog2 d := by
      by_contra hge
      rw [getBasis_of_le L (by omega)] at hbasis
      exact (Nat.two_pow_pos e).ne hbasis
    have hd : d ∈ L.getInDimNames := by
      by_contra hnot
      rw [getInDimSizeLog2_of_notMem L hnot] at hlt
      omega
    exact ⟨d, hd, i, ⟨hlt, hbasis⟩, rfl, rfl⟩

/-- Whether the bases are single bits, each of which is used once. -/
def checkUnit (L : RawLayout) : Bool :=
  L.getOutDimNames.all fun o =>
    (L.flatBases.all fun basis => basis.getD (L.getOutDimIndex o) 0 == 0 ||
      (List.range (L.getOutDimSizeLog2 o)).any fun e =>
        basis.getD (L.getOutDimIndex o) 0 == 2 ^ e) &&
    (List.range (L.getOutDimSizeLog2 o)).all fun e => (bitSources L o e).length == 1

theorem unitColumns_of_check {L : RawLayout} (h : checkUnit L = true) : UnitColumns L := by
  simp only [checkUnit, all_eq_true, Bool.and_eq_true, Bool.or_eq_true, any_eq_true,
    beq_iff_eq, mem_range] at h
  constructor
  · intro o ho d i hne
    obtain ⟨basis, hbasis, hget⟩ | hzero := getBasis_cases L d i
    · rw [hget] at hne ⊢
      exact ((h o ho).1 basis hbasis).resolve_left hne
    · exact absurd (hzero o) hne
  · intro o ho e he
    obtain ⟨bit, hbit⟩ := length_eq_one_iff.mp ((h o ho).2 e he)
    exact ⟨bit, fun d i => by rw [← mem_bitSources, hbit, mem_singleton]⟩

end Unit

section Fit

variable (f2 : F2Reduce) {L : LinearLayout} {s : LayoutSpec} {shape : MapVector ℤ}

theorem ensureLayoutNotLargerThan_exact (h : Computes L s) (hlog : ShapeLog shape s.outLog s.outDims)
    (hcount : shape.entries.length = s.outDims.length) (hcols : s.total ≤ 64) :
    ∃ L' : LinearLayout, ensureLayoutNotLargerThan f2 L shape = .ok L' ∧ Computes L' s := by
  have hcheck : (shape.entries.length == L.getOutDimNames.length) = true := by
    rw [h.outDims, hcount, beq_self_eq_true]
  have hturn : ∀ p ∈ L.getOutDimNames.zipIdx, shrinkOutDim L shape L.bases p = .ok L.bases := by
    intro p hp
    have hmem : p.1 ∈ s.outDims := h.outDims ▸ fst_mem_of_mem_zipIdx hp
    have hdesired : int32 ((shape.find p.1).getD 0) = 2 ^ s.outLog p.1 := by
      rw [(hlog p.1 hmem).2, Option.getD_some, int32_two_pow (hlog p.1 hmem).1]
    have hactual : ((L.getOutDimSize p.1 : ℕ) : ℤ) = 2 ^ s.outLog p.1 := by
      rw [RawLayout.getOutDimSize, h.outSize]
      push_cast
      rfl
    simp only [shrinkOutDim, hdesired, hactual, le_refl, if_true]
  have hloop : ∀ names : List (String × ℕ), (∀ p ∈ names, p ∈ L.getOutDimNames.zipIdx) →
      names.foldlM (shrinkOutDim L shape) L.bases = .ok L.bases := by
    intro names
    induction names with
    | nil => exact fun _ => rfl
    | cons p names ih =>
      intro hmem
      rw [foldlM_cons, hturn p (hmem p mem_cons_self)]
      exact ih fun q hq => hmem q (mem_cons_of_mem _ hq)
  obtain ⟨L', hcreate, hL'⟩ := createInferred_self f2 h hcols
  rw [ensureLayoutNotLargerThan, assertThat_ok hcheck]
  by_cases hempty : shape.entries = []
  · refine ⟨L, ?_, h⟩
    change (if shape.entries = [] then pure L else _) = _
    rw [if_pos hempty]
    rfl
  · refine ⟨L', ?_, hL'⟩
    change (if shape.entries = [] then pure L else _) = _
    rw [if_neg hempty, hloop _ fun _ hp => hp]
    exact hcreate

theorem ensureLayoutNotSmallerThan_exact (h : Computes L s) {kDim : String}
    (hlog : ShapeLog shape s.outLog s.outDims) (hcount : shape.entries.length = s.outDims.length)
    (hkDim : kDim = "register" ∨ kDim = "offset") (hfirst : s.inDims.head? = some kDim)
    (hcols : s.total ≤ 64) :
    ∃ L' : LinearLayout, ensureLayoutNotSmallerThan f2 L shape = .ok L' ∧ Computes L' s := by
  obtain ⟨rest, hins⟩ := List.head?_eq_some_iff.mp hfirst
  have hin : kDim ∈ s.inDims := hins ▸ mem_cons_self
  have hturn : ∀ o ∈ s.outDims, ∀ ret : LinearLayout, Computes ret s → ∃ ret' : LinearLayout,
      growOutDim f2 L shape kDim ret o = .ok ret' ∧ Computes ret' s := by
    intro o ho ret hret
    have hdesired : int32 ((shape.find o).getD 0) = 2 ^ s.outLog o := by
      rw [(hlog o ho).2, Option.getD_some, int32_two_pow (hlog o ho).1]
    have hactual : ((L.getOutDimSize o : ℕ) : ℤ) = 2 ^ s.outLog o := by
      rw [RawLayout.getOutDimSize, h.outSize]
      push_cast
      rfl
    have hpos : (2 : ℤ) ^ s.outLog o ≠ 0 := by positivity
    obtain ⟨factor, hid, hfactor⟩ := identity1D_describes f2 kDim o (show 0 < 31 by omega)
    obtain ⟨ret', hmul, hret'⟩ := mul_oneDim_computes kDim (fun _ => 0) (fun _ => 0) f2 hret
      hfactor.computes le_rfl (hlog o ho).1 hcols
    rw [appendDigits_zero s rfl hin ho] at hret'
    have hlast : decide (((ret'.getOutDimSize o : ℕ) : ℤ) ≥ 2 ^ s.outLog o) = true := by
      rw [decide_eq_true_eq, RawLayout.getOutDimSize, hret'.outSize]
      push_cast
      exact le_rfl
    have hdiv : (decide ((2 : ℤ) ^ s.outLog o > 2 ^ s.outLog o) ||
        Int.tmod (2 ^ s.outLog o) (2 ^ s.outLog o) == 0) = true := by
      rw [Int.tmod_self, beq_self_eq_true, Bool.or_true]
    refine ⟨ret', ?_, hret'⟩
    rw [pow_zero] at hid
    simp only [growOutDim, hdesired, hactual, assertThat_ok hdiv, Int.tdiv_self hpos, bind,
      Except.bind, hid, hmul, assertThat_ok hlast, pure, Except.pure]
  have hloop : ∀ names : List String, (∀ o ∈ names, o ∈ s.outDims) → ∀ ret : LinearLayout,
      Computes ret s → ∃ ret' : LinearLayout,
        names.foldlM (growOutDim f2 L shape kDim) ret = .ok ret' ∧ Computes ret' s := by
    intro names
    induction names with
    | nil => exact fun _ ret hret => ⟨ret, rfl, hret⟩
    | cons o names ih =>
      intro hmem ret hret
      obtain ⟨ret', hstep, hret'⟩ := hturn o (hmem o mem_cons_self) ret hret
      obtain ⟨ret'', hrest, hret''⟩ := ih (fun o' ho' => hmem o' (mem_cons_of_mem _ ho')) ret'
        hret'
      refine ⟨ret'', ?_, hret''⟩
      rw [foldlM_cons, hstep]
      exact hrest
  obtain ⟨L', hgrow, hL'⟩ := hloop s.outDims (fun _ ho => ho) L h
  rw [ensureLayoutNotSmallerThan_eq f2 _ (by rw [h.outDims, hcount]) hkDim
    fun _ => h.inDims.trans hins]
  split_ifs
  · exact ⟨L, rfl, h⟩
  · rw [h.outDims]
    exact ⟨L', hgrow, hL'⟩

end Fit

section OneInput

variable (inDim : String) (bs : List (List ℕ)) {outs : List String}

def columnOf (bs : List (List ℕ)) (outs : List String) (o : String) : List ℕ :=
  bs.map fun basis => basis.getD (outs.idxOf o) 0

def oneInputSpec (inDim : String) (bs : List (List ℕ)) (outs : List String)
    (log : String → ℕ) : LayoutSpec where
  inDims := [inDim]
  inLog d := if d = inDim then bs.length else 0
  outDims := outs
  outLog o := if o ∈ outs then log o else 0
  value o ins := if o ∈ outs then combine (columnOf bs outs o) (ins inDim) else 0

theorem find_oneInput (d : String) : (makeBasesMap [(inDim, bs)]).find d =
    if d = inDim then some bs else none := by
  have hentries : (makeBasesMap [(inDim, bs)]).entries = [(inDim, bs)] := rfl
  rw [MapVector.find, hentries, lookup_cons, lookup_nil]
  by_cases h : d = inDim
  · rw [h, beq_self_eq_true, if_pos rfl]
  · rw [beq_false_of_ne h, if_neg h]

theorem getInDimSizeLog2_oneInput (d : String) :
    (inferred (makeBasesMap [(inDim, bs)]) outs).getInDimSizeLog2 d =
      if d = inDim then bs.length else 0 := by
  change (((makeBasesMap [(inDim, bs)]).find d).getD []).length = _
  rw [find_oneInput]
  split_ifs <;> rfl

variable (hnodup : outs.Nodup)

include hnodup

theorem getBasis_oneInput (d : String) (i : ℕ) (o : String) :
    (inferred (makeBasesMap [(inDim, bs)]) outs).getBasis d i o =
      if d = inDim then (columnOf bs outs o).getD i 0 else 0 := by
  have hnames := getOutDimNames_inferred (makeBasesMap [(inDim, bs)]) hnodup
  rw [RawLayout.getBasis, RawLayout.getOutDimIndex, hnames]
  change ((((makeBasesMap [(inDim, bs)]).find d).getD []).getD i []).getD (outs.idxOf o) 0 = _
  rw [find_oneInput]
  split_ifs
  · rw [Option.getD_some, columnOf]
    by_cases hi : i < bs.length
    · rw [getD_eq_getElem (bs.map _) _ (by simpa using hi), getElem_map,
        getD_eq_getElem bs _ hi]
    · rw [getD_eq_default (bs.map _) _ (by simpa using hi),
        getD_eq_default bs _ (by simpa using hi), getD_nil]
  · rfl

theorem value_inferred_oneInput (o : String) (ins : String → ℕ) :
    (inferred (makeBasesMap [(inDim, bs)]) outs).value o ins =
      combine (columnOf bs outs o) (ins inDim) := by
  have hcolumn : (inferred (makeBasesMap [(inDim, bs)]) outs).dimColumn inDim o =
      columnOf bs outs o := by
    apply ext_getElem
    · rw [length_dimColumn, getInDimSizeLog2_oneInput, if_pos rfl, columnOf, length_map]
    · intro i hi hi'
      have hget : ((inferred (makeBasesMap [(inDim, bs)]) outs).dimColumn inDim o).getD i 0 =
          (inferred (makeBasesMap [(inDim, bs)]) outs).getBasis inDim i o := getD_dimColumn _ i
      rwa [getBasis_oneInput inDim bs hnodup, if_pos rfl, getD_eq_getElem _ _ hi,
        getD_eq_getElem _ _ hi'] at hget
  have hnames : (inferred (makeBasesMap [(inDim, bs)]) outs).getInDimNames = [inDim] := rfl
  rw [RawLayout.value, hnames, map_singleton, xorSum_cons, xorSum_nil, Nat.xor_zero, hcolumn]

theorem oneInput_computes (f2 : F2Reduce) (log : String → ℕ) (hlog : ∀ o ∈ outs, log o < 31)
    (hlen : ∀ basis ∈ bs, basis.length = outs.length) (hcols : bs.length ≤ 64)
    (hlt : ∀ o ∈ outs, ∀ c ∈ columnOf bs outs o, c < 2 ^ log o)
    (hreach : ∀ target : String → ℕ, (∀ o ∈ outs, target o < 2 ^ log o) →
      ∃ x < 2 ^ bs.length, ∀ o ∈ outs, combine (columnOf bs outs o) x = target o) :
    ∃ L : LinearLayout, createInferred f2 (makeBasesMap [(inDim, bs)]) outs = .ok L ∧
      Computes L (oneInputSpec inDim bs outs log) := by
  have hins : (inferred (makeBasesMap [(inDim, bs)]) outs).getInDimNames = [inDim] := rfl
  have houts := getOutDimNames_inferred (makeBasesMap [(inDim, bs)]) hnodup
  have hbasis : ∀ d i, ∀ o ∈ outs,
      (inferred (makeBasesMap [(inDim, bs)]) outs).getBasis d i o < 2 ^ log o := by
    intro d i o ho
    rw [getBasis_oneInput inDim bs hnodup]
    split_ifs
    · by_cases hi : i < (columnOf bs outs o).length
      · rw [getD_eq_getElem _ _ hi]
        exact hlt o ho _ (getElem_mem hi)
      · rw [getD_eq_default _ _ (by omega)]
        exact Nat.two_pow_pos _
    · exact Nat.two_pow_pos _
  -- the highest bit of an output comes from a basis that has it
  have htop : ∀ o ∈ outs, log o = 0 ∨ ∃ d i, 2 ^ (log o - 1) ≤
      (inferred (makeBasesMap [(inDim, bs)]) outs).getBasis d i o := by
    intro o ho
    by_cases hzero : log o = 0
    · exact Or.inl hzero
    · right
      by_contra hno
      simp only [not_exists, not_le] at hno
      obtain ⟨x, -, hx⟩ := hreach (fun o' => if o' = o then 2 ^ (log o - 1) else 0)
        (fun o' _ => by
          split_ifs with heq
          · rw [heq]
            exact Nat.pow_lt_pow_right (by omega) (by omega)
          · exact Nat.two_pow_pos _)
      have hvalue := hx o ho
      rw [if_pos rfl] at hvalue
      have hsmall : combine (columnOf bs outs o) x < 2 ^ (log o - 1) := by
        apply combine_lt
        intro c hc
        obtain ⟨i, hi, rfl⟩ := getElem_of_mem hc
        have hbound := hno inDim i
        rwa [getBasis_oneInput inDim bs hnodup, if_pos rfl, getD_eq_getElem _ _ hi] at hbound
      omega
  have hentries := entries_inferred (makeBasesMap [(inDim, bs)]) hnodup log hlog hbasis htop
  have hsize : ∀ o ∈ outs,
      (inferred (makeBasesMap [(inDim, bs)]) outs).getOutDimSizeLog2 o = log o := fun o ho =>
    getOutDimSizeLog2_inferred hentries ho
  obtain ⟨L, hcreate, hraw, hsurj⟩ := createInferred_ok _ f2 hnodup log hlog
    (by
      intro basis hmem
      have hvalues : (makeBasesMap [(inDim, bs)]).values.flatten = bs := by
        change [bs].flatten = _
        simp
      exact hlen basis (hvalues ▸ hmem))
    hbasis htop
    (by
      rw [RawLayout.getTotalInDimSizeLog2, hins, map_singleton, sum_singleton,
        getInDimSizeLog2_oneInput, if_pos rfl]
      exact hcols)
    (by
      intro target htarget
      rw [houts] at htarget ⊢
      obtain ⟨x, hx, hvalue⟩ := hreach target fun o ho => hsize o ho ▸ htarget o ho
      refine ⟨fun _ => x, fun d hd => ?_, fun o ho => ?_⟩
      · rw [getInDimSizeLog2_oneInput, if_pos (mem_singleton.mp hd)]
        exact hx
      · rw [value_inferred_oneInput inDim bs hnodup, hvalue o ho])
  refine ⟨L, hcreate, hraw ▸ hins, hraw ▸ houts, ?_, ?_, ?_, hsurj⟩
  · intro d
    rw [hraw, getInDimSizeLog2_oneInput]
    rfl
  · intro o
    simp only [oneInputSpec]
    split_ifs with ho
    · rw [hraw, hsize o ho]
    · apply getOutDimSizeLog2_of_notMem
      rwa [hraw, houts]
  · intro o ins
    simp only [oneInputSpec]
    split_ifs with ho
    · rw [hraw, value_inferred_oneInput inDim bs hnodup]
    · apply value_of_notMem
      rwa [hraw, houts]

end OneInput

section Combine

variable (f2 : F2Reduce) {rank : ℕ} {shape : List ℕ} {layout : CTALayoutAttr}

def CTALayoutAttr.Unsplit (rank : ℕ) (layout : CTALayoutAttr) : Prop :=
  ∀ dim < rank, bitsOf rank layout.CTASplitNum (outDimName dim) = 0

/-- A layout of the shape of the tensor is multiplied by the layout of the blocks,
and that is all. -/
theorem combineCtaCgaWithShape_exact (h : SmallShape rank shape layout)
    (hunsplit : layout.Unsplit rank) {ctaLayout : LinearLayout} {t : LayoutSpec} {kDim : String}
    (ht : Computes ctaLayout t) (houts : t.outDims.Perm (standardOutDimNames rank))
    (hkDim : kDim = "register" ∨ kDim = "offset") (hfirst : t.inDims.head? = some kDim)
    (hfull : ∀ dim < rank, t.outLog (outDimName dim) = bitsOf rank shape (outDimName dim))
    (hcols : t.total + ((standardOutDimNames rank).map (bitsOf rank layout.CTAsPerCGA)).sum ≤ 64) :
    ∃ L : LinearLayout, combineCtaCgaWithShape f2 ctaLayout layout shape = .ok L ∧
      Computes L { t.mul (cgaSpec rank shape layout t.outDims) with
        outDims := standardOutDimNames rank } := by
  have hlen : (standardOutDimNames rank).length = rank := by simp [standardOutDimNames]
  have hcount : t.outDims.length = rank := houts.length_eq.trans hlen
  have hzero : ∀ dim < rank, (cgaSpec rank shape layout t.outDims).outLog (outDimName dim) = 0 := by
    intro dim hdim
    rw [outLog_cgaSpec h.wellFormed hdim, hunsplit dim hdim, Nat.zero_min]
  obtain ⟨cga₁, cga₂, cga₃, hcga₁, hcga₂, hcga₃, hcga, hcgaTotal⟩ := cga_describes f2 h
    (by omega) houts
  -- the part of a block is the tensor
  have hperCta : ShapeLog (ctaShape ctaLayout cga₃
      (labeledShape (standardOutDimNames rank) shape)) t.outLog t.outDims ∧
      (ctaShape ctaLayout cga₃
        (labeledShape (standardOutDimNames rank) shape)).entries.length = t.outDims.length := by
    have hbits : ShapeLog (ctaShape ctaLayout cga₃ (labeledShape (standardOutDimNames rank) shape))
        (perCtaBits (bitsOf rank shape) fun _ => 0) t.outDims ∧ _ :=
      shapeLog_ctaShape ht.outDims
        (fun n hn => shapeLog_labeledShape h n (houts.mem_iff.mp hn))
        (fun n hn => by
          obtain ⟨dim, hdim, rfl⟩ := mem_standardOutDimNames.mp (houts.mem_iff.mp hn)
          rw [hcga.outSize, hzero dim hdim, Nat.zero_min])
    refine ⟨fun n hn => ?_, hbits.2⟩
    obtain ⟨hlt, hfind⟩ := hbits.1 n hn
    obtain ⟨dim, hdim, rfl⟩ := mem_standardOutDimNames.mp (houts.mem_iff.mp hn)
    rw [perCtaBits, Nat.zero_min, Nat.sub_zero, ← hfull dim hdim] at hlt hfind
    exact ⟨hlt, hfind⟩
  obtain ⟨cta₁, hcta₁, hdesc₁⟩ := ensureLayoutNotSmallerThan_exact f2 ht hperCta.1 hperCta.2 hkDim
    hfirst (by omega)
  obtain ⟨cta₂, hcta₂, hdesc₂⟩ := ensureLayoutNotLargerThan_exact f2 hdesc₁ hperCta.1 hperCta.2
    (by omega)
  obtain ⟨prod, hprod, -, hdescProd⟩ := mul_computes f2 hdesc₂ hcga.computes
    (sameOrder_of_sublist (houts.nodup_iff.mpr (nodup_standardOutDimNames rank))
      (List.Sublist.refl _))
    (by
      obtain hnil | hone := inDims_cgaSpec rank shape layout t.outDims
      · rw [hnil]
        exact sameOrder_of_disjoint fun _ _ => not_mem_nil
      · rw [hone]
        exact (sameOrder_singleton "block" hdesc₂ "").2)
    (fun n => by
      by_cases hn : n ∈ t.outDims
      · obtain ⟨dim, hdim, rfl⟩ := mem_standardOutDimNames.mp (houts.mem_iff.mp hn)
        rw [hzero dim hdim, hfull dim hdim, Nat.add_zero]
        exact h.shape_lt dim hdim
      · rw [← hdesc₂.outSize, ← hcga.outSize, getOutDimSizeLog2_of_notMem cta₂.toRawLayout,
          getOutDimSizeLog2_of_notMem cga₃.toRawLayout]
        · omega
        · rwa [hcga.outDims]
        · rwa [hdesc₂.outDims])
    (by omega)
  have houtsProd : (t.mul (cgaSpec rank shape layout t.outDims)).outDims = t.outDims := by
    simp [LayoutSpec.mul, cgaSpec]
  obtain ⟨L, hL, -, hdesc⟩ := transposeOuts_computes f2 hdescProd
    (show (standardOutDimNames rank).Perm _ from houtsProd.symm ▸ houts.symm)
  rw [← ht.outDims] at hcga₃ houts
  refine ⟨L, combineCtaCgaWithShape_eq f2 h houts hcga₁ hcga₂ hcga₃
    (hcga.outDims.trans ht.outDims.symm) hcta₁ hcta₂ hprod hL hdesc.outDims fun dim hdim => ?_, hdesc⟩
  rw [hdesc.outSize]
  change t.outLog _ + (cgaSpec rank shape layout _).outLog _ = _
  rw [hzero dim hdim, hfull dim hdim, Nat.add_zero]

end Combine

end TritonCpu
