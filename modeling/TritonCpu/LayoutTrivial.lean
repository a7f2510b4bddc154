import TritonCpu.FreeVariables
import TritonCpu.LayoutQuotient

/-!
# Layouts that act trivially

The test for dimensions that a layout passes on unchanged looks at the bases: it
flattens the part of the layout on these dimensions and wants the units, and it
wants zeros where these dimensions meet the others. When the dimensions stand in
the same order on both sides, that is what acting as the identity means.
-/

set_option autoImplicit false

namespace TritonCpu

open XorSpan BitFields LinearLayout List

section Sublayout

variable (f2 : F2Reduce) (L : LinearLayout) {inDimNames outDimNames : List String}

theorem sum_filter_le (names : List String) (p : String → Bool) (size : String → ℕ) :
    ((names.filter p).map size).sum ≤ (names.map size).sum :=
  (List.filter_sublist.map size).sum_le_sum fun _ _ => Nat.zero_le _

theorem sublayout_ok (hins : ∀ d ∈ inDimNames, d ∈ L.getInDimNames)
    (houts : ∀ d ∈ outDimNames, d ∈ L.getOutDimNames) :
    ∃ S : LinearLayout, L.sublayout f2 inDimNames outDimNames = .ok S ∧
      S.toRawLayout = L.sublayoutRaw inDimNames outDimNames := by
  have hinNames := getInDimNames_sublayoutRaw L inDimNames outDimNames
  have houtNames := getOutDimNames_sublayoutRaw L inDimNames outDimNames
  have hlen : ∀ basis ∈ (L.sublayoutRaw inDimNames outDimNames).flatBases,
      basis.length = (L.sublayoutRaw inDimNames outDimNames).outDims.values.length := by
    intro basis hbasis
    have hkept := congrArg List.length (map_getD_filter_range L.getOutDimNames outDimNames.contains)
    rw [RawLayout.flatBases, sublayoutRaw, MapVector.values_mapValues, ← map_flatten] at hbasis
    obtain ⟨b, -, rfl⟩ := mem_map.mp hbasis
    rw [length_map] at hkept
    rw [permuteBasis, length_map, hkept, ← houtNames, RawLayout.getOutDimNames,
      MapVector.length_keys, MapVector.length_values]
  have hpow : ∀ size ∈ (L.sublayoutRaw inDimNames outDimNames).outDims.values,
      isPowerOf2_32 size = true := by
    intro size hsize
    obtain ⟨e, he, rfl⟩ := mem_map.mp hsize
    exact L.size_pow _ (mem_map_of_mem (mem_filter.mp he).1)
  have hlt : ∀ inDim i, ∀ outDim ∈ (L.sublayoutRaw inDimNames outDimNames).getOutDimNames,
      (L.sublayoutRaw inDimNames outDimNames).getBasis inDim i outDim <
        2 ^ (L.sublayoutRaw inDimNames outDimNames).getOutDimSizeLog2 outDim := by
    intro inDim i outDim hout
    rw [houtNames, mem_filter] at hout
    have hmem : outDim ∈ outDimNames := by simpa using hout.2
    by_cases hin : inDim ∈ inDimNames
    · rw [getBasis_sublayoutRaw L hin hmem hout.1, getOutDimSizeLog2_sublayoutRaw L hmem]
      exact getBasis_lt L
    · have hnot : inDim ∉ (L.sublayoutRaw inDimNames outDimNames).getInDimNames := by
        rw [hinNames, mem_filter]
        simpa using fun _ => hin
      rw [getBasis_of_le _ (by rw [getInDimSizeLog2_of_notMem _ hnot]; omega)]
      exact Nat.two_pow_pos _
  have hsizes : ∀ d ∈ L.getInDimNames.filter inDimNames.contains,
      (L.sublayoutRaw inDimNames outDimNames).getInDimSizeLog2 d = L.getInDimSizeLog2 d := by
    intro d hd
    exact getInDimSizeLog2_sublayoutRaw L (by simpa using (mem_filter.mp hd).2)
  have hsizesOut : ∀ d ∈ L.getOutDimNames.filter outDimNames.contains,
      (L.sublayoutRaw inDimNames outDimNames).getOutDimSizeLog2 d = L.getOutDimSizeLog2 d := by
    intro d hd
    exact getOutDimSizeLog2_sublayoutRaw L (by simpa using (mem_filter.mp hd).2)
  have hcols : (L.sublayoutRaw inDimNames outDimNames).getTotalInDimSizeLog2 ≤ 64 := by
    rw [RawLayout.getTotalInDimSizeLog2, hinNames, map_congr_left hsizes]
    exact (sum_filter_le _ _ _).trans L.numCols_le
  have hrows : (L.sublayoutRaw inDimNames outDimNames).getTotalOutDimSizeLog2 ≤ 64 := by
    rw [RawLayout.getTotalOutDimSizeLog2, houtNames, map_congr_left hsizesOut]
    exact (sum_filter_le _ _ _).trans L.numRows_le
  obtain ⟨S, hcreate, hraw, -⟩ := create_of_getBasis f2 (L.sublayoutRaw inDimNames outDimNames)
    false hlen hpow hlt hcols hrows (fun h => absurd h (by simp))
  have hsubset : ∀ {small big : List String}, (∀ d ∈ small, d ∈ big) →
      assertDimsSubsetIgnoringOrder small big = .ok () := by
    intro small big h
    rw [assertDimsSubsetIgnoringOrder, if_pos]
    simpa using h
  refine ⟨S, ?_, hraw⟩
  rw [sublayout, hsubset hins, hsubset houts]
  exact hcreate

theorem sublayoutIsZero_ok (hins : ∀ d ∈ inDimNames, d ∈ L.getInDimNames)
    (houts : ∀ d ∈ outDimNames, d ∈ L.getOutDimNames) :
    ∃ zero, L.sublayoutIsZero f2 inDimNames outDimNames = .ok zero ∧ (zero = true ↔
      ∀ inDim ∈ inDimNames, ∀ outDim ∈ outDimNames, ∀ i, L.getBasis inDim i outDim = 0) := by
  obtain ⟨S, hS, hraw⟩ := sublayout_ok f2 L hins houts
  have hok : L.sublayoutIsZero f2 inDimNames outDimNames =
      .ok (S.bases.values.all fun inDimBases => inDimBases.all fun basis => basis.all (· == 0)) := by
    rw [sublayoutIsZero, hS]
    rfl
  refine ⟨_, hok, fun h inDim hin outDim hout i => ?_, fun h => ?_⟩
  · rw [h] at hok
    exact sublayoutIsZero_eq_true hok hin hout i
  · rw [all_eq_true]
    intro bs hbs
    rw [all_eq_true]
    intro basis hbasis
    rw [all_eq_true]
    intro v hv
    obtain ⟨t, ht, rfl⟩ := getElem_of_mem hv
    have hmem : basis ∈ S.flatBases := mem_flatten.mpr ⟨bs, hbs, hbasis⟩
    have hname : t < S.getOutDimNames.length := by
      rwa [← length_of_mem_flatBases S hmem]
    obtain ⟨inDim, i, hget⟩ := exists_getBasis S.toRawLayout hmem
    have hval := hget S.getOutDimNames[t]
    rw [getOutDimIndex_getElem S.toRawLayout hname, getD_eq_getElem _ _ ht] at hval
    have hkept : S.getOutDimNames[t] ∈ L.getOutDimNames.filter outDimNames.contains := by
      rw [← getOutDimNames_sublayoutRaw L inDimNames, ← hraw]
      exact getElem_mem hname
    have hout : S.getOutDimNames[t] ∈ outDimNames := by simpa using (mem_filter.mp hkept).2
    rw [beq_iff_eq, ← hval]
    generalize S.getOutDimNames[t] = outDim at hout
    rw [hraw]
    by_cases hin : inDim ∈ inDimNames
    · rw [getBasis_sublayoutRaw L hin hout (houts _ hout)]
      exact h inDim hin _ hout i
    · apply getBasis_of_le
      rw [getInDimSizeLog2_of_notMem]
      · omega
      · rw [getInDimNames_sublayoutRaw, mem_filter]
        simpa using fun _ => hin

end Sublayout

section Flatten

variable (f2 : F2Reduce) (S : LinearLayout)

theorem flatten_ok {inDim outDim : String} {inDims outDims : List String}
    (hin : S.getInDimNames = inDim :: inDims) (hout : S.getOutDimNames = outDim :: outDims)
    (hltIn : S.getTotalInDimSizeLog2 < 31) (hltOut : S.getTotalOutDimSizeLog2 < 31) :
    ∃ flatIns flat : LinearLayout, S.flattenIns f2 = .ok flatIns ∧
      flatIns.flattenOuts f2 = .ok flat ∧
      flat.bases.values = [S.flatColumns.map fun c => [c]] := by
  have hpow : ∀ {k : ℕ}, k < 31 → isPowerOf2_32 (2 ^ k) = true := fun hk =>
    isPowerOf2_32_iff.mpr ⟨_, hk, rfl⟩
  have hone : ∀ (dim : String) (size : ℕ), ([(dim, size)].map Prod.fst).Nodup := fun dim _ =>
    nodup_singleton dim
  obtain ⟨flatIns, hflatIns, hbases, houts, hnames, -⟩ :=
    reshapeIns_ok f2 S (hone inDim (2 ^ S.getTotalInDimSizeLog2)) (by simpa using hpow hltIn)
      (by simp) hltIn
  have htotal : flatIns.getTotalOutDimSizeLog2 = S.getTotalOutDimSizeLog2 := by
    rw [getTotalOutDimSizeLog2_eq, RawLayout.outWidths, houts, getTotalOutDimSizeLog2_eq]
    rfl
  have hcolumns : flatIns.flatColumns = S.flatColumns := by
    rw [RawLayout.flatColumns, hbases, RawLayout.outWidths, houts]
    rfl
  obtain ⟨flat, hflat, hbases', -, hnames', -⟩ :=
    reshapeOuts_ok f2 flatIns (hone outDim (2 ^ S.getTotalOutDimSizeLog2))
      (by simpa using hpow hltOut) (by simp [htotal]) (htotal ▸ hltOut)
  refine ⟨flatIns, flat, ?_, ?_, ?_⟩
  · rw [flattenIns, hin, RawLayout.getTotalInDimSize, shiftOne_ok hltIn]
    exact hflatIns
  · have houtNames : flatIns.getOutDimNames = outDim :: outDims := by
      rw [RawLayout.getOutDimNames, houts]
      exact hout
    rw [flattenOuts, houtNames, RawLayout.getTotalOutDimSize, htotal, shiftOne_ok hltOut]
    exact hflat
  · rw [values_of_single (hnames'.trans hnames), hbases', hcolumns]
    congr 1
    apply map_congr_left
    intro c hc
    have hlt := flatColumns_lt S.toRawLayout S.fits c hc
    simp [unpack, Nat.mod_eq_of_lt hlt]

theorem basesAreIdentity_ok {b : ℕ} (cs : List ℕ) (hb : b + cs.length ≤ 31) :
    ∃ identity, basesAreIdentity b (cs.map fun c => [c]) = .ok identity ∧
      (identity = true ↔ cs = (List.range cs.length).map fun i => 2 ^ (b + i)) := by
  induction cs generalizing b with
  | nil => exact ⟨true, rfl, by simp⟩
  | cons c cs ih =>
    rw [length_cons] at hb
    have hstep : basesAreIdentity b ((c :: cs).map fun c => [c]) =
        if c ≠ 2 ^ b then .ok false else basesAreIdentity (b + 1) (cs.map fun c => [c]) := by
      rw [map_cons, basesAreIdentity, shiftOne_ok (by omega)]
      rfl
    have hunits : ((List.range (cs.length + 1)).map fun i => 2 ^ (b + i)) =
        2 ^ b :: (List.range cs.length).map fun i => 2 ^ (b + 1 + i) := by
      rw [range_succ_eq_map, map_cons, map_map]
      congr 1
      apply map_congr_left
      intro i _
      rw [Function.comp_apply, Nat.succ_eq_add_one, Nat.add_assoc, Nat.add_comm 1 i]
    obtain ⟨identity, hidentity, hiff⟩ := @ih (b + 1) (by omega)
    rw [hstep, length_cons, hunits, List.cons.injEq]
    by_cases hc : c = 2 ^ b
    · refine ⟨identity, ?_, ?_⟩
      · rw [if_neg (not_not.mpr hc), hidentity]
      · rw [hiff, and_iff_right hc]
    · exact ⟨false, if_pos hc, by simp [hc]⟩

end Flatten

section Order

def packNames (width v : String → ℕ) (names : List String) : ℕ :=
  pack (names.map width) (names.map v)

theorem packNames_filter {width v : String → ℕ} {names : List String}
    (hv : ∀ d ∈ names, v d < 2 ^ width d) :
    packNames width v names = packNames width v (names.filter fun d => 0 < width d) := by
  induction names with
  | nil => rfl
  | cons d names ih =>
    have hrest := ih fun d' hd' => hv d' (mem_cons_of_mem _ hd')
    rw [packNames] at hrest ⊢
    by_cases hd : 0 < width d
    · rw [filter_cons_of_pos (by simpa using hd), map_cons, map_cons, pack, hrest]
      rfl
    · have hzero : width d = 0 := by omega
      have hvd := hv d mem_cons_self
      rw [hzero, Nat.pow_zero] at hvd
      have hvd' : v d = 0 := by omega
      rw [filter_cons_of_neg (by simpa using hd), map_cons, map_cons, pack, hrest,
        hzero, hvd', Nat.pow_zero, Nat.one_mul, Nat.zero_add]

theorem packNames_eq {width width' v : String → ℕ} {names names' : List String}
    (hv : ∀ d ∈ names, v d < 2 ^ width d) (hv' : ∀ d ∈ names', v d < 2 ^ width' d)
    (horder : (names.filter fun d => 0 < width d) = names'.filter fun d => 0 < width' d)
    (hwidth : ∀ d ∈ names, width d = width' d) :
    packNames width v names = packNames width' v names' := by
  rw [packNames_filter hv, packNames_filter hv', ← horder, packNames, packNames]
  congr 1
  apply map_congr_left
  intro d hd
  exact hwidth d (mem_filter.mp hd).1

end Order

section Identity

variable (S : LinearLayout)

theorem value_eq_self_iff {dim : String} (hdim : dim ∈ S.getInDimNames) :
    (∀ ins, InRange S ins → S.value dim ins = ins dim) ↔
      ∀ inDim ∈ S.getInDimNames, ∀ i < S.getInDimSizeLog2 inDim,
        S.getBasis inDim i dim = if inDim = dim then 2 ^ i else 0 := by
  constructor
  · intro h inDim hin i hi
    have hval := h (Function.update (fun _ => 0) inDim (2 ^ i)) (by
      intro d _
      by_cases heq : d = inDim
      · subst heq
        rw [Function.update_self]
        exact Nat.pow_lt_pow_right (by omega) hi
      · rw [Function.update_of_ne heq]
        exact Nat.two_pow_pos _)
    rw [value_oneInput S.toRawLayout hin, combine_two_pow, getD_dimColumn] at hval
    rw [hval]
    split_ifs with heq
    · rw [heq, Function.update_self]
    · exact Function.update_of_ne (Ne.symm heq) _ _
  · intro h ins hins
    have hterm : ∀ inDim ∈ S.getInDimNames, combine (S.dimColumn inDim dim) (ins inDim) =
        Function.update (fun _ => 0) dim (ins dim) inDim := by
      intro inDim hin
      have hcolumn : S.dimColumn inDim dim = (List.range (S.getInDimSizeLog2 inDim)).map fun i =>
          if inDim = dim then 2 ^ i else 0 :=
        map_congr_left fun i hi => h inDim hin i (mem_range.mp hi)
      rw [hcolumn]
      by_cases heq : inDim = dim
      · subst heq
        simp only [if_true]
        rw [combine_units, Nat.mod_eq_of_lt (hins inDim hin), Function.update_self]
      · simp only [if_neg heq]
        rw [Function.update_of_ne heq]
        exact combine_map _ _ (fun _ => 0) rfl fun _ _ => rfl
    rw [RawLayout.value, xorSum_map_congr hterm]
    exact xorSum_update (fun _ v => v) (fun _ => rfl) S.bases.nodup hdim (ins dim)

/-- The flattened layout is the identity exactly when every number of an input
is the number of its output. -/
theorem flatColumns_units_iff :
    S.flatColumns = ((List.range S.flatColumns.length).map fun i => 2 ^ (0 + i)) ↔
      ∀ ins, InRange S ins → pack S.outWidths (S.getOutDimNames.map fun d => S.value d ins) =
        pack S.inWidths (S.getInDimNames.map ins) := by
  have hunits : ((List.range S.flatColumns.length).map fun i => 2 ^ (0 + i)) =
      (List.range S.flatColumns.length).map (2 ^ ·) :=
    map_congr_left fun i _ => by rw [Nat.zero_add]
  rw [hunits, ← combine_eq_iff (by simp)]
  simp only [combine_units]
  constructor
  · intro h ins hins
    have hlt : pack S.inWidths (S.getInDimNames.map ins) < 2 ^ S.flatColumns.length := by
      rw [length_flatColumns, getTotalInDimSizeLog2_eq]
      exact pack_lt (fits_ins S.toRawLayout hins)
    rw [pack_values S.toRawLayout S.fits hins, h, Nat.mod_eq_of_lt hlt]
  · intro h x
    have hlt : x % 2 ^ S.flatColumns.length < 2 ^ S.getTotalInDimSizeLog2 := by
      rw [length_flatColumns]
      exact Nat.mod_lt _ (Nat.two_pow_pos _)
    obtain ⟨ins, hins, hpack⟩ := exists_ins S.toRawLayout hlt
    have hval := h ins hins
    rw [pack_values S.toRawLayout S.fits hins, hpack, combine_mod] at hval
    exact hval

variable {dimNames : List String} (hmemIn : ∀ d, d ∈ S.getInDimNames ↔ d ∈ dimNames)
  (hmemOut : ∀ d, d ∈ S.getOutDimNames ↔ d ∈ dimNames)
  (hsizes : ∀ d ∈ dimNames, S.getInDimSizeLog2 d = S.getOutDimSizeLog2 d)

include hmemIn hmemOut hsizes

theorem total_eq : S.getTotalOutDimSizeLog2 = S.getTotalInDimSizeLog2 := by
  have hperm : S.getOutDimNames.Perm S.getInDimNames :=
    (perm_ext_iff_of_nodup S.outDims.nodup S.bases.nodup).mpr fun d => by
      change d ∈ S.getOutDimNames ↔ d ∈ S.getInDimNames
      rw [hmemOut, hmemIn]
  have hmap : S.getOutDimNames.map S.getOutDimSizeLog2 =
      S.getOutDimNames.map S.getInDimSizeLog2 :=
    map_congr_left fun d hd => (hsizes d ((hmemOut d).mp hd)).symm
  rw [RawLayout.getTotalOutDimSizeLog2, hmap, (hperm.map _).sum_eq]
  rfl

/-- With the dimensions in the same order the flattened layout is the identity
exactly when the layout is. -/
theorem flat_identity_iff
    (horder : (S.getInDimNames.filter fun d => 0 < S.getInDimSizeLog2 d) =
      S.getOutDimNames.filter fun d => 0 < S.getInDimSizeLog2 d) :
    S.flatColumns = ((List.range S.flatColumns.length).map fun i => 2 ^ (0 + i)) ↔
      ∀ dim ∈ dimNames, ∀ inDim ∈ dimNames, ∀ i < S.getInDimSizeLog2 inDim,
        S.getBasis inDim i dim = if inDim = dim then 2 ^ i else 0 := by
  have hsame : ∀ ins, InRange S ins → pack S.inWidths (S.getInDimNames.map ins) =
      pack S.outWidths (S.getOutDimNames.map ins) := by
    intro ins hins
    have hins' : ∀ d ∈ S.getOutDimNames, ins d < 2 ^ S.getOutDimSizeLog2 d := by
      intro d hd
      have hmem := (hmemOut d).mp hd
      rw [← hsizes d hmem]
      exact hins d ((hmemIn d).mpr hmem)
    have horder' : (S.getOutDimNames.filter fun d => 0 < S.getInDimSizeLog2 d) =
        S.getOutDimNames.filter fun d => 0 < S.getOutDimSizeLog2 d :=
      filter_congr fun d hd => by rw [hsizes d ((hmemOut d).mp hd)]
    rw [← map_getInDimSizeLog2, ← map_getOutDimSizeLog2]
    exact packNames_eq hins hins' (horder.trans horder') fun d hd => hsizes d ((hmemIn d).mp hd)
  have hfields : ∀ ins, InRange S ins →
      (pack S.outWidths (S.getOutDimNames.map fun d => S.value d ins) =
        pack S.inWidths (S.getInDimNames.map ins) ↔ ∀ dim ∈ dimNames, S.value dim ins = ins dim) := by
    intro ins hins
    have hvalues : Fits (S.getOutDimNames.map fun d => S.value d ins) S.outWidths := by
      rw [← map_getOutDimSizeLog2]
      simp only [forall₂_map_left_iff, forall₂_map_right_iff, forall₂_same]
      exact fun d _ => value_lt S ins
    have hself : Fits (S.getOutDimNames.map ins) S.outWidths := by
      rw [← map_getOutDimSizeLog2]
      simp only [forall₂_map_left_iff, forall₂_map_right_iff, forall₂_same]
      intro d hd
      have hmem := (hmemOut d).mp hd
      rw [← hsizes d hmem]
      exact hins d ((hmemIn d).mpr hmem)
    rw [hsame ins hins]
    constructor
    · intro h dim hdim
      have hlists := congrArg (unpack S.outWidths) h
      rw [unpack_pack hvalues, unpack_pack hself] at hlists
      exact map_inj_left.mp hlists dim ((hmemOut dim).mpr hdim)
    · intro h
      congr 1
      exact map_congr_left fun d hd => h d ((hmemOut d).mp hd)
  rw [flatColumns_units_iff]
  constructor
  · intro h dim hdim inDim hin i hi
    refine (value_eq_self_iff S ((hmemIn dim).mpr hdim)).mp (fun ins hins => ?_) inDim
      ((hmemIn inDim).mpr hin) i hi
    exact (hfields ins hins).mp (h ins hins) dim hdim
  · intro h ins hins
    refine (hfields ins hins).mpr fun dim hdim => ?_
    refine (value_eq_self_iff S ((hmemIn dim).mpr hdim)).mpr (fun inDim hin i hi => ?_) ins hins
    exact h dim hdim inDim ((hmemIn inDim).mp hin) i hi

end Identity

section Square

variable (f2 : F2Reduce) (L : LinearLayout) {dimNames : List String}

theorem allM_sizes (hsize : ∀ d ∈ dimNames, L.getInDimSizeLog2 d < 31) :
    ∃ same, (dimNames.allM fun dim => do
        let size ← L.getInDimSize dim
        pure (size == L.getOutDimSize dim)) = (.ok same : Except LayoutError Bool) ∧
      (same = true ↔ ∀ d ∈ dimNames, L.getInDimSizeLog2 d = L.getOutDimSizeLog2 d) := by
  induction dimNames with
  | nil => exact ⟨true, rfl, by simp⟩
  | cons d dimNames ih =>
    obtain ⟨same, hsame, hiff⟩ := ih fun d' hd' => hsize d' (mem_cons_of_mem _ hd')
    have hd : (do
        let size ← L.getInDimSize d
        pure (size == L.getOutDimSize d) : Except LayoutError Bool) =
        .ok (2 ^ L.getInDimSizeLog2 d == L.getOutDimSize d) := by
      rw [RawLayout.getInDimSize, shiftOne_ok (hsize d mem_cons_self)]
      rfl
    rw [List.allM, hd]
    by_cases heq : L.getInDimSizeLog2 d = L.getOutDimSizeLog2 d
    · have htrue : (2 ^ L.getInDimSizeLog2 d == L.getOutDimSize d) = true := by
        rw [heq]
        exact beq_self_eq_true _
      refine ⟨same, ?_, ?_⟩
      · rw [htrue]
        exact hsame
      · rw [hiff, forall_mem_cons, and_iff_right heq]
    · have hfalse : (2 ^ L.getInDimSizeLog2 d == L.getOutDimSize d) = false := by
        rw [beq_eq_false_iff_ne]
        exact fun h => heq (Nat.pow_right_injective le_rfl h)
      exact ⟨false, by rw [hfalse]; rfl, by simp [heq]⟩

theorem squareSublayoutIsIdentity_ok (hin : ∀ d ∈ dimNames, d ∈ L.getInDimNames)
    (hout : ∀ d ∈ dimNames, d ∈ L.getOutDimNames)
    (horder : (L.getInDimNames.filter fun d => dimNames.contains d && 0 < L.getInDimSizeLog2 d) =
      L.getOutDimNames.filter fun d => dimNames.contains d && 0 < L.getInDimSizeLog2 d)
    (htotal : ((L.getInDimNames.filter dimNames.contains).map L.getInDimSizeLog2).sum < 31) :
    ∃ identity, L.squareSublayoutIsIdentity f2 dimNames = .ok identity ∧ (identity = true ↔
      (∀ d ∈ dimNames, L.getInDimSizeLog2 d = L.getOutDimSizeLog2 d) ∧
        ∀ dim ∈ dimNames, ∀ inDim ∈ dimNames, ∀ i < L.getInDimSizeLog2 inDim,
          L.getBasis inDim i dim = if inDim = dim then 2 ^ i else 0) := by
  rcases hnil : dimNames with _ | ⟨first, rest⟩
  · exact ⟨true, by rw [squareSublayoutIsIdentity]; rfl, by simp⟩
  rw [← hnil]
  have hfirst : first ∈ dimNames := by simp [hnil]
  have hsize : ∀ d ∈ dimNames, L.getInDimSizeLog2 d < 31 := by
    intro d hd
    refine lt_of_le_of_lt ?_ htotal
    exact single_le_sum (fun _ _ => Nat.zero_le _) _ (mem_map_of_mem
      (mem_filter.mpr ⟨hin d hd, by simpa using hd⟩))
  obtain ⟨S, hS, hraw⟩ := sublayout_ok f2 L hin hout
  obtain ⟨same, hsame, hsameIff⟩ := allM_sizes L hsize
  rw [squareSublayoutIsIdentity, if_neg (by simp [hnil]), hS]
  cases same with
  | false =>
    refine ⟨false, by rw [hsame]; rfl, fun h => absurd h (by simp), fun h => ?_⟩
    exact absurd (hsameIff.mpr h.1) (by simp)
  | true =>
    have hsizes := hsameIff.mp rfl
    have hinNames : S.getInDimNames = L.getInDimNames.filter dimNames.contains := by
      rw [hraw, getInDimNames_sublayoutRaw]
    have houtNames : S.getOutDimNames = L.getOutDimNames.filter dimNames.contains := by
      rw [hraw, getOutDimNames_sublayoutRaw]
    have hmemIn : ∀ d, d ∈ S.getInDimNames ↔ d ∈ dimNames := by
      intro d
      rw [hinNames, mem_filter]
      simpa using hin d
    have hmemOut : ∀ d, d ∈ S.getOutDimNames ↔ d ∈ dimNames := by
      intro d
      rw [houtNames, mem_filter]
      simpa using hout d
    have hinSize : ∀ d ∈ dimNames, S.getInDimSizeLog2 d = L.getInDimSizeLog2 d := by
      intro d hd
      rw [hraw, getInDimSizeLog2_sublayoutRaw L hd]
    have hsizes' : ∀ d ∈ dimNames, S.getInDimSizeLog2 d = S.getOutDimSizeLog2 d := by
      intro d hd
      rw [hinSize d hd, hraw, getOutDimSizeLog2_sublayoutRaw L hd, hsizes d hd]
    have horder' : (S.getInDimNames.filter fun d => 0 < S.getInDimSizeLog2 d) =
        S.getOutDimNames.filter fun d => 0 < S.getInDimSizeLog2 d := by
      have hfilter : ∀ names : List String, ((names.filter dimNames.contains).filter fun d =>
          0 < S.getInDimSizeLog2 d) =
          names.filter fun d => dimNames.contains d && 0 < L.getInDimSizeLog2 d := by
        intro names
        rw [filter_filter]
        apply filter_congr
        intro d _
        by_cases hd : d ∈ dimNames
        · rw [hinSize d hd, Bool.and_comm]
        · simp [hd]
      rw [hinNames, houtNames, hfilter, hfilter, horder]
    have htotalIn : S.getTotalInDimSizeLog2 < 31 := by
      have hmap := map_congr_left fun d (hd : d ∈ L.getInDimNames.filter dimNames.contains) =>
        hinSize d (by simpa using (mem_filter.mp hd).2)
      rwa [RawLayout.getTotalInDimSizeLog2, hinNames, hmap]
    have htotalOut := (total_eq S hmemIn hmemOut hsizes').trans_lt htotalIn
    obtain ⟨inDim, inDims, hinCons⟩ := exists_cons_of_ne_nil
      (ne_nil_of_mem ((hmemIn first).mpr hfirst))
    obtain ⟨outDim, outDims, houtCons⟩ := exists_cons_of_ne_nil
      (ne_nil_of_mem ((hmemOut first).mpr hfirst))
    obtain ⟨flatIns, flat, hflatIns, hflat, hvalues⟩ :=
      flatten_ok f2 S hinCons houtCons htotalIn htotalOut
    obtain ⟨identity, hidentity, hiff⟩ := @basesAreIdentity_ok 0 S.flatColumns (by
      rw [length_flatColumns]
      omega)
    refine ⟨identity, ?_, ?_⟩
    · simp only [bind, Except.bind] at hsame ⊢
      simp only [hsame, if_true, hflatIns, hflat, hvalues, hidentity]
    · rw [hiff, flat_identity_iff S hmemIn hmemOut hsizes' horder', and_iff_right hsizes]
      have hbasis : ∀ dim ∈ dimNames, ∀ inDim ∈ dimNames, ∀ i,
          S.getBasis inDim i dim = L.getBasis inDim i dim := by
        intro dim hdim inDim hinDim i
        rw [hraw, getBasis_sublayoutRaw L hinDim hdim (hout dim hdim)]
      constructor
      · intro h dim hdim inDim hinDim i hi
        rw [← hbasis dim hdim inDim hinDim]
        exact h dim hdim inDim hinDim i (by rwa [hinSize inDim hinDim])
      · intro h dim hdim inDim hinDim i hi
        rw [hbasis dim hdim inDim hinDim]
        exact h dim hdim inDim hinDim i (by rwa [← hinSize inDim hinDim])

end Square

section Trivial

/-- `L` is the identity on `dimNames`, and neither do the other outputs depend on
these dimensions nor these outputs on the other dimensions. -/
structure ActsTrivially (L : LinearLayout) (dimNames : List String) : Prop where
  identity : ∀ ins, InRange L ins → ∀ dim ∈ dimNames, L.value dim ins = ins dim
  others : ∀ ins ins', InRange L ins → InRange L ins' →
    (∀ inDim ∈ L.getInDimNames, inDim ∉ dimNames → ins inDim = ins' inDim) →
    ∀ outDim ∈ L.getOutDimNames, outDim ∉ dimNames → L.value outDim ins = L.value outDim ins'
  these : ∀ ins ins', InRange L ins → InRange L ins' →
    (∀ dim ∈ dimNames, ins dim = ins' dim) → ∀ dim ∈ dimNames, L.value dim ins = L.value dim ins'

/-- `Q` is `L` on the dimensions that are not in `dimNames`. -/
structure QuotientOf (L Q : LinearLayout) (dimNames : List String) : Prop where
  inDims : Q.getInDimNames = L.getInDimNames.filter fun d => !dimNames.contains d
  outDims : Q.getOutDimNames = L.getOutDimNames.filter fun d => !dimNames.contains d
  inSize : ∀ inDim ∈ Q.getInDimNames, Q.getInDimSizeLog2 inDim = L.getInDimSizeLog2 inDim
  outSize : ∀ outDim ∈ Q.getOutDimNames, Q.getOutDimSizeLog2 outDim = L.getOutDimSizeLog2 outDim
  value : ∀ ins, ∀ outDim ∈ Q.getOutDimNames, L.value outDim ins = Q.value outDim ins

variable (f2 : F2Reduce) (L : LinearLayout) {dimNames : List String}
  (hin : ∀ d ∈ dimNames, d ∈ L.getInDimNames)

theorem mem_remaining {d : String} {names : List String} :
    d ∈ remainingDimNames dimNames names ↔ d ∈ names ∧ d ∉ dimNames := by
  simp [remainingDimNames]

include hin

theorem actsTrivially_iff : ActsTrivially L dimNames ↔
    (∀ dim ∈ dimNames, ∀ inDim ∈ dimNames, ∀ i < L.getInDimSizeLog2 inDim,
      L.getBasis inDim i dim = if inDim = dim then 2 ^ i else 0) ∧
    (∀ inDim ∈ remainingDimNames dimNames L.getInDimNames, ∀ dim ∈ dimNames, ∀ i,
      L.getBasis inDim i dim = 0) ∧
    (∀ dim ∈ dimNames, ∀ outDim ∈ remainingDimNames dimNames L.getOutDimNames, ∀ i,
      L.getBasis dim i outDim = 0) := by
  constructor
  · intro h
    have hself := fun dim hdim => (value_eq_self_iff L (hin dim hdim)).mp
      fun ins hins => h.identity ins hins dim hdim
    refine ⟨fun dim hdim inDim hinDim => hself dim hdim inDim (hin inDim hinDim),
      fun inDim hmem dim hdim i => ?_, fun dim hdim outDim hmem i => ?_⟩
    · obtain ⟨hinDim, hnot⟩ := mem_remaining.mp hmem
      by_cases hi : i < L.getInDimSizeLog2 inDim
      · have hne : inDim ≠ dim := by
          rintro rfl
          exact hnot hdim
        rw [hself dim hdim inDim hinDim i hi, if_neg hne]
      · exact getBasis_of_le L.toRawLayout (by omega)
    · obtain ⟨hout, hnot⟩ := mem_remaining.mp hmem
      by_cases hi : i < L.getInDimSizeLog2 dim
      · -- the input of this bit alone has the output of the input zero
        have hval := h.others (Function.update (fun _ => 0) dim (2 ^ i)) (fun _ => 0) (by
          intro d _
          by_cases heq : d = dim
          · subst heq
            rw [Function.update_self]
            exact Nat.pow_lt_pow_right (by omega) hi
          · rw [Function.update_of_ne heq]
            exact Nat.two_pow_pos _) (fun d _ => Nat.two_pow_pos _) (by
          intro d _ hd
          have hne : d ≠ dim := by
            rintro rfl
            exact hd hdim
          exact Function.update_of_ne hne _ _) outDim hout hnot
        rw [value_oneInput L.toRawLayout (hin dim hdim), combine_two_pow, getD_dimColumn,
          value_zero] at hval
        exact hval
      · exact getBasis_of_le L.toRawLayout (by omega)
  · rintro ⟨hsquare, hrows, hcolumns⟩
    have hidentity : ∀ ins, InRange L ins → ∀ dim ∈ dimNames, L.value dim ins = ins dim := by
      intro ins hins dim hdim
      refine (value_eq_self_iff L (hin dim hdim)).mpr (fun inDim hinDim i hi => ?_) ins hins
      by_cases hmem : inDim ∈ dimNames
      · exact hsquare dim hdim inDim hmem i hi
      · have hne : inDim ≠ dim := by
          rintro rfl
          exact hmem hdim
        rw [hrows inDim (mem_remaining.mpr ⟨hinDim, hmem⟩) dim hdim, if_neg hne]
    refine ⟨hidentity, fun ins ins' _ _ hsame outDim hout hnot => ?_,
      fun ins ins' hins hins' hsame dim hdim => ?_⟩
    · apply xorSum_map_congr
      intro inDim hinDim
      by_cases hmem : inDim ∈ dimNames
      · have hzero : L.dimColumn inDim outDim =
            (List.range (L.getInDimSizeLog2 inDim)).map fun _ => 0 :=
          map_congr_left fun i _ => hcolumns inDim hmem outDim (mem_remaining.mpr ⟨hout, hnot⟩) i
        rw [hzero, combine_map _ _ (fun _ => 0) rfl fun _ _ => rfl,
          combine_map _ _ (fun _ => 0) rfl fun _ _ => rfl]
      · rw [hsame inDim hinDim hmem]
    · rw [hidentity ins hins dim hdim, hidentity ins' hins' dim hdim, hsame dim hdim]

omit hin in
theorem quotientOf_sublayout {Q : LinearLayout}
    (hQ : L.sublayout f2 (remainingDimNames dimNames L.getInDimNames)
      (remainingDimNames dimNames L.getOutDimNames) = .ok Q)
    (hcolumns : ∀ dim ∈ dimNames, ∀ outDim ∈ remainingDimNames dimNames L.getOutDimNames, ∀ i,
      L.getBasis dim i outDim = 0) : QuotientOf L Q dimNames := by
  obtain ⟨-, -, hraw⟩ := sublayout_eq_ok hQ
  have hfilter : ∀ names : List String, names.filter (remainingDimNames dimNames names).contains =
      names.filter fun d => !dimNames.contains d := by
    intro names
    apply filter_congr
    intro d hd
    by_cases hmem : d ∈ dimNames <;> simp [mem_remaining, hd, hmem]
  have hinNames : Q.getInDimNames = L.getInDimNames.filter fun d => !dimNames.contains d := by
    rw [hraw, getInDimNames_sublayoutRaw, hfilter]
  have houtNames : Q.getOutDimNames = L.getOutDimNames.filter fun d => !dimNames.contains d := by
    rw [hraw, getOutDimNames_sublayoutRaw, hfilter]
  have hinMem : ∀ d ∈ Q.getInDimNames, d ∈ remainingDimNames dimNames L.getInDimNames := by
    rw [hinNames]
    exact fun d hd => hd
  have houtMem : ∀ d ∈ Q.getOutDimNames, d ∈ remainingDimNames dimNames L.getOutDimNames := by
    rw [houtNames]
    exact fun d hd => hd
  refine ⟨hinNames, houtNames, fun d hd => ?_, fun d hd => ?_, fun ins outDim hout => ?_⟩
  · rw [hraw, getInDimSizeLog2_sublayoutRaw L (hinMem d hd)]
  · rw [hraw, getOutDimSizeLog2_sublayoutRaw L (houtMem d hd)]
  · have hmem := houtMem outDim hout
    rw [RawLayout.value, RawLayout.value, hinNames]
    refine (xorSum_map_filter fun d hd hnot => ?_).trans (xorSum_map_congr fun d hd => ?_)
    · have hd' : d ∈ dimNames := by simpa using hnot
      have hzero : L.dimColumn d outDim = (List.range (L.getInDimSizeLog2 d)).map fun _ => 0 :=
        map_congr_left fun i _ => hcolumns d hd' outDim hmem i
      rw [hzero]
      exact combine_map _ _ (fun _ => 0) rfl fun _ _ => rfl
    · have hd' := hinMem d (hinNames ▸ hd)
      have hcolumn : Q.dimColumn d outDim = L.dimColumn d outDim := by
        rw [RawLayout.dimColumn, hraw, getInDimSizeLog2_sublayoutRaw L hd']
        exact map_congr_left fun i _ =>
          getBasis_sublayoutRaw L hd' hmem (mem_remaining.mp hmem).1 i
      rw [hcolumn]

omit hin in
/-- The test holds exactly for layouts that act trivially on dimensions of the
same size on both sides, and what it returns then is the rest of the layout. The
dimensions that have several elements stand in the same order on both sides. -/
theorem isTrivialOver_exact (f2 : F2Reduce) (L : LinearLayout) (dimNames : List String)
    (hdims : ∀ d ∈ dimNames, d ∈ L.getInDimNames ∧ d ∈ L.getOutDimNames)
    (horder : (L.getInDimNames.filter fun d => dimNames.contains d && 0 < L.getInDimSizeLog2 d) =
      L.getOutDimNames.filter fun d => dimNames.contains d && 0 < L.getInDimSizeLog2 d)
    (htotal : ((L.getInDimNames.filter dimNames.contains).map L.getInDimSizeLog2).sum < 31) :
    ∃ trivialOver, L.isTrivialOver f2 dimNames = .ok trivialOver ∧
      (trivialOver = true ↔
        (∀ d ∈ dimNames, L.getInDimSizeLog2 d = L.getOutDimSizeLog2 d) ∧
          ActsTrivially L dimNames) ∧
      (trivialOver = true → ∃ Q, L.quotient f2 dimNames = .ok (some Q) ∧
        QuotientOf L Q dimNames) := by
  have hin : ∀ d ∈ dimNames, d ∈ L.getInDimNames := fun d hd => (hdims d hd).1
  have hout : ∀ d ∈ dimNames, d ∈ L.getOutDimNames := fun d hd => (hdims d hd).2
  have hremIn : ∀ d ∈ remainingDimNames dimNames L.getInDimNames, d ∈ L.getInDimNames :=
    fun d hd => (mem_remaining.mp hd).1
  have hremOut : ∀ d ∈ remainingDimNames dimNames L.getOutDimNames, d ∈ L.getOutDimNames :=
    fun d hd => (mem_remaining.mp hd).1
  obtain ⟨identity, hidentity, hidentityIff⟩ :=
    squareSublayoutIsIdentity_ok f2 L hin hout horder htotal
  obtain ⟨rowsZero, hrows, hrowsIff⟩ := sublayoutIsZero_ok f2 L hremIn hout
  obtain ⟨columnsZero, hcolumns, hcolumnsIff⟩ := sublayoutIsZero_ok f2 L hin hremOut
  obtain ⟨Q, hQ, -⟩ := sublayout_ok f2 L hremIn hremOut
  have hknown : (dimNames.all fun dim =>
      L.getInDimNames.contains dim || L.getOutDimNames.contains dim) = true := by
    rw [all_eq_true]
    intro d hd
    simp [hin d hd]
  have hok : L.isTrivialOver f2 dimNames = .ok (identity && rowsZero && columnsZero) := by
    rw [isTrivialOver, if_pos hknown, hidentity, hrows, hcolumns]
    cases identity <;> cases rowsZero <;> rfl
  have hiff : (identity && rowsZero && columnsZero) = true ↔
      (∀ d ∈ dimNames, L.getInDimSizeLog2 d = L.getOutDimSizeLog2 d) ∧
        ActsTrivially L dimNames := by
    rw [Bool.and_eq_true, Bool.and_eq_true, hidentityIff, hrowsIff, hcolumnsIff,
      actsTrivially_iff L hin]
    tauto
  refine ⟨_, hok, hiff, fun htrue => ⟨Q, ?_, ?_⟩⟩
  · rw [quotient, hok, htrue]
    change (L.sublayout f2 _ _ >>= fun sub => pure (some sub)) = _
    rw [hQ]
    rfl
  · exact quotientOf_sublayout f2 L hQ ((actsTrivially_iff L hin).mp (hiff.mp htrue).2).2.2

/-- A layout with its surjectivity computed by `f2reduce`. -/
def computedLayout (bases : MapVector (List (List ℕ))) (outDims : MapVector ℕ)
    (hpow : ∀ size ∈ outDims.values, isPowerOf2_32 size = true)
    (hlt : ∀ b ∈ (⟨bases, outDims⟩ : RawLayout).flatBases, List.Forall₂ (· < ·) b outDims.values)
    (hcols : (⟨bases, outDims⟩ : RawLayout).getTotalInDimSizeLog2 ≤ 64)
    (hrows : (⟨bases, outDims⟩ : RawLayout).getTotalOutDimSizeLog2 ≤ 64) : LinearLayout :=
  ⟨⟨bases, outDims⟩, _, hpow, hlt, hcols, hrows, computeSurjective_iff f2reduce _ hpow hlt hcols⟩

/-- `(lane, warp) -> (warp, lane)`, four lanes and two warps. -/
def lanesAndWarps : LinearLayout :=
  computedLayout ⟨[("lane", [[0, 1], [0, 2]]), ("warp", [[1, 0]])], by decide⟩
    ⟨[("warp", 2), ("lane", 4)], by decide⟩ (by decide) (by decide) (by decide) (by decide)

omit hin in
theorem isTrivialOver_exact_lanes : lanesAndWarps.isTrivialOver f2reduce ["warp"] = .ok true ∧
    ActsTrivially lanesAndWarps ["warp"] := by
  obtain ⟨trivialOver, hok, hiff, -⟩ :=
    isTrivialOver_exact f2reduce lanesAndWarps ["warp"] (by decide) (by decide) (by decide)
  have htrue : lanesAndWarps.isTrivialOver f2reduce ["warp"] = .ok true := by decide +kernel
  exact ⟨htrue, (hiff.mp (Except.ok.inj (hok.symm.trans htrue))).2⟩

def narrowLanes : LinearLayout :=
  oneInputLayout "lane" [[1]] ⟨[("lane", 4)], by decide⟩
    (by decide) (by decide) (by decide) (by decide)

omit hin in
/-- A layout that passes on a dimension into a larger one is not trivial over
it. -/
theorem narrowLanes_not_trivial : narrowLanes.isTrivialOver f2reduce ["lane"] = .ok false ∧
    ActsTrivially narrowLanes ["lane"] := by
  refine ⟨by decide +kernel, (actsTrivially_iff narrowLanes (by decide)).mpr ⟨?_, ?_, ?_⟩⟩
  · decide +kernel
  · intro inDim hmem
    exact absurd hmem (by revert inDim; decide)
  · intro dim _ outDim hmem
    exact absurd hmem (by revert outDim; decide)

end Trivial

end TritonCpu
