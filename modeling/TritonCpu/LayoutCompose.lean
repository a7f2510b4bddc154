import TritonCpu.LayoutProduct

/-!
# Composing layouts

The composition of two layouts applies the second to every basis of the first.
The output of a layout at one dimension keeps xor in its inputs, so the composed
layout applies the second layout to every output of the first.
-/

set_option autoImplicit false

namespace TritonCpu

open XorSpan BitFields List

namespace LinearLayout

variable (f2 : F2Reduce) (L : LinearLayout)

def transposedIns (newInDims : List String) : RawLayout where
  bases := MapVector.build (fun _ inDimBases => inDimBases)
    (newInDims.map fun inDim => (inDim, (L.bases.find inDim).getD []))
  outDims := L.outDims

def transposeIns (newInDims : List String) : Except LayoutError LinearLayout := do
  assertDimsEqualIgnoringOrder newInDims L.getInDimNames
  create f2 (L.transposedIns newInDims) L.surjective

variable (outer : LinearLayout)

/-- `getOutDimSize(outDim) == outer.getInDimSize(outDim)` for all dimensions, the
first difference ends it. -/
def sameSizes : List String → Except LayoutError Bool
  | [] => .ok true
  | outDim :: outDims => do
    let inDimSize ← outer.getInDimSize outDim
    if L.getOutDimSize outDim = inDimSize then sameSizes outDims else pure false

def compositionIsSurjective : Except LayoutError Bool :=
  if L.surjective && outer.surjective then L.sameSizes outer L.getOutDimNames else .ok false

def composeBases : Except LayoutError (List (String × List (List ℕ))) :=
  L.bases.entries.mapM fun e => do
    let newInDimBases ← e.2.mapM fun basis => do
      let newBases ← outer.apply (L.getOutDimNames.zip basis)
      pure (newBases.map Prod.snd)
    pure (e.1, newInDimBases)

/-- `outer` after this layout. -/
def compose : Except LayoutError LinearLayout := do
  assertDimsEqualIgnoringOrder L.getOutDimNames outer.getInDimNames
  L.getOutDimNames.forM fun outDim => do
    let inDimSize ← outer.getInDimSize outDim
    assertThat "getOutDimSize(outDim) <= outer.getInDimSize(outDim)"
      (L.getOutDimSize outDim ≤ inDimSize)
  let newBases ← L.composeBases outer
  let requireSurjective ← L.compositionIsSurjective outer
  create f2 ⟨MapVector.build (fun old bs => old.getD [] ++ bs) newBases, outer.outDims⟩
    requireSurjective

end LinearLayout

open LinearLayout

section Linear

variable (L : RawLayout) {outDim : String}

theorem value_zero : L.value outDim (fun _ => 0) = 0 :=
  xorSum_map_zero fun inDim _ => combine_zero (L.dimColumn inDim outDim)

theorem value_xor (f g : String → ℕ) : L.value outDim (fun d => f d ^^^ g d) =
    L.value outDim f ^^^ L.value outDim g := by
  rw [RawLayout.value, RawLayout.value, RawLayout.value, ← xorSum_map_xor]
  apply xorSum_map_congr
  intro inDim _
  exact combine_xor _ _ _

variable {α : Type} (f : α → String → ℕ)

theorem value_xorSum (l : List α) : xorSum (l.map fun a => L.value outDim (f a)) =
    L.value outDim fun d => xorSum (l.map fun a => f a d) := by
  induction l with
  | nil => exact (value_zero L).symm
  | cons a l ih =>
    simp only [map_cons, xorSum_cons]
    rw [ih, value_xor]

theorem value_combine (l : List α) (x : ℕ) : combine (l.map fun a => L.value outDim (f a)) x =
    L.value outDim fun d => combine (l.map fun a => f a d) x := by
  induction l generalizing x with
  | nil => exact (value_zero L).symm
  | cons a l ih =>
    simp only [map_cons, combine]
    rw [ih, value_xor]
    congr 1
    split_ifs
    · rfl
    · exact (value_zero L).symm

end Linear

section Names

variable (L : RawLayout) (ins : String → ℕ) (hwidth : ∀ inDim ∈ L.getInDimNames,
  L.getInDimSizeLog2 inDim ≤ 31)

include hwidth

theorem foldlM_names {names : List String} (hnames : ∀ d ∈ names, d ∈ L.getInDimNames)
    (outDim : String) (outVal : ℕ) :
    (names.map fun d => (d, ins d)).foldlM (L.applyCoordinate outDim) outVal =
      .ok (outVal ^^^ xorSum (names.map fun d => combine (L.dimColumn d outDim) (ins d))) := by
  induction names generalizing outVal with
  | nil => simp [pure, Except.pure]
  | cons d names ih =>
    obtain ⟨bs, hbs, -⟩ := MapVector.exists_find (hnames d mem_cons_self)
    have hlen : bs.length ≤ 31 := by
      rw [← getInDimSizeLog2_of_mem L hbs]
      exact hwidth d (hnames d mem_cons_self)
    have hcolumn : L.dimColumn d outDim = bs.map fun b => b.getD (L.getOutDimIndex outDim) 0 :=
      map_getBasis L hbs outDim
    rw [map_cons, foldlM_cons, applyCoordinate_eq L hbs hlen, ← hcolumn]
    refine (ih (fun d' hd' => hnames d' (mem_cons_of_mem _ hd')) _).trans ?_
    rw [map_cons, xorSum_cons, Nat.xor_assoc]

theorem apply_perm {names : List String} (hperm : names.Perm L.getInDimNames) :
    L.apply (names.map fun d => (d, ins d)) =
      .ok (L.getOutDimNames.map fun outDim => (outDim, L.value outDim ins)) := by
  have hdims : assertDimsEqualIgnoringOrder ((names.map fun d => (d, ins d)).map Prod.fst)
      L.getInDimNames = .ok () := by
    rw [map_map, assertDimsEqualIgnoringOrder, if_pos]
    simp [hperm.mem_iff]
  rw [RawLayout.apply, hdims]
  apply mapM_ok
  intro outDim _
  have hloop := foldlM_names L ins hwidth (fun d hd => hperm.mem_iff.mp hd) outDim 0
  rw [Nat.zero_xor, xorSum_perm (hperm.map _)] at hloop
  exact congrArg (fun r => r >>= fun outVal => pure (outDim, outVal)) hloop

end Names

section Composed

variable (L outer : LinearLayout)

def composeBasis (basis : List ℕ) : List ℕ :=
  outer.getOutDimNames.map fun outDim =>
    outer.value outDim fun d => basis.getD (L.getOutDimIndex d) 0

def composed : RawLayout where
  bases := L.bases.mapValues fun inDimBases => inDimBases.map (composeBasis L outer)
  outDims := outer.outDims

theorem getInDimSizeLog2_composed (inDim : String) :
    (composed L outer).getInDimSizeLog2 inDim = L.getInDimSizeLog2 inDim := by
  rw [RawLayout.getInDimSizeLog2, composed, MapVector.find_mapValues, RawLayout.getInDimSizeLog2]
  cases L.bases.find inDim <;> simp

theorem getBasis_composed (inDim : String) (i : ℕ) {outDim : String}
    (hout : outDim ∈ outer.getOutDimNames) : (composed L outer).getBasis inDim i outDim =
      outer.value outDim fun d => L.getBasis inDim i d := by
  have hindex : ∀ basis, (composeBasis L outer basis).getD
      ((composed L outer).getOutDimIndex outDim) 0 =
        outer.value outDim fun d => basis.getD (L.getOutDimIndex d) 0 := by
    intro basis
    have hlt := idxOf_lt_length_of_mem hout
    change (outer.getOutDimNames.map _).getD (outer.getOutDimNames.idxOf outDim) 0 = _
    rw [getD_eq_getElem _ _ (by simpa using hlt), getElem_map, getElem_idxOf]
  by_cases hi : i < L.getInDimSizeLog2 inDim
  · cases hfind : L.bases.find inDim with
    | none =>
      rw [RawLayout.getInDimSizeLog2, hfind] at hi
      exact absurd hi (by simp)
    | some bs =>
      have hlen : i < bs.length := by rwa [RawLayout.getInDimSizeLog2, hfind] at hi
      have hbasis : ∀ d, L.getBasis inDim i d = bs[i].getD (L.getOutDimIndex d) 0 := by
        intro d
        rw [RawLayout.getBasis, hfind, Option.getD_some, getD_eq_getElem _ _ hlen]
      have hfind' : (composed L outer).bases.find inDim =
          some (bs.map (composeBasis L outer)) := by
        rw [composed, MapVector.find_mapValues, hfind, Option.map_some]
      have hrow : (bs.map (composeBasis L outer)).getD i [] = composeBasis L outer bs[i] := by
        rw [getD_eq_getElem _ _ (by simpa using hlen), getElem_map]
      rw [RawLayout.getBasis, hfind', Option.getD_some, hrow, hindex]
      simp only [hbasis]
  · have hzero : ∀ d, L.getBasis inDim i d = 0 := fun d => getBasis_of_le L.toRawLayout (by omega)
    rw [getBasis_of_le _ (by rw [getInDimSizeLog2_composed]; omega)]
    simp only [hzero]
    exact (value_zero outer.toRawLayout).symm

theorem value_composed {outDim : String} (hout : outDim ∈ outer.getOutDimNames)
    (ins : String → ℕ) : (composed L outer).value outDim ins =
      outer.value outDim fun d => L.value d ins := by
  have hnames : (composed L outer).getInDimNames = L.getInDimNames := MapVector.keys_mapValues _ _
  have hterm : ∀ inDim ∈ L.getInDimNames,
      combine ((composed L outer).dimColumn inDim outDim) (ins inDim) =
        outer.value outDim fun d => combine (L.dimColumn inDim d) (ins inDim) := by
    intro inDim _
    rw [RawLayout.dimColumn, getInDimSizeLog2_composed]
    simp only [getBasis_composed L outer _ _ hout]
    exact value_combine outer.toRawLayout (fun i d => L.getBasis inDim i d) _ _
  rw [RawLayout.value, hnames, xorSum_map_congr hterm]
  exact value_xorSum outer.toRawLayout (fun inDim d => combine (L.dimColumn inDim d) (ins inDim)) _

end Composed

section TransposeIns

variable (f2 : F2Reduce) (L : LinearLayout) {newInDims : List String}

theorem entries_transposedIns (hnodup : newInDims.Nodup) :
    (L.transposedIns newInDims).bases.entries =
      newInDims.map fun inDim => (inDim, (L.bases.find inDim).getD []) := by
  rw [transposedIns, MapVector.entries_build]
  · exact map_id _
  · rw [map_map]
    exact (map_id newInDims).symm ▸ hnodup

theorem getInDimNames_transposedIns (hnodup : newInDims.Nodup) :
    (L.transposedIns newInDims).getInDimNames = newInDims := by
  rw [RawLayout.getInDimNames, MapVector.keys, entries_transposedIns L hnodup, map_map]
  exact map_id _

variable (hperm : newInDims.Perm L.getInDimNames)

include hperm

theorem find_transposedIns (inDim : String) :
    ((L.transposedIns newInDims).bases.find inDim).getD [] = (L.bases.find inDim).getD [] := by
  have hnodup : newInDims.Nodup := hperm.nodup_iff.mpr L.bases.nodup
  by_cases hmem : inDim ∈ newInDims
  · have hentry : (inDim, (L.bases.find inDim).getD []) ∈
        (L.transposedIns newInDims).bases.entries := by
      rw [entries_transposedIns L hnodup]
      exact mem_map.mpr ⟨inDim, hmem, rfl⟩
    rw [MapVector.find_of_mem hentry, Option.getD_some]
  · have hnot : inDim ∉ (L.transposedIns newInDims).bases.keys := by
      change inDim ∉ (L.transposedIns newInDims).getInDimNames
      rwa [getInDimNames_transposedIns L hnodup]
    have hnot' : inDim ∉ L.bases.keys := fun h => hmem (hperm.mem_iff.mpr h)
    rw [MapVector.find_eq_none hnot, MapVector.find_eq_none hnot']

theorem getBasis_transposedIns (inDim : String) (i : ℕ) (outDim : String) :
    (L.transposedIns newInDims).getBasis inDim i outDim = L.getBasis inDim i outDim := by
  rw [RawLayout.getBasis, find_transposedIns L hperm]
  rfl

theorem getInDimSizeLog2_transposedIns (inDim : String) :
    (L.transposedIns newInDims).getInDimSizeLog2 inDim = L.getInDimSizeLog2 inDim := by
  rw [RawLayout.getInDimSizeLog2, find_transposedIns L hperm]
  rfl

theorem value_transposedIns (outDim : String) (ins : String → ℕ) :
    (L.transposedIns newInDims).value outDim ins = L.value outDim ins := by
  have hcolumn : ∀ inDim, (L.transposedIns newInDims).dimColumn inDim outDim =
      L.dimColumn inDim outDim := by
    intro inDim
    rw [RawLayout.dimColumn, getInDimSizeLog2_transposedIns L hperm]
    exact map_congr_left fun i _ => getBasis_transposedIns L hperm inDim i outDim
  rw [RawLayout.value, getInDimNames_transposedIns L (hperm.nodup_iff.mpr L.bases.nodup),
    RawLayout.value, xorSum_perm (hperm.map _)]
  apply xorSum_map_congr
  intro inDim _
  rw [hcolumn]

theorem transposeIns_ok : ∃ L' : LinearLayout, L.transposeIns f2 newInDims = .ok L' ∧
    L'.toRawLayout = L.transposedIns newInDims := by
  have hnodup : newInDims.Nodup := hperm.nodup_iff.mpr L.bases.nodup
  have hnames := getInDimNames_transposedIns L hnodup
  have hlen : ∀ basis ∈ (L.transposedIns newInDims).flatBases,
      basis.length = (L.transposedIns newInDims).outDims.values.length := by
    intro basis hbasis
    obtain ⟨bs, hbs, hmem⟩ := mem_flatten.mp hbasis
    obtain ⟨e, he, rfl⟩ := mem_map.mp hbs
    rw [entries_transposedIns L hnodup] at he
    obtain ⟨inDim, hin, rfl⟩ := mem_map.mp he
    obtain ⟨bs, hentry, hfind⟩ := MapVector.exists_find (hperm.mem_iff.mp hin)
    rw [hfind, Option.getD_some] at hmem
    exact (L.basis_lt basis (mem_flatten.mpr
      ⟨bs, mem_map.mpr ⟨_, hentry, rfl⟩, hmem⟩)).length_eq
  have htotal : (L.transposedIns newInDims).getTotalInDimSizeLog2 = L.getTotalInDimSizeLog2 := by
    rw [RawLayout.getTotalInDimSizeLog2, hnames, RawLayout.getTotalInDimSizeLog2,
      ← (hperm.map L.getInDimSizeLog2).sum_eq]
    congr 1
    apply map_congr_left
    intro inDim _
    exact getInDimSizeLog2_transposedIns L hperm inDim
  have hlt : ∀ inDim i, ∀ outDim ∈ (L.transposedIns newInDims).getOutDimNames,
      (L.transposedIns newInDims).getBasis inDim i outDim <
        2 ^ (L.transposedIns newInDims).getOutDimSizeLog2 outDim := by
    intro inDim i outDim _
    rw [getBasis_transposedIns L hperm]
    exact getBasis_lt L
  have hreach : L.surjective = true → (L.transposedIns newInDims).Reaches := by
    intro hsurj target htarget
    obtain ⟨ins, hins, hval⟩ := L.surjective_iff_reaches.mp hsurj target htarget
    refine ⟨ins, fun inDim hin => ?_, fun outDim hout => ?_⟩
    · rw [getInDimSizeLog2_transposedIns L hperm]
      rw [hnames] at hin
      exact hins inDim (hperm.mem_iff.mp hin)
    · rw [value_transposedIns L hperm]
      exact hval outDim hout
  obtain ⟨L', hcreate, hraw, -⟩ := create_of_getBasis f2 (L.transposedIns newInDims) L.surjective
    hlen L.size_pow hlt (htotal ▸ L.numCols_le) L.numRows_le hreach
  refine ⟨L', ?_, hraw⟩
  have hdims : assertDimsEqualIgnoringOrder newInDims L.getInDimNames = .ok () := by
    rw [assertDimsEqualIgnoringOrder, if_pos]
    simp [hperm.mem_iff]
  rw [transposeIns, hdims]
  exact hcreate

end TransposeIns

section Compose

theorem forM_ok {α : Type} {f : α → Except LayoutError PUnit} {l : List α}
    (h : ∀ a ∈ l, f a = .ok ()) : l.forM f = .ok () := by
  induction l with
  | nil => rfl
  | cons a l ih =>
    change (f a >>= fun _ => l.forM f) = _
    rw [h a mem_cons_self]
    exact ih fun b hb => h b (mem_cons_of_mem _ hb)

variable (f2 : F2Reduce) (L outer : LinearLayout)
  (hperm : L.getOutDimNames.Perm outer.getInDimNames)
  (hwidth : ∀ outDim ∈ L.getOutDimNames, outer.getInDimSizeLog2 outDim < 31)

include hwidth

theorem sameSizes_ok {names : List String} (hnames : ∀ d ∈ names, d ∈ L.getOutDimNames) :
    ∃ same, L.sameSizes outer names = .ok same ∧
      (same = true → ∀ d ∈ names, L.getOutDimSizeLog2 d = outer.getInDimSizeLog2 d) := by
  induction names with
  | nil => exact ⟨true, rfl, fun _ d hd => by simp at hd⟩
  | cons d names ih =>
    obtain ⟨same, hsame, hall⟩ := ih fun d' hd' => hnames d' (mem_cons_of_mem _ hd')
    rw [sameSizes, RawLayout.getInDimSize, shiftOne_ok (hwidth d (hnames d mem_cons_self))]
    by_cases heq : L.getOutDimSize d = 2 ^ outer.getInDimSizeLog2 d
    · refine ⟨same, ?_, fun h => ?_⟩
      · exact (if_pos heq).trans hsame
      · exact forall_mem_cons.mpr ⟨Nat.pow_right_injective (le_refl 2) heq, hall h⟩
    · exact ⟨false, if_neg heq, fun h => by simp at h⟩

include hperm

theorem composeBases_ok : L.composeBases outer = .ok (composed L outer).bases.entries := by
  have hbasis : ∀ basis ∈ L.flatBases,
      outer.apply (L.getOutDimNames.zip basis) = .ok (outer.getOutDimNames.map fun outDim =>
        (outDim, outer.value outDim fun d => basis.getD (L.getOutDimIndex d) 0)) := by
    intro basis hmem
    have hzip : L.getOutDimNames.zip basis =
        L.getOutDimNames.map fun d => (d, basis.getD (L.getOutDimIndex d) 0) := by
      have hlen := length_of_mem_flatBases L hmem
      apply ext_getElem (by simp [hlen])
      intro t ht ht'
      have hname : t < L.getOutDimNames.length := by simpa using ht'
      rw [getElem_zip, getElem_map, getOutDimIndex_getElem L.toRawLayout hname,
        getD_eq_getElem _ _ (by omega)]
    rw [hzip]
    refine apply_perm outer.toRawLayout _ (fun inDim hin => ?_) hperm
    exact (hwidth inDim (hperm.mem_iff.mpr hin)).le
  rw [composeBases]
  apply mapM_ok
  intro e he
  have hrow : (e.2.mapM fun basis => do
      let newBases ← outer.apply (L.getOutDimNames.zip basis)
      pure (newBases.map Prod.snd)) = .ok (e.2.map (composeBasis L outer)) := by
    apply mapM_ok
    intro basis hmem
    rw [hbasis basis (mem_flatten.mpr ⟨e.2, mem_map_of_mem he, hmem⟩)]
    exact congrArg Except.ok ((map_map ..).trans (map_congr_left fun _ _ => rfl))
  rw [hrow]
  rfl

variable (hsize : ∀ outDim ∈ L.getOutDimNames,
  L.getOutDimSizeLog2 outDim ≤ outer.getInDimSizeLog2 outDim)

omit hwidth in
theorem reaches_composed (hL : L.surjective = true) (houter : outer.surjective = true)
    (hsame : ∀ d ∈ L.getOutDimNames, L.getOutDimSizeLog2 d = outer.getInDimSizeLog2 d) :
    (composed L outer).Reaches := by
  intro target htarget
  obtain ⟨mid, hmid, hvouter⟩ := outer.surjective_iff_reaches.mp houter target htarget
  obtain ⟨ins, hins, hvL⟩ := L.surjective_iff_reaches.mp hL mid fun d hd => by
    rw [hsame d hd]
    exact hmid d (hperm.mem_iff.mp hd)
  refine ⟨ins, fun inDim hin => ?_, fun outDim hout => ?_⟩
  · rw [getInDimSizeLog2_composed]
    have hnames : (composed L outer).getInDimNames = L.getInDimNames :=
      MapVector.keys_mapValues _ _
    exact hins inDim (hnames ▸ hin)
  · rw [value_composed L outer hout, ← hvouter outDim hout]
    apply value_mod
    intro d hd
    rw [hvL d (hperm.mem_iff.mpr hd)]

include hsize

theorem compose_ok : ∃ C : LinearLayout, compose f2 L outer = .ok C ∧
    C.toRawLayout = composed L outer := by
  have hbases := composeBases_ok L outer hperm hwidth
  have hbuild : (MapVector.build (fun old bs => old.getD [] ++ bs) (composed L outer).bases.entries :
      BasesT) = (composed L outer).bases := by
    apply MapVector.ext
    rw [MapVector.entries_build _ (composed L outer).bases.nodup]
    exact map_id _
  have hlen : ∀ basis ∈ (composed L outer).flatBases,
      basis.length = (composed L outer).outDims.values.length := by
    intro basis hbasis
    rw [RawLayout.flatBases, composed, MapVector.values_mapValues, ← map_flatten] at hbasis
    obtain ⟨b, -, rfl⟩ := mem_map.mp hbasis
    simp [composeBasis, composed, RawLayout.getOutDimNames]
  have hlt : ∀ inDim i, ∀ outDim ∈ (composed L outer).getOutDimNames,
      (composed L outer).getBasis inDim i outDim <
        2 ^ (composed L outer).getOutDimSizeLog2 outDim := by
    intro inDim i outDim hout
    rw [getBasis_composed L outer inDim i hout]
    exact value_lt outer _
  have htotal : (composed L outer).getTotalInDimSizeLog2 = L.getTotalInDimSizeLog2 := by
    have hnames : (composed L outer).getInDimNames = L.getInDimNames :=
      MapVector.keys_mapValues _ _
    rw [RawLayout.getTotalInDimSizeLog2, hnames, RawLayout.getTotalInDimSizeLog2]
    congr 1
    exact map_congr_left fun inDim _ => getInDimSizeLog2_composed L outer inDim
  obtain ⟨same, hsame, hall⟩ := sameSizes_ok L outer hwidth (fun d hd => hd)
  have hreach : (if L.surjective && outer.surjective then same else false) = true →
      (composed L outer).Reaches := by
    intro h
    by_cases hsurj : (L.surjective && outer.surjective) = true
    · rw [if_pos hsurj] at h
      rw [Bool.and_eq_true] at hsurj
      exact reaches_composed L outer hperm hsurj.1 hsurj.2 (hall h)
    · rw [if_neg hsurj] at h
      simp at h
  obtain ⟨C, hcreate, hraw, -⟩ := create_of_getBasis f2 (composed L outer) _ hlen outer.size_pow
    hlt (htotal ▸ L.numCols_le) outer.numRows_le hreach
  refine ⟨C, ?_, hraw⟩
  have hdims : assertDimsEqualIgnoringOrder L.getOutDimNames outer.getInDimNames = .ok () := by
    rw [assertDimsEqualIgnoringOrder, if_pos]
    simp [hperm.mem_iff]
  have hchecks : (L.getOutDimNames.forM fun outDim => do
      let inDimSize ← outer.getInDimSize outDim
      assertThat "getOutDimSize(outDim) <= outer.getInDimSize(outDim)"
        (L.getOutDimSize outDim ≤ inDimSize)) = .ok () := by
    apply forM_ok
    intro d hd
    rw [RawLayout.getInDimSize, shiftOne_ok (hwidth d hd)]
    exact assertThat_ok (decide_eq_true (Nat.pow_le_pow_right (by omega) (hsize d hd)))
  have hsurj : L.compositionIsSurjective outer =
      .ok (if L.surjective && outer.surjective then same else false) := by
    rw [compositionIsSurjective]
    split_ifs
    · exact hsame
    · rfl
  rw [compose, hdims, hchecks, hbases, hsurj]
  change create f2 ⟨MapVector.build (fun old bs => old.getD [] ++ bs)
    (composed L outer).bases.entries, outer.outDims⟩ _ = _
  rw [hbuild]
  exact hcreate

end Compose

section Flat

/-- The number of a choice of coordinates, the first coordinate being the minor
one. -/
def flatIndex : List ℕ → List ℕ → ℕ
  | size :: sizes, v :: vs => v + size * flatIndex sizes vs
  | _, _ => 0

theorem flatIndex_eq {sizes : List ℕ} (hpow : ∀ size ∈ sizes, isPowerOf2_32 size = true)
    (vs : List ℕ) : flatIndex sizes vs = pack (sizes.map Nat.log2) vs := by
  induction sizes generalizing vs with
  | nil => rfl
  | cons size sizes ih =>
    obtain ⟨k, -, rfl⟩ := isPowerOf2_32_iff.mp (hpow _ mem_cons_self)
    cases vs with
    | nil => rfl
    | cons v vs =>
      rw [flatIndex, ih fun s hs => hpow s (mem_cons_of_mem _ hs), map_cons, pack,
        Nat.log2_two_pow]

variable (L : RawLayout)

theorem pack_values (hfits : ∀ b ∈ L.flatBases, Fits b L.outWidths) {ins : String → ℕ}
    (h : ∀ inDim ∈ L.getInDimNames, ins inDim < 2 ^ L.getInDimSizeLog2 inDim) :
    pack L.outWidths (L.getOutDimNames.map fun outDim => L.value outDim ins) =
      combine L.flatColumns (pack L.inWidths (L.getInDimNames.map ins)) := by
  have hlt : combine L.flatColumns (pack L.inWidths (L.getInDimNames.map ins)) <
      2 ^ L.outWidths.sum := by
    rw [← getTotalOutDimSizeLog2_eq]
    exact combine_lt (flatColumns_lt L hfits)
  have hfields : (L.getOutDimNames.map fun outDim => L.value outDim ins) =
      unpack L.outWidths (combine L.flatColumns (pack L.inWidths (L.getInDimNames.map ins))) := by
    apply ext_getElem (by simp [length_outWidths])
    intro t ht ht'
    have hname : t < L.getOutDimNames.length := by simpa using ht
    have hfield := combine_field hfits t (pack L.inWidths (L.getInDimNames.map ins))
    rw [getElem_map, value_eq_combine L h, RawLayout.column,
      getOutDimIndex_getElem L hname, hfield]
    exact getD_eq_getElem _ _ ht'
  rw [hfields, pack_unpack hlt]

/-- The coordinates of a choice of inputs, in the order of the dimensions. -/
def flatInput (ins : String → ℕ) : ℕ :=
  flatIndex (L.getInDimNames.map fun inDim => 2 ^ L.getInDimSizeLog2 inDim)
    (L.getInDimNames.map ins)

theorem flatInput_eq (h : ∀ inDim ∈ L.getInDimNames, L.getInDimSizeLog2 inDim < 31)
    (ins : String → ℕ) : flatInput L ins = pack L.inWidths (L.getInDimNames.map ins) := by
  have hpow : ∀ size ∈ L.getInDimNames.map fun inDim => 2 ^ L.getInDimSizeLog2 inDim,
      isPowerOf2_32 size = true := by
    intro size hsize
    obtain ⟨inDim, hin, rfl⟩ := mem_map.mp hsize
    exact isPowerOf2_32_iff.mpr ⟨_, h inDim hin, rfl⟩
  rw [flatInput, flatIndex_eq hpow, map_map, ← map_getInDimSizeLog2]
  congr 1
  apply map_congr_left
  intro inDim _
  exact Nat.log2_two_pow

end Flat

section Reshape

variable (f2 : F2Reduce) (L : LinearLayout) (newInDims newOutDims : List (String × ℕ))

/-- Powers of two with distinct names and the totals of the layout. -/
structure LegalReshape : Prop where
  inNames : (newInDims.map Prod.fst).Nodup
  outNames : (newOutDims.map Prod.fst).Nodup
  inPow : ∀ e ∈ newInDims, isPowerOf2_32 e.2 = true
  outPow : ∀ e ∈ newOutDims, isPowerOf2_32 e.2 = true
  inTotal : (newInDims.map Prod.snd).prod = 2 ^ L.getTotalInDimSizeLog2
  outTotal : (newOutDims.map Prod.snd).prod = 2 ^ L.getTotalOutDimSizeLog2

/-- The reshaped layout is made, and it maps the number of an input to the number
that the layout maps it to. -/
def ReshapePreserves : Prop :=
  ∃ L₁ L₂ : LinearLayout, L.reshapeIns f2 newInDims = .ok L₁ ∧
    L₁.reshapeOuts f2 newOutDims = .ok L₂ ∧
    ∀ ins newIns : String → ℕ,
      (∀ inDim ∈ L.getInDimNames, ins inDim < 2 ^ L.getInDimSizeLog2 inDim) →
      (∀ inDim ∈ newInDims, newIns inDim.1 < inDim.2) →
      flatInput L.toRawLayout ins =
        flatIndex (newInDims.map Prod.snd) (newInDims.map fun inDim => newIns inDim.1) →
      ∃ outs newOuts,
        L.apply (L.getInDimNames.map fun inDim => (inDim, ins inDim)) = .ok outs ∧
        L₂.apply (newInDims.map fun inDim => (inDim.1, newIns inDim.1)) = .ok newOuts ∧
        flatIndex L.outDims.values (outs.map Prod.snd) =
          flatIndex (newOutDims.map Prod.snd) (newOuts.map Prod.snd)

theorem reshapePreserves_of_legal (h : LegalReshape L newInDims newOutDims)
    (hin : L.getTotalInDimSizeLog2 < 31) (hout : L.getTotalOutDimSizeLog2 < 31) :
    ReshapePreserves f2 L newInDims newOutDims := by
  have htotalIn : (newInDims.map fun e => Nat.log2 e.2).sum = L.getTotalInDimSizeLog2 := by
    have hprod := h.inTotal
    rw [prod_of_dims h.inPow] at hprod
    exact Nat.pow_right_injective (le_refl 2) hprod
  have htotalOut : (newOutDims.map fun e => Nat.log2 e.2).sum = L.getTotalOutDimSizeLog2 := by
    have hprod := h.outTotal
    rw [prod_of_dims h.outPow] at hprod
    exact Nat.pow_right_injective (le_refl 2) hprod
  obtain ⟨L₁, hL₁, hbases₁, houts₁, hnames₁, hwidths₁⟩ :=
    reshapeIns_ok f2 L h.inNames h.inPow htotalIn hin
  have htotal₁ : L₁.getTotalOutDimSizeLog2 = L.getTotalOutDimSizeLog2 := by
    rw [getTotalOutDimSizeLog2_eq, RawLayout.outWidths, houts₁, getTotalOutDimSizeLog2_eq]
    rfl
  have hcolumns₁ : L₁.flatColumns = L.flatColumns := by
    rw [RawLayout.flatColumns, hbases₁, RawLayout.outWidths, houts₁]
    rfl
  obtain ⟨L₂, hL₂, hbases₂, houts₂, hnames₂, hwidths₂⟩ :=
    reshapeOuts_ok f2 L₁ h.outNames h.outPow (htotalOut.trans htotal₁.symm) (htotal₁ ▸ hout)
  -- the packed bases are still those of `L`
  have houtWidths₂ : L₂.outWidths = newOutDims.map fun e => Nat.log2 e.2 := by
    rw [RawLayout.outWidths, MapVector.values, houts₂, logs_of_dims]
  have hcolumns₂ : L₂.flatColumns = L.flatColumns := by
    rw [RawLayout.flatColumns, hbases₂, houtWidths₂, map_map, ← hcolumns₁]
    refine (map_congr_left fun c hc => ?_).trans (map_id _)
    rw [hcolumns₁] at hc
    have hc' := flatColumns_lt L.toRawLayout L.fits c hc
    rw [Function.comp_apply, pack_unpack (by rwa [htotalOut]), id]
  have hnames : L₂.getInDimNames = newInDims.map Prod.fst := hnames₂.trans hnames₁
  have hinWidths : L₂.inWidths = newInDims.map fun e => Nat.log2 e.2 := hwidths₂.trans hwidths₁
  have hsizes : ∀ e ∈ newInDims, L₂.getInDimSizeLog2 e.1 = Nat.log2 e.2 := by
    have hmap := map_getInDimSizeLog2 L₂.toRawLayout
    rw [hnames, hinWidths, map_map] at hmap
    exact map_inj_left.mp hmap
  have hsmall : ∀ e ∈ newInDims, Nat.log2 e.2 < 31 := by
    intro e he
    obtain ⟨k, hk, hsize⟩ := isPowerOf2_32_iff.mp (h.inPow e he)
    rwa [hsize, Nat.log2_two_pow]
  refine ⟨L₁, L₂, hL₁, hL₂, fun ins newIns hins hnew hflat => ?_⟩
  have hnew' : ∀ inDim ∈ L₂.getInDimNames, newIns inDim < 2 ^ L₂.getInDimSizeLog2 inDim := by
    rw [hnames]
    intro inDim hin
    obtain ⟨e, he, rfl⟩ := mem_map.mp hin
    obtain ⟨k, hk, hsize⟩ := isPowerOf2_32_iff.mp (h.inPow e he)
    rw [hsizes e he, hsize, Nat.log2_two_pow, ← hsize]
    exact hnew e he
  have hwidth : ∀ inDim ∈ L.getInDimNames, L.getInDimSizeLog2 inDim < 31 := fun inDim _ =>
    (getInDimSizeLog2_le_total L.toRawLayout inDim).trans_lt hin
  have hwidth₂ : ∀ inDim ∈ L₂.getInDimNames, L₂.getInDimSizeLog2 inDim ≤ 31 := by
    rw [hnames]
    intro inDim hin
    obtain ⟨e, he, rfl⟩ := mem_map.mp hin
    rw [hsizes e he]
    exact (hsmall e he).le
  have happly₂ := apply_eq_value L₂.toRawLayout hnew' hwidth₂
  rw [hnames, map_map] at happly₂
  refine ⟨_, _, apply_eq_value L.toRawLayout hins (fun d hd => (hwidth d hd).le), happly₂, ?_⟩
  have hindex : pack L.inWidths (L.getInDimNames.map ins) =
      pack L₂.inWidths (L₂.getInDimNames.map newIns) := by
    rw [← flatInput_eq L.toRawLayout hwidth, hflat, flatIndex_eq (pow_of_dims h.inPow),
      logs_of_dims, hinWidths, hnames, map_map]
    rfl
  rw [flatIndex_eq L.size_pow, flatIndex_eq (pow_of_dims h.outPow), logs_of_dims, ← houtWidths₂,
    map_map, map_map]
  refine (pack_values L.toRawLayout L.fits hins).trans ?_
  rw [hindex, ← hcolumns₂]
  exact (pack_values L₂.toRawLayout L₂.fits hnew').symm

end Reshape

section Function

variable (f2 : F2Reduce) (L : LinearLayout)

/-- The layout with its input dimensions reordered is made, and it has the same
output. -/
def TransposeInsPreserves (newInDims : List String) : Prop :=
  ∃ L' : LinearLayout, L.transposeIns f2 newInDims = .ok L' ∧
    ((∀ inDim ∈ L.getInDimNames, L.getInDimSizeLog2 inDim ≤ 31) → ∀ ins : String → ℕ,
      (∀ inDim ∈ L.getInDimNames, ins inDim < 2 ^ L.getInDimSizeLog2 inDim) →
      ∃ outs, L.apply (L.getInDimNames.map fun inDim => (inDim, ins inDim)) = .ok outs ∧
        L'.apply (newInDims.map fun inDim => (inDim, ins inDim)) = .ok outs)

/-- The layout with its output dimensions reordered is made, and it has the same
output at every dimension. -/
def TransposeOutsPreserves (newOutDims : List String) : Prop :=
  ∃ L' : LinearLayout, L.transposeOuts f2 newOutDims = .ok L' ∧
    ((∀ inDim ∈ L.getInDimNames, L.getInDimSizeLog2 inDim ≤ 31) → ∀ ins : String → ℕ,
      (∀ inDim ∈ L.getInDimNames, ins inDim < 2 ^ L.getInDimSizeLog2 inDim) →
      ∃ outs outs', L.apply (L.getInDimNames.map fun inDim => (inDim, ins inDim)) = .ok outs ∧
        L'.apply (L.getInDimNames.map fun inDim => (inDim, ins inDim)) = .ok outs' ∧
        outs'.map Prod.fst = newOutDims ∧ ∀ outDim, outs'.lookup outDim = outs.lookup outDim)

/-- The composed layout is made, and it applies `outer` to the output. -/
def ComposePreserves (outer : LinearLayout) : Prop :=
  ∃ C : LinearLayout, compose f2 L outer = .ok C ∧
    ((∀ inDim ∈ L.getInDimNames, L.getInDimSizeLog2 inDim ≤ 31) → ∀ ins : String → ℕ,
      (∀ inDim ∈ L.getInDimNames, ins inDim < 2 ^ L.getInDimSizeLog2 inDim) →
      ∃ outs result, L.apply (L.getInDimNames.map fun inDim => (inDim, ins inDim)) = .ok outs ∧
        outer.apply outs = .ok result ∧
        C.apply (L.getInDimNames.map fun inDim => (inDim, ins inDim)) = .ok result)

theorem transposeIns_preserves {newInDims : List String} (hperm : newInDims.Perm L.getInDimNames) :
    TransposeInsPreserves f2 L newInDims := by
  have hnodup : newInDims.Nodup := hperm.nodup_iff.mpr L.bases.nodup
  have hnames := getInDimNames_transposedIns L hnodup
  obtain ⟨L', hL', hraw⟩ := transposeIns_ok f2 L hperm
  refine ⟨L', hL', fun hwidth ins hins => ⟨_, apply_eq_value L.toRawLayout hins hwidth, ?_⟩⟩
  have hwidth' : ∀ inDim ∈ (L.transposedIns newInDims).getInDimNames,
      (L.transposedIns newInDims).getInDimSizeLog2 inDim ≤ 31 := by
    intro inDim hin
    rw [getInDimSizeLog2_transposedIns L hperm]
    exact hwidth inDim (hperm.mem_iff.mp (hnames ▸ hin))
  rw [hraw, apply_perm _ _ hwidth' (List.Perm.of_eq hnames.symm)]
  congr 1
  apply map_congr_left
  intro outDim _
  rw [value_transposedIns L hperm]

theorem transposeOuts_preserves {newOutDims : List String}
    (hperm : newOutDims.Perm L.getOutDimNames) : TransposeOutsPreserves f2 L newOutDims := by
  have hnodup : newOutDims.Nodup := hperm.nodup_iff.mpr L.outDims.nodup
  have hnames := getOutDimNames_transposedOuts L hnodup
  have hins : (L.transposedOuts newOutDims).getInDimNames = L.getInDimNames :=
    MapVector.keys_mapValues _ _
  have hwidths : ∀ inDim, (L.transposedOuts newOutDims).getInDimSizeLog2 inDim =
      L.getInDimSizeLog2 inDim := by
    intro inDim
    rw [RawLayout.getInDimSizeLog2, transposedOuts, MapVector.find_mapValues,
      RawLayout.getInDimSizeLog2]
    cases L.bases.find inDim <;> simp
  obtain ⟨L', hL', hraw⟩ := transposeOuts_ok f2 L hperm
  refine ⟨L', hL', fun hwidth ins hfit => ?_⟩
  have hfit' : ∀ inDim ∈ (L.transposedOuts newOutDims).getInDimNames,
      ins inDim < 2 ^ (L.transposedOuts newOutDims).getInDimSizeLog2 inDim := by
    simpa only [hins, hwidths] using hfit
  have happly := apply_eq_value (L.transposedOuts newOutDims) hfit'
    (by simpa only [hins, hwidths] using hwidth)
  rw [hins, hnames] at happly
  refine ⟨_, _, apply_eq_value L.toRawLayout hfit hwidth, by rw [hraw]; exact happly, ?_,
    fun outDim => ?_⟩
  · rw [map_map]
    exact map_id _
  · by_cases hmem : outDim ∈ newOutDims
    · have hwidths' : (L.transposedOuts newOutDims).inWidths = L.inWidths := by
        rw [← map_getInDimSizeLog2, hins, ← map_getInDimSizeLog2]
        exact map_congr_left fun inDim _ => hwidths inDim
      rw [lookup_map _ hmem, lookup_map _ (hperm.mem_iff.mp hmem), value_eq_combine L.toRawLayout
        hfit, value_eq_combine _ hfit', hwidths', hins, column_transposedOuts L hnodup hmem]
    · rw [lookup_map_of_notMem _ hmem, lookup_map_of_notMem _ (hperm.mem_iff.not.mp hmem)]

theorem compose_preserves {outer : LinearLayout}
    (hperm : L.getOutDimNames.Perm outer.getInDimNames)
    (hsize : ∀ outDim ∈ L.getOutDimNames, L.getOutDimSizeLog2 outDim ≤ outer.getInDimSizeLog2 outDim)
    (hwidth : ∀ outDim ∈ L.getOutDimNames, outer.getInDimSizeLog2 outDim < 31) :
    ComposePreserves f2 L outer := by
  obtain ⟨C, hC, hraw⟩ := compose_ok f2 L outer hperm hwidth hsize
  have hins : (composed L outer).getInDimNames = L.getInDimNames := MapVector.keys_mapValues _ _
  refine ⟨C, hC, fun hin ins hfit => ⟨_, _, apply_eq_value L.toRawLayout hfit hin,
    apply_perm outer.toRawLayout (fun d => L.value d ins) (fun d hd => ?_) hperm, ?_⟩⟩
  · exact (hwidth d (hperm.mem_iff.mpr hd)).le
  · have happly := apply_perm (composed L outer) ins
      (by simpa only [hins, getInDimSizeLog2_composed] using hin) (List.Perm.refl _)
    rw [hins] at happly
    rw [hraw, happly]
    congr 1
    apply map_congr_left
    intro outDim hout
    rw [value_composed L outer hout]

theorem reshapeOuts_total {newOutDims : List (String × ℕ)} {L' : LinearLayout}
    (h : L.reshapeOuts f2 newOutDims = .ok L') : L.getTotalOutDimSizeLog2 < 31 := by
  obtain ⟨_, -, h⟩ := bind_eq_ok h
  obtain ⟨_, htotal, -⟩ := bind_eq_ok h
  exact (shiftOne_eq_ok htotal).1

/-- Reshaping and reordering a layout, and composing it with another one, make a
layout of the function one expects, as long as the sizes are of type `int32_t`. -/
theorem layout_operations_preserve (f2 : F2Reduce) (L : LinearLayout) :
    (∀ newInDims newOutDims, LegalReshape L newInDims newOutDims →
      L.getTotalInDimSizeLog2 < 31 → L.getTotalOutDimSizeLog2 < 31 →
      ReshapePreserves f2 L newInDims newOutDims) ∧
    (∀ newInDims : List String, newInDims.Perm L.getInDimNames →
      TransposeInsPreserves f2 L newInDims) ∧
    (∀ newOutDims : List String, newOutDims.Perm L.getOutDimNames →
      TransposeOutsPreserves f2 L newOutDims) ∧
    (∀ outer : LinearLayout, L.getOutDimNames.Perm outer.getInDimNames →
      (∀ outDim ∈ L.getOutDimNames,
        L.getOutDimSizeLog2 outDim ≤ outer.getInDimSizeLog2 outDim) →
      (∀ outDim ∈ L.getOutDimNames, outer.getInDimSizeLog2 outDim < 31) →
      ComposePreserves f2 L outer) :=
  ⟨fun newInDims newOutDims => reshapePreserves_of_legal f2 L newInDims newOutDims,
    fun _ => transposeIns_preserves f2 L, fun _ => transposeOuts_preserves f2 L,
    fun _ => compose_preserves f2 L⟩

theorem layout_operations_preserve_square :
    ReshapePreserves f2reduce squareLanes [("row", 2), ("column", 2)] [("flat", 4)] ∧
      TransposeOutsPreserves f2reduce squareLanes ["dim1", "dim0"] := by
  have h := layout_operations_preserve f2reduce squareLanes
  refine ⟨h.1 _ _ ?_ (by decide) (by decide), h.2.2.1 _ (List.Perm.swap _ _ _)⟩
  constructor <;> decide +kernel

def wideLayout : LinearLayout :=
  oneInputLayout "lane" [[1, 0]] ⟨[("dim0", 65536), ("dim1", 65536)], by decide⟩
    (by decide) (by decide) (by decide +kernel) (by decide +kernel)

/-- The total size of the output does not fit in an `int32_t`, and computing it
is not defined. -/
theorem wideLayout_not_reshaped :
    LegalReshape wideLayout [("lane", 2)] [("dim0", 65536), ("dim1", 65536)] ∧
      ¬ ReshapePreserves f2reduce wideLayout [("lane", 2)] [("dim0", 65536), ("dim1", 65536)] := by
  constructor
  · constructor <;> decide +kernel
  · rintro ⟨L₁, L₂, hL₁, hL₂, -⟩
    have htotal := reshapeOuts_total f2reduce L₁ hL₂
    obtain ⟨_, -, hL₁⟩ := bind_eq_ok hL₁
    obtain ⟨_, -, hL₁⟩ := bind_eq_ok hL₁
    obtain ⟨_, -, hL₁⟩ := bind_eq_ok hL₁
    rw [create_eq_ok hL₁] at htotal
    exact absurd htotal (by decide +kernel)

end Function

end TritonCpu
