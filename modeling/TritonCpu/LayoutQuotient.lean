import TritonCpu.LayoutValue

/-!
# Quotients of layouts

A dimension that a layout carries from its inputs to its outputs unchanged, and
that nothing else depends on, is left out.
-/

set_option autoImplicit false

namespace TritonCpu

open XorSpan BitFields List

def assertDimsSubsetIgnoringOrder (small big : List String) : Except LayoutError Unit :=
  if small.all (big.contains ·) then .ok ()
  else .error (.fatal "Dimensions must be a subset, ignoring order, but they aren't.")

namespace LinearLayout

variable (f2 : F2Reduce) (L : LinearLayout)

def sublayoutRaw (inDimNames outDimNames : List String) : RawLayout where
  bases :=
    let outDimIndicesToKeep := (List.range L.getOutDimNames.length).filter fun i =>
      outDimNames.contains (L.getOutDimNames.getD i "")
    (L.bases.filterKeys inDimNames.contains).mapValues fun inDimBases =>
      inDimBases.map (permuteBasis outDimIndicesToKeep)
  outDims := L.outDims.filterKeys outDimNames.contains

def sublayout (inDimNames outDimNames : List String) : Except LayoutError LinearLayout := do
  assertDimsSubsetIgnoringOrder inDimNames L.getInDimNames
  assertDimsSubsetIgnoringOrder outDimNames L.getOutDimNames
  create f2 (L.sublayoutRaw inDimNames outDimNames) false

def sublayoutIsZero (inDimNames outDimNames : List String) : Except LayoutError Bool := do
  let ss ← L.sublayout f2 inDimNames outDimNames
  pure (ss.bases.values.all fun inDimBases => inDimBases.all fun basis => basis.all (· == 0))

def flattenIns : Except LayoutError LinearLayout :=
  match L.getInDimNames with
  | [] => L.reshapeIns f2 []
  | inDim :: _ => do
    let size ← L.getTotalInDimSize
    L.reshapeIns f2 [(inDim, size)]

def flattenOuts : Except LayoutError LinearLayout :=
  match L.getOutDimNames with
  | [] => L.reshapeOuts f2 []
  | outDim :: _ => do
    let size ← L.getTotalOutDimSize
    L.reshapeOuts f2 [(outDim, size)]

/-- The bases are `1`, `2`, `4` and so on, from bit `b` on. -/
def basesAreIdentity : ℕ → List (List ℕ) → Except LayoutError Bool
  | _, [] => .ok true
  | b, basis :: inDimBases => do
    let bit ← shiftOne b
    match basis with
    | [] => .error .undefined
    | v :: _ => if v ≠ bit then .ok false else basesAreIdentity (b + 1) inDimBases

def squareSublayoutIsIdentity (dimNames : List String) : Except LayoutError Bool :=
  if dimNames.length = 0 then .ok true
  else do
    let sl ← L.sublayout f2 dimNames dimNames
    let sameSizes ← dimNames.allM fun dim => do
      let size ← L.getInDimSize dim
      pure (size == L.getOutDimSize dim)
    if sameSizes then do
      let flatIns ← sl.flattenIns f2
      let flat ← flatIns.flattenOuts f2
      match flat.bases.values with
      | [] => .error .undefined
      | inDimBases :: _ => basesAreIdentity 0 inDimBases
    else .ok false

def remainingDimNames (dimNames allDimNames : List String) : List String :=
  allDimNames.filter fun dim => !dimNames.contains dim

def isTrivialOver (dimNames : List String) : Except LayoutError Bool :=
  if dimNames.all fun dim => L.getInDimNames.contains dim || L.getOutDimNames.contains dim then do
    let identity ← L.squareSublayoutIsIdentity f2 dimNames
    if identity then do
      let rowsZero ← L.sublayoutIsZero f2 (remainingDimNames dimNames L.getInDimNames) dimNames
      if rowsZero then
        L.sublayoutIsZero f2 dimNames (remainingDimNames dimNames L.getOutDimNames)
      else .ok false
    else .ok false
  else .ok false

def quotient (dimNames : List String) : Except LayoutError (Option LinearLayout) := do
  let trivialOver ← L.isTrivialOver f2 dimNames
  if trivialOver then do
    let sub ← L.sublayout f2 (remainingDimNames dimNames L.getInDimNames)
      (remainingDimNames dimNames L.getOutDimNames)
    pure (some sub)
  else pure none

end LinearLayout

open LinearLayout

section Sublayout

variable {f2 : F2Reduce} {L : LinearLayout} {inDimNames outDimNames : List String}

theorem sublayout_eq_ok {S : LinearLayout}
    (h : L.sublayout f2 inDimNames outDimNames = .ok S) :
    (∀ d ∈ inDimNames, d ∈ L.getInDimNames) ∧ (∀ d ∈ outDimNames, d ∈ L.getOutDimNames) ∧
      S.toRawLayout = L.sublayoutRaw inDimNames outDimNames := by
  have hsubset : ∀ {small big : List String} {u : Unit},
      assertDimsSubsetIgnoringOrder small big = .ok u → ∀ d ∈ small, d ∈ big := by
    intro small big u hok d hd
    rw [assertDimsSubsetIgnoringOrder] at hok
    split_ifs at hok with hall
    simpa using all_eq_true.mp hall d hd
  rw [sublayout] at h
  obtain ⟨_, hins, h⟩ := bind_eq_ok h
  obtain ⟨_, houts, h⟩ := bind_eq_ok h
  exact ⟨hsubset hins, hsubset houts, create_eq_ok h⟩

variable (L inDimNames outDimNames) in
theorem getInDimNames_sublayoutRaw : (L.sublayoutRaw inDimNames outDimNames).getInDimNames =
    L.getInDimNames.filter inDimNames.contains := by
  rw [RawLayout.getInDimNames, sublayoutRaw]
  simp only [MapVector.keys_mapValues, MapVector.keys_filterKeys]
  rfl

variable (L inDimNames outDimNames) in
theorem getOutDimNames_sublayoutRaw : (L.sublayoutRaw inDimNames outDimNames).getOutDimNames =
    L.getOutDimNames.filter outDimNames.contains := by
  rw [RawLayout.getOutDimNames, sublayoutRaw, MapVector.keys_filterKeys]
  rfl

variable (L) in
theorem find_sublayoutRaw {inDim : String} (hin : inDim ∈ inDimNames) :
    (L.sublayoutRaw inDimNames outDimNames).bases.find inDim =
      (L.bases.find inDim).map fun inDimBases => inDimBases.map (permuteBasis
        ((List.range L.getOutDimNames.length).filter fun i =>
          outDimNames.contains (L.getOutDimNames.getD i ""))) := by
  rw [sublayoutRaw, MapVector.find_mapValues, MapVector.find_filterKeys]
  simpa using hin

variable (L) in
theorem getInDimSizeLog2_sublayoutRaw {inDim : String} (hin : inDim ∈ inDimNames) :
    (L.sublayoutRaw inDimNames outDimNames).getInDimSizeLog2 inDim =
      L.getInDimSizeLog2 inDim := by
  rw [RawLayout.getInDimSizeLog2, find_sublayoutRaw L hin, RawLayout.getInDimSizeLog2]
  cases L.bases.find inDim with
  | none => rfl
  | some bs => simp

variable (L) in
theorem getOutDimSizeLog2_sublayoutRaw {outDim : String} (hout : outDim ∈ outDimNames) :
    (L.sublayoutRaw inDimNames outDimNames).getOutDimSizeLog2 outDim =
      L.getOutDimSizeLog2 outDim := by
  rw [RawLayout.getOutDimSizeLog2, sublayoutRaw, MapVector.find_filterKeys]
  · rfl
  · simpa using hout

theorem map_getD_filter_range (names : List String) (p : String → Bool) :
    (((List.range names.length).filter fun i => p (names.getD i "")).map fun i =>
      names.getD i "") = names.filter p := by
  have hnames : (List.range names.length).map (fun i => names.getD i "") = names := by
    apply ext_getElem (by simp)
    intro i hi hi'
    rw [getElem_map, getElem_range, getD_eq_getElem _ _ hi']
  have hfilter := filter_map (p := p) (f := fun i => names.getD i "")
    (l := List.range names.length)
  rw [hnames] at hfilter
  exact hfilter.symm

theorem getElem?_keep {names : List String} (hnodup : names.Nodup) {p : String → Bool}
    {name : String} (hmem : name ∈ names) (hp : p name = true) :
    ((List.range names.length).filter fun i => p (names.getD i ""))[
      (names.filter p).idxOf name]? = some (names.idxOf name) := by
  have hkept : name ∈ names.filter p := mem_filter.mpr ⟨hmem, hp⟩
  have hget : (names.filter p)[(names.filter p).idxOf name]? = some name := by
    rw [List.getElem?_eq_getElem (idxOf_lt_length_of_mem hkept), getElem_idxOf]
  generalize (names.filter p).idxOf name = t at hget ⊢
  rw [← map_getD_filter_range, List.getElem?_map] at hget
  obtain ⟨k, hk, hname⟩ := Option.map_eq_some_iff.mp hget
  have hlt : k < names.length :=
    mem_range.mp (mem_filter.mp (mem_of_getElem? hk)).1
  rw [hk, ← hname, getD_eq_getElem _ _ hlt, hnodup.idxOf_getElem k hlt]

variable (L) in
theorem getBasis_sublayoutRaw {inDim outDim : String} (hin : inDim ∈ inDimNames)
    (hout : outDim ∈ outDimNames) (hmem : outDim ∈ L.getOutDimNames) (i : ℕ) :
    (L.sublayoutRaw inDimNames outDimNames).getBasis inDim i outDim =
      L.getBasis inDim i outDim := by
  have hnodup : L.getOutDimNames.Nodup := L.outDims.nodup
  have hindex := getElem?_keep (p := outDimNames.contains) hnodup hmem (by simpa using hout)
  rw [RawLayout.getBasis, find_sublayoutRaw L hin, RawLayout.getOutDimIndex,
    getOutDimNames_sublayoutRaw, RawLayout.getBasis]
  cases L.bases.find inDim with
  | none => rfl
  | some bs =>
    simp only [Option.map_some, Option.getD_some]
    by_cases hi : i < bs.length
    · have hrow : bs.getD i [] = bs[i] := getD_eq_getElem _ _ hi
      have hkept : ∀ g : List ℕ → List ℕ, (bs.map g).getD i [] = g bs[i] := by
        intro g
        rw [getD_eq_getElem _ _ (by simpa using hi), getElem_map]
      rw [hrow, hkept, permuteBasis, getD_eq_getElem?_getD, List.getElem?_map, hindex]
      rfl
    · have hrow : bs.getD i [] = [] := getD_eq_default _ _ (by omega)
      have hkept : ∀ g : List ℕ → List ℕ, (bs.map g).getD i [] = [] := by
        intro g
        exact getD_eq_default _ _ (by simpa using hi)
      rw [hrow, hkept]
      rfl

theorem sublayoutIsZero_eq_true (h : L.sublayoutIsZero f2 inDimNames outDimNames = .ok true)
    {inDim outDim : String} (hin : inDim ∈ inDimNames) (hout : outDim ∈ outDimNames) (i : ℕ) :
    L.getBasis inDim i outDim = 0 := by
  rw [sublayoutIsZero] at h
  obtain ⟨ss, hss, h⟩ := bind_eq_ok h
  obtain ⟨-, houts, hraw⟩ := sublayout_eq_ok hss
  have hall := Except.ok.inj h
  rw [← getBasis_sublayoutRaw L hin hout (houts outDim hout), ← hraw]
  rcases getBasis_cases ss.toRawLayout inDim i with ⟨basis, hbasis, hget⟩ | hzero
  · obtain ⟨bs, hbs, hmem⟩ := mem_flatten.mp hbasis
    have hzero : ∀ v ∈ basis, v = 0 := by
      simpa using all_eq_true.mp (all_eq_true.mp hall bs hbs) basis hmem
    rw [hget]
    by_cases hlt : ss.getOutDimIndex outDim < basis.length
    · rw [getD_eq_getElem _ _ hlt]
      exact hzero _ (getElem_mem hlt)
    · exact getD_eq_default _ _ (by omega)
  · exact hzero outDim

end Sublayout

section Identity

variable {f2 : F2Reduce} {L : LinearLayout} {dim : String}

theorem basesAreIdentity_eq_true {b : ℕ} {inDimBases : List (List ℕ)}
    (h : basesAreIdentity b inDimBases = .ok true) {i : ℕ} (hi : i < inDimBases.length) :
    (inDimBases.getD i []).getD 0 0 = 2 ^ (b + i) := by
  induction inDimBases generalizing b i with
  | nil => simp at hi
  | cons basis inDimBases ih =>
    rw [basesAreIdentity] at h
    obtain ⟨bit, hbit, h⟩ := bind_eq_ok h
    obtain ⟨-, rfl⟩ := shiftOne_eq_ok hbit
    cases basis with
    | nil => simp at h
    | cons v basis =>
      change (if v ≠ 2 ^ b then Except.ok false else basesAreIdentity (b + 1) inDimBases) = _ at h
      by_cases hv : v = 2 ^ b
      · rw [if_neg (show ¬ v ≠ 2 ^ b from fun hne => hne hv)] at h
        cases i with
        | zero => exact hv
        | succ i =>
          have hrest := ih h (by simpa using hi)
          rw [Nat.add_right_comm, Nat.add_assoc] at hrest
          simpa using hrest
      · rw [if_pos (show v ≠ 2 ^ b from hv)] at h
        exact absurd (Except.ok.inj h) Bool.false_ne_true

theorem filter_contains_singleton {names : List String} (hnodup : names.Nodup)
    (hmem : dim ∈ names) : names.filter [dim].contains = [dim] := by
  have hsame : names.filter [dim].contains = names.filter (· == dim) := by
    apply filter_congr
    intro name _
    rw [contains_cons, contains_nil, Bool.or_false]
  rw [hsame, filter_beq, count_eq_one_of_mem hnodup hmem]
  rfl

theorem reshapeIns_eq_ok {newInDims : List (String × ℕ)} {L' : LinearLayout}
    (h : L.reshapeIns f2 newInDims = .ok L') : L'.toRawLayout = L.reshapedIns newInDims := by
  rw [reshapeIns] at h
  obtain ⟨_, -, h⟩ := bind_eq_ok h
  obtain ⟨_, -, h⟩ := bind_eq_ok h
  obtain ⟨_, -, h⟩ := bind_eq_ok h
  exact create_eq_ok h

theorem reshapeOuts_eq_ok {newOutDims : List (String × ℕ)} {L' : LinearLayout}
    (h : L.reshapeOuts f2 newOutDims = .ok L') : (∀ e ∈ newOutDims, isPowerOf2_32 e.2 = true) ∧
      L'.toRawLayout = L.reshapedOuts newOutDims := by
  rw [reshapeOuts] at h
  obtain ⟨_, hpow, h⟩ := bind_eq_ok h
  obtain ⟨_, -, h⟩ := bind_eq_ok h
  obtain ⟨_, -, h⟩ := bind_eq_ok h
  rw [assertThat] at hpow
  split_ifs at hpow with hall
  exact ⟨all_eq_true.mp hall, create_eq_ok h⟩

theorem entries_of_single {L : RawLayout} {inDim : String} (hin : L.getInDimNames = [inDim]) :
    L.bases.entries = [(inDim, L.flatBases)] := by
  have hkeys : L.bases.entries.map Prod.fst = [inDim] := hin
  obtain ⟨e, he⟩ := length_eq_one_iff.mp (by rw [← length_map, hkeys]; rfl)
  rw [he, map_singleton, singleton_inj] at hkeys
  have hflat : L.flatBases = e.2 := by
    simp [RawLayout.flatBases, MapVector.values, he]
  rw [he, hflat, ← hkeys]

theorem values_of_single {L : RawLayout} {inDim : String} (hin : L.getInDimNames = [inDim]) :
    L.bases.values = [L.flatBases] := by
  rw [MapVector.values, entries_of_single hin, map_singleton]

theorem outWidths_of_single {L : RawLayout} {outDim : String} (hout : L.getOutDimNames = [outDim]) :
    L.outWidths = [L.getTotalOutDimSizeLog2] := by
  obtain ⟨k, hk⟩ := length_eq_one_iff.mp (by rw [length_outWidths, hout]; rfl)
  rw [getTotalOutDimSizeLog2_eq, hk]
  simp

theorem unpack_pack_single {outDim : String} (hout : L.getOutDimNames = [outDim]) {b : List ℕ}
    (hb : b ∈ L.flatBases) :
    unpack [L.getTotalOutDimSizeLog2] (pack [L.getTotalOutDimSizeLog2] b) = [b.getD 0 0] := by
  have hfit := L.fits b hb
  rw [outWidths_of_single hout] at hfit
  rw [unpack_pack hfit]
  cases hfit with
  | cons _ hnil =>
    cases hnil
    rfl

theorem flatten_bases {flatIns flat : LinearLayout} {inDim outDim : String}
    (hin : L.getInDimNames = [inDim]) (hout : L.getOutDimNames = [outDim])
    (hflatIns : L.flattenIns f2 = .ok flatIns) (hflat : flatIns.flattenOuts f2 = .ok flat) :
    flat.bases.values = [(List.range (L.getInDimSizeLog2 inDim)).map fun i =>
      [L.getBasis inDim i outDim]] := by
  rw [flattenIns, hin] at hflatIns
  obtain ⟨inSize, hinSize, hflatIns⟩ := bind_eq_ok hflatIns
  obtain ⟨-, rfl⟩ := shiftOne_eq_ok hinSize
  have hrawIns := reshapeIns_eq_ok hflatIns
  have houts : flatIns.getOutDimNames = [outDim] := by
    rw [hrawIns]
    exact hout
  rw [flattenOuts, houts] at hflat
  obtain ⟨outSize, houtSize, hflat⟩ := bind_eq_ok hflat
  obtain ⟨-, rfl⟩ := shiftOne_eq_ok houtSize
  obtain ⟨hpow, hrawOuts⟩ := reshapeOuts_eq_ok hflat
  have hbases : flatIns.flatBases = L.flatBases := by
    rw [hrawIns, flatBases_reshapedIns _ (by simp) (by simp)]
  have hflatNames : flat.getInDimNames = [inDim] := by
    rw [hrawOuts, RawLayout.getInDimNames, reshapedOuts, MapVector.keys_mapValues, hrawIns,
      MapVector.keys, entries_reshapedIns _ (by simp), map_fst_splitBases]
    rfl
  have hindex : L.getOutDimIndex outDim = 0 := by
    rw [RawLayout.getOutDimIndex, hout, idxOf_cons_self]
  have hcolumn := map_getBasis L.toRawLayout
    (by rw [entries_of_single hin]; exact mem_singleton_self _) outDim
  rw [hindex] at hcolumn
  have hkept : flatIns.flatBases.map (unpack [flatIns.getTotalOutDimSizeLog2] ∘
      pack [flatIns.getTotalOutDimSizeLog2]) = L.flatBases.map fun b => [b.getD 0 0] := by
    rw [← hbases]
    exact map_congr_left fun b hb => unpack_pack_single houts hb
  have hgiven := congrArg (List.map fun v => [v]) hcolumn
  rw [map_map, map_map] at hgiven
  rw [values_of_single hflatNames, hrawOuts, flatBases_reshapedOuts _ hpow, RawLayout.flatColumns,
    map_map, outWidths_of_single houts]
  simp only [map_cons, map_nil, Nat.log2_two_pow]
  rw [hkept]
  exact congrArg (fun l => [l]) hgiven.symm

theorem squareSublayoutIsIdentity_eq_true
    (h : L.squareSublayoutIsIdentity f2 [dim] = .ok true) :
    dim ∈ L.getInDimNames ∧ dim ∈ L.getOutDimNames ∧
      L.getInDimSizeLog2 dim = L.getOutDimSizeLog2 dim ∧
      ∀ i < L.getInDimSizeLog2 dim, L.getBasis dim i dim = 2 ^ i := by
  rw [squareSublayoutIsIdentity, if_neg (by simp)] at h
  obtain ⟨sl, hsl, h⟩ := bind_eq_ok h
  obtain ⟨sameSizes, hsame, h⟩ := bind_eq_ok h
  obtain ⟨hins, houts, hraw⟩ := sublayout_eq_ok hsl
  have hin := hins dim (mem_singleton_self dim)
  have hout := houts dim (mem_singleton_self dim)
  have hinNames : sl.getInDimNames = [dim] := by
    rw [hraw, getInDimNames_sublayoutRaw]
    exact filter_contains_singleton L.bases.nodup hin
  have houtNames : sl.getOutDimNames = [dim] := by
    rw [hraw, getOutDimNames_sublayoutRaw]
    exact filter_contains_singleton L.outDims.nodup hout
  cases sameSizes with
  | false => exact absurd (Except.ok.inj h) Bool.false_ne_true
  | true =>
    have hsize : L.getInDimSizeLog2 dim = L.getOutDimSizeLog2 dim := by
      rw [List.allM] at hsame
      obtain ⟨equal, hequal, hsame⟩ := bind_eq_ok hsame
      obtain ⟨size, hsize, hequal⟩ := bind_eq_ok hequal
      obtain ⟨-, rfl⟩ := shiftOne_eq_ok hsize
      cases equal with
      | false => exact absurd (Except.ok.inj hsame) Bool.false_ne_true
      | true => exact Nat.pow_right_injective le_rfl (beq_iff_eq.mp (Except.ok.inj hequal))
    obtain ⟨flatIns, hflatIns, h⟩ := bind_eq_ok h
    obtain ⟨flat, hflat, h⟩ := bind_eq_ok h
    rw [flatten_bases hinNames houtNames hflatIns hflat] at h
    refine ⟨hin, hout, hsize, fun i hi => ?_⟩
    have hmem := mem_singleton_self dim
    have hlog : sl.getInDimSizeLog2 dim = L.getInDimSizeLog2 dim := by
      rw [hraw, getInDimSizeLog2_sublayoutRaw L hmem]
    have hvalue := basesAreIdentity_eq_true h (i := i) (by simpa [hlog] using hi)
    have hrow : ((List.range (sl.getInDimSizeLog2 dim)).map fun i =>
        [sl.getBasis dim i dim]).getD i [] = [sl.getBasis dim i dim] := by
      rw [getD_eq_getElem _ _ (by simpa [hlog] using hi), getElem_map,
        getElem_range]
    rw [hrow, Nat.zero_add, hraw] at hvalue
    rw [← getBasis_sublayoutRaw L hmem hmem hout]
    exact hvalue

end Identity

/-- `Q` is `L` without `dim`, which `L` passes on unchanged and on which no other
output depends. -/
structure IsQuotient (L Q : RawLayout) (dim : String) : Prop where
  mem_in : dim ∈ L.getInDimNames
  mem_out : dim ∈ L.getOutDimNames
  inDims : Q.getInDimNames = L.getInDimNames.filter (· ≠ dim)
  outDims : Q.getOutDimNames = L.getOutDimNames.filter (· ≠ dim)
  size : L.getInDimSizeLog2 dim = L.getOutDimSizeLog2 dim
  identity : ∀ i < L.getInDimSizeLog2 dim, L.getBasis dim i dim = 2 ^ i
  row_zero : ∀ inDim ∈ L.getInDimNames, inDim ≠ dim → ∀ i, L.getBasis inDim i dim = 0
  column_zero : ∀ outDim ∈ L.getOutDimNames, outDim ≠ dim → ∀ i, L.getBasis dim i outDim = 0
  inSize : ∀ inDim, inDim ≠ dim → inDim ∈ L.getInDimNames →
    Q.getInDimSizeLog2 inDim = L.getInDimSizeLog2 inDim
  outSize : ∀ outDim, outDim ≠ dim → outDim ∈ L.getOutDimNames →
    Q.getOutDimSizeLog2 outDim = L.getOutDimSizeLog2 outDim
  basis : ∀ inDim ∈ L.getInDimNames, inDim ≠ dim → ∀ outDim ∈ L.getOutDimNames, outDim ≠ dim →
    ∀ i, Q.getBasis inDim i outDim = L.getBasis inDim i outDim

theorem mem_remainingDimNames {dim d : String} {names : List String} :
    d ∈ remainingDimNames [dim] names ↔ d ∈ names ∧ d ≠ dim := by
  simp [remainingDimNames]

theorem quotient_eq_some {f2 : F2Reduce} {L Q : LinearLayout} {dim : String}
    (h : L.quotient f2 [dim] = .ok (some Q)) : IsQuotient L.toRawLayout Q.toRawLayout dim := by
  rw [quotient] at h
  obtain ⟨trivialOver, htrivial, h⟩ := bind_eq_ok h
  cases trivialOver with
  | false => exact absurd (Except.ok.inj h) (by simp)
  | true =>
    obtain ⟨sub, hsub, h⟩ := bind_eq_ok h
    obtain rfl : sub = Q := Option.some.inj (Except.ok.inj h)
    rw [isTrivialOver] at htrivial
    split_ifs at htrivial with hnames
    swap
    · exact absurd (Except.ok.inj htrivial) Bool.false_ne_true
    obtain ⟨identity, hidentity, htrivial⟩ := bind_eq_ok htrivial
    cases identity with
    | false => exact absurd (Except.ok.inj htrivial) Bool.false_ne_true
    | true =>
      obtain ⟨rowsZero, hrows, htrivial⟩ := bind_eq_ok htrivial
      cases rowsZero with
      | false => exact absurd (Except.ok.inj htrivial) Bool.false_ne_true
      | true =>
        obtain ⟨hin, hout, hsize, hone⟩ := squareSublayoutIsIdentity_eq_true hidentity
        obtain ⟨-, -, hraw⟩ := sublayout_eq_ok hsub
        have hfilter : ∀ names : List String,
            names.filter (remainingDimNames [dim] names).contains = names.filter (· ≠ dim) := by
          intro names
          apply filter_congr
          intro d hd
          simp [mem_remainingDimNames, hd]
        have hmem := mem_singleton_self dim
        exact {
          mem_in := hin
          mem_out := hout
          inDims := by rw [hraw, getInDimNames_sublayoutRaw, hfilter]
          outDims := by rw [hraw, getOutDimNames_sublayoutRaw, hfilter]
          size := hsize
          identity := hone
          row_zero := fun inDim hd hne i => sublayoutIsZero_eq_true hrows
            (mem_remainingDimNames.mpr ⟨hd, hne⟩) hmem i
          column_zero := fun outDim hd hne i => sublayoutIsZero_eq_true htrivial hmem
            (mem_remainingDimNames.mpr ⟨hd, hne⟩) i
          inSize := fun inDim hne hd => by
            rw [hraw, getInDimSizeLog2_sublayoutRaw L (mem_remainingDimNames.mpr ⟨hd, hne⟩)]
          outSize := fun outDim hne hd => by
            rw [hraw, getOutDimSizeLog2_sublayoutRaw L (mem_remainingDimNames.mpr ⟨hd, hne⟩)]
          basis := fun inDim hd hne outDim hd' hne' i => by
            rw [hraw, getBasis_sublayoutRaw L (mem_remainingDimNames.mpr ⟨hd, hne⟩)
              (mem_remainingDimNames.mpr ⟨hd', hne'⟩) hd'] }

end TritonCpu
