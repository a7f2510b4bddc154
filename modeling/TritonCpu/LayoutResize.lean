import TritonCpu.LayoutDigits

/-!
# Fitting a layout to a shape

A dimension that is too large loses its highest bits: the bases that produce
them are set to zero, so that the output is taken modulo the wanted size. A
dimension that is too small gets more bits from the first input dimension.
-/

set_option autoImplicit false

namespace TritonCpu

open XorSpan BitFields List

namespace LinearLayout

variable (f2 : F2Reduce)

/-- `bases[inDimName][basisIdx][index] = 0` -/
def clearBasis (bases : BasesT) (inDimName : String) (basisIdx index : ℕ) : BasesT :=
  bases.modify inDimName fun old =>
    (old.getD []).modify basisIdx fun basis => basis.set index 0

/-- `<inDimName, basisIdx, outValue>` for the bases that are not zero at `index`. -/
def nonzeroBases (bases : BasesT) (index : ℕ) : List (String × ℕ × ℕ) :=
  (bases.entries.flatMap fun e =>
    e.2.zipIdx.map fun basis => (e.1, basis.2, basis.1.getD index 0)).filter fun t => t.2.2 ≠ 0

def sortedBases (bases : BasesT) (index : ℕ) : List (String × ℕ × ℕ) :=
  (nonzeroBases bases index).mergeSort fun a b => b.2.2 ≤ a.2.2

def clearLargest (index : ℕ) (desiredSize : ℤ) :
    List (String × ℕ × ℕ) → ℤ → BasesT → BasesT
  | [], _, bases => bases
  | (inDimName, basisIdx, _) :: rest, actualSize, bases =>
    if actualSize ≤ desiredSize then bases
    else clearLargest index desiredSize rest (actualSize / 2)
      (clearBasis bases inDimName basisIdx index)

/-- One output dimension of `ensureLayoutNotLargerThan`. -/
def shrinkOutDim (layout : LinearLayout) (shape : MapVector ℤ) (bases : BasesT)
    (outDim : String × ℕ) : Except LayoutError BasesT :=
  let actualSize : ℤ := layout.getOutDimSize outDim.1
  let desiredSize := int32 ((shape.find outDim.1).getD 0)
  if actualSize ≤ desiredSize then .ok bases
  else if desiredSize = 0 then .error .undefined
  else do
    assertThat "actualSize % desiredSize == 0" (actualSize.tmod desiredSize == 0)
    assertThat "llvm::isPowerOf2_32(outValue)"
      ((nonzeroBases bases outDim.2).all fun t => isPowerOf2_32 t.2.2)
    pure (clearLargest outDim.2 desiredSize (sortedBases bases outDim.2) actualSize bases)

def ensureLayoutNotLargerThan (layout : LinearLayout) (shape : MapVector ℤ) :
    Except LayoutError LinearLayout := do
  assertThat "shape.size() == layout.getNumOutDims()"
    (shape.entries.length == layout.getOutDimNames.length)
  if shape.entries = [] then pure layout
  else do
    let bases ← layout.getOutDimNames.zipIdx.foldlM (shrinkOutDim layout shape) layout.bases
    createInferred f2 bases layout.getOutDimNames

/-- One output dimension of `ensureLayoutNotSmallerThan`. -/
def growOutDim (layout : LinearLayout) (shape : MapVector ℤ) (kDim : String)
    (ret : LinearLayout) (outDimName : String) : Except LayoutError LinearLayout := do
  let actualSize : ℤ := layout.getOutDimSize outDimName
  let desiredSize := int32 ((shape.find outDimName).getD 0)
  assertThat "actualSize > desiredSize || desiredSize % actualSize == 0"
    (decide (actualSize > desiredSize) || desiredSize.tmod actualSize == 0)
  let ret ← mul f2 ret (← identity1D f2 (desiredSize.tdiv actualSize) kDim outDimName)
  assertThat "ret.getOutDimSize(outDimName) >= desiredSize"
    (decide ((ret.getOutDimSize outDimName : ℤ) ≥ desiredSize))
  pure ret

def ensureLayoutNotSmallerThan (layout : LinearLayout) (shape : MapVector ℤ) :
    Except LayoutError LinearLayout := do
  assertThat "shape.size() == layout.getNumOutDims()"
    (shape.entries.length == layout.getOutDimNames.length)
  if shape.entries = [] then pure layout
  else
    match layout.getInDimNames with
    | [] => .error .undefined
    | kDim :: _ => do
      assertThat "kDim == \"register\" || kDim == \"offset\""
        (kDim == "register" || kDim == "offset")
      layout.getOutDimNames.foldlM (growOutDim f2 layout shape kDim) layout

end LinearLayout

open LinearLayout

section Rows

/-- Basis `i` of a dimension, empty where there is none. -/
def row (bases : BasesT) (inDim : String) (i : ℕ) : List ℕ :=
  ((bases.find inDim).getD []).getD i []

def entry (bases : BasesT) (inDim : String) (i index : ℕ) : ℕ := (row bases inDim i).getD index 0

/-- Bases with the same dimensions and sizes. -/
structure SameShape (bases bases' : BasesT) : Prop where
  keys : bases'.keys = bases.keys
  size : ∀ inDim, ((bases'.find inDim).getD []).length = ((bases.find inDim).getD []).length
  row : ∀ inDim i, (row bases' inDim i).length = (row bases inDim i).length

theorem SameShape.refl (bases : BasesT) : SameShape bases bases :=
  ⟨rfl, fun _ => rfl, fun _ _ => rfl⟩

theorem SameShape.trans {a b c : BasesT} (h : SameShape a b) (h' : SameShape b c) :
    SameShape a c :=
  ⟨h'.keys.trans h.keys, fun d => (h'.size d).trans (h.size d),
    fun d i => (h'.row d i).trans (h.row d i)⟩

variable {bases : BasesT} {inDim : String} {i index : ℕ}

theorem find_clearBasis (d : String) : (clearBasis bases inDim i index).find d =
    if d = inDim then some (((bases.find inDim).getD []).modify i fun basis => basis.set index 0)
    else bases.find d :=
  MapVector.find_modify bases inDim d _

theorem row_clearBasis (d : String) (j : ℕ) : row (clearBasis bases inDim i index) d j =
    if d = inDim ∧ j = i then (row bases inDim i).set index 0 else row bases d j := by
  rw [row, find_clearBasis]
  by_cases hd : d = inDim
  · subst hd
    rw [if_pos rfl, Option.getD_some]
    by_cases hj : j < ((bases.find d).getD []).length
    · rw [getD_eq_getElem _ _ (by simpa using hj), getElem_modify]
      by_cases hij : i = j
      · subst hij
        rw [if_pos rfl, if_pos ⟨rfl, rfl⟩, row, getD_eq_getElem _ _ hj]
      · rw [if_neg hij, if_neg fun h => hij h.2.symm, row, getD_eq_getElem _ _ hj]
    · rw [getD_eq_default _ _ (by simpa using hj)]
      have hrow : row bases d j = [] := by
        rw [row, getD_eq_default _ _ (by simpa using hj)]
      split_ifs with h
      · rw [← h.2, hrow, set_nil]
      · rw [hrow]
  · rw [if_neg hd, if_neg fun h => hd h.1, row]

theorem entry_clearBasis (d : String) (j t : ℕ) : entry (clearBasis bases inDim i index) d j t =
    if d = inDim ∧ j = i ∧ t = index then 0 else entry bases d j t := by
  rw [entry, row_clearBasis]
  by_cases h : d = inDim ∧ j = i
  · obtain ⟨rfl, rfl⟩ := h
    rw [if_pos ⟨rfl, rfl⟩, entry]
    by_cases ht : t = index
    · subst ht
      rw [if_pos ⟨rfl, rfl, rfl⟩]
      by_cases hlt : t < (row bases d j).length
      · rw [getD_eq_getElem _ _ (by simpa using hlt), getElem_set_self]
      · rw [getD_eq_default _ _ (by simpa using hlt)]
    · rw [if_neg fun h => ht h.2.2]
      by_cases hlt : t < (row bases d j).length
      · rw [getD_eq_getElem _ _ (by simpa using hlt), getD_eq_getElem _ _ hlt,
          getElem_set_ne (Ne.symm ht)]
      · rw [getD_eq_default _ _ (by simpa using hlt),
          getD_eq_default _ _ (by simpa using hlt)]
  · rw [if_neg h, if_neg fun h' => h ⟨h'.1, h'.2.1⟩, entry]

theorem sameShape_clearBasis (hmem : inDim ∈ bases.keys) :
    SameShape bases (clearBasis bases inDim i index) where
  keys := by rw [clearBasis, MapVector.keys_modify, if_pos hmem]
  size := by
    intro d
    rw [find_clearBasis]
    split_ifs with hd
    · rw [hd, Option.getD_some, length_modify]
    · rfl
  row := by
    intro d j
    rw [row_clearBasis]
    split_ifs with h
    · rw [h.1, h.2, length_set]
    · rfl

end Rows

section Clear

/-- The sorted bases produce the powers of two below `2 ^ k`, the largest first,
and there are no others. -/
structure Descending (bases : BasesT) (index k : ℕ) (l : List (String × ℕ × ℕ)) : Prop where
  values : l.map (fun t => t.2.2) = ((List.range k).map (2 ^ ·)).reverse
  entry : ∀ t ∈ l, t.1 ∈ bases.keys ∧ entry bases t.1 t.2.1 index = t.2.2
  complete : ∀ d i, TritonCpu.entry bases d i index ≠ 0 →
    (d, i, TritonCpu.entry bases d i index) ∈ l

variable {bases : BasesT} {index k : ℕ}

theorem Descending.lt {l : List (String × ℕ × ℕ)} (h : Descending bases index k l) (d : String)
    (i : ℕ) : TritonCpu.entry bases d i index < 2 ^ k := by
  by_cases hzero : TritonCpu.entry bases d i index = 0
  · rw [hzero]
    exact Nat.two_pow_pos k
  · have hmem : TritonCpu.entry bases d i index ∈ l.map fun t => t.2.2 :=
      mem_map.mpr ⟨_, h.complete d i hzero, rfl⟩
    rw [h.values, mem_reverse] at hmem
    obtain ⟨e, he, heq⟩ := mem_map.mp hmem
    rw [← heq]
    exact Nat.pow_lt_pow_right (by omega) (mem_range.mp he)

theorem Descending.tail {t : String × ℕ × ℕ} {l : List (String × ℕ × ℕ)}
    (h : Descending bases index (k + 1) (t :: l)) : t.2.2 = 2 ^ k ∧
      Descending (clearBasis bases t.1 t.2.1 index) index k l := by
  have hvalues := h.values
  rw [range_succ, map_append, map_singleton, reverse_append,
    reverse_singleton, singleton_append, map_cons] at hvalues
  obtain ⟨hhead, htail⟩ := List.cons.inj hvalues
  have hsmall : ∀ u ∈ l, u.2.2 < 2 ^ k := by
    intro u hu
    have hmem : u.2.2 ∈ l.map fun t => t.2.2 := mem_map_of_mem hu
    rw [htail, mem_reverse] at hmem
    obtain ⟨e, he, heq⟩ := mem_map.mp hmem
    rw [← heq]
    exact Nat.pow_lt_pow_right (by omega) (mem_range.mp he)
  have hfirst := h.entry t mem_cons_self
  refine ⟨hhead, htail, fun u hu => ?_, fun d i hne => ?_⟩
  · have hother := h.entry u (mem_cons_of_mem _ hu)
    refine ⟨?_, ?_⟩
    · rw [(sameShape_clearBasis hfirst.1).keys]
      exact hother.1
    · rw [entry_clearBasis, if_neg]
      · exact hother.2
      · rintro ⟨hd, hi, -⟩
        have heq := hother.2
        rw [hd, hi, hfirst.2, hhead] at heq
        exact (hsmall u hu).ne heq.symm
  · rw [entry_clearBasis] at hne ⊢
    split_ifs at hne ⊢ with hsame
    · exact absurd rfl hne
    · rcases mem_cons.mp (h.complete d i hne) with heq | hmem
      · exact absurd ⟨congrArg Prod.fst heq, congrArg (fun u => u.2.1) heq, rfl⟩ hsame
      · exact hmem

theorem clearLargest_spec (n : ℕ) (l : List (String × ℕ × ℕ)) (h : Descending bases index k l) :
    SameShape bases (clearLargest index (2 ^ n) l (2 ^ k) bases) ∧
      ∀ d i t, entry (clearLargest index (2 ^ n) l (2 ^ k) bases) d i t =
        if t = index ∧ 2 ^ n ≤ entry bases d i index then 0 else entry bases d i t := by
  induction k generalizing bases l with
  | zero =>
    have hnil : l = [] := map_eq_nil_iff.mp h.values
    subst hnil
    refine ⟨SameShape.refl bases, fun d i t => ?_⟩
    have hlt := h.lt d i
    rw [if_neg, clearLargest]
    rintro ⟨-, hle⟩
    have hpos := Nat.two_pow_pos n
    omega
  | succ k ih =>
    cases l with
    | nil =>
      have hlen := congrArg List.length h.values
      simp at hlen
    | cons u l =>
      obtain ⟨d₀, i₀, v⟩ := u
      obtain ⟨hhead, htail⟩ := h.tail
      have hentry := h.entry _ mem_cons_self
      rw [clearLargest]
      by_cases hsize : k + 1 ≤ n
      · -- small enough
        have hle : (2 : ℤ) ^ (k + 1) ≤ 2 ^ n := pow_le_pow_right₀ (by omega) hsize
        rw [if_pos hle]
        refine ⟨SameShape.refl bases, fun d i t => ?_⟩
        rw [if_neg]
        rintro ⟨-, hge⟩
        have hlt := (h.lt d i).trans_le (Nat.pow_le_pow_right (by omega) hsize)
        omega
      · have hgt : ¬ (2 : ℤ) ^ (k + 1) ≤ 2 ^ n :=
          not_le.mpr (pow_lt_pow_right₀ (by omega) (by omega))
        have hhalf : (2 : ℤ) ^ (k + 1) / 2 = 2 ^ k := by rw [pow_succ]; omega
        rw [if_neg hgt, hhalf]
        obtain ⟨hshape, hrest⟩ := ih l htail
        refine ⟨(sameShape_clearBasis hentry.1).trans hshape, fun d i t => ?_⟩
        rw [hrest, entry_clearBasis, entry_clearBasis]
        by_cases hsame : d = d₀ ∧ i = i₀
        · obtain ⟨rfl, rfl⟩ := hsame
          have hvalue : entry bases d i index = 2 ^ k := hentry.2.trans hhead
          have hge : 2 ^ n ≤ 2 ^ k := Nat.pow_le_pow_right (by omega) (by omega)
          by_cases ht : t = index
          · simp [ht, hvalue, hge]
          · simp [ht]
        · have hnot : ∀ t', ¬ (d = d₀ ∧ i = i₀ ∧ t' = index) := fun _ h' => hsame ⟨h'.1, h'.2.1⟩
          rw [if_neg (hnot index), if_neg (hnot t)]

end Clear

section Sorted

variable {bases : BasesT} {index m : ℕ}

theorem entry_of_mem {e : String × List (List ℕ)} (he : e ∈ bases.entries) {i : ℕ}
    (hi : i < e.2.length) : entry bases e.1 i index = e.2[i].getD index 0 := by
  rw [entry, row, MapVector.find_of_mem he, Option.getD_some, getD_eq_getElem _ _ hi]

theorem mem_nonzeroBases {t : String × ℕ × ℕ} : t ∈ nonzeroBases bases index ↔
    t.2.2 ≠ 0 ∧ entry bases t.1 t.2.1 index = t.2.2 := by
  rw [nonzeroBases, mem_filter, decide_eq_true_eq, and_comm, and_congr_right_iff]
  intro hne
  rw [mem_flatMap]
  constructor
  · rintro ⟨e, he, ht⟩
    obtain ⟨⟨basis, i⟩, hbasis, rfl⟩ := mem_map.mp ht
    obtain ⟨hi, hget⟩ := List.getElem?_eq_some_iff.mp (mem_zipIdx_iff_getElem?.mp hbasis)
    rw [entry_of_mem he hi, hget]
  · intro hentry
    obtain ⟨d, i, v⟩ := t
    change v ≠ 0 at hne
    change entry bases d i index = v at hentry
    have hmem : d ∈ bases.keys := by
      by_contra hnot
      rw [entry, row, MapVector.find_eq_none hnot] at hentry
      exact hne hentry.symm
    obtain ⟨bs, hbs, hfind⟩ := MapVector.exists_find hmem
    have hi : i < bs.length := by
      by_contra hle
      rw [entry, row, hfind, Option.getD_some, getD_eq_default bs _ (by omega)] at hentry
      exact hne hentry.symm
    refine ⟨(d, bs), hbs, mem_map.mpr ⟨(bs[i], i), ?_, ?_⟩⟩
    · rw [mem_zipIdx_iff_getElem?]
      exact List.getElem?_eq_some_iff.mpr ⟨hi, rfl⟩
    · rw [← entry_of_mem hbs hi]
      exact congrArg (fun v => (d, i, v)) hentry

theorem nodup_nonzeroBases : (nonzeroBases bases index).Nodup := by
  apply List.Nodup.filter
  rw [nodup_flatMap]
  constructor
  · intro e _
    apply List.Nodup.of_map (fun t : String × ℕ × ℕ => t.2.1)
    rw [map_map]
    have hidx : (e.2.zipIdx.map ((fun t : String × ℕ × ℕ => t.2.1) ∘ fun basis =>
        (e.1, basis.2, basis.1.getD index 0))) = List.range e.2.length :=
      (zipIdx_map_snd 0 e.2).trans range_eq_range'.symm
    rw [hidx]
    exact nodup_range
  · have hkeys : bases.entries.Pairwise fun a b => a.1 ≠ b.1 := pairwise_map.mp bases.nodup
    apply hkeys.imp
    intro a b hne t hta htb
    obtain ⟨_, _, rfl⟩ := mem_map.mp hta
    obtain ⟨_, _, heq⟩ := mem_map.mp htb
    exact hne (congrArg Prod.fst heq).symm

theorem sortedBases_perm : (sortedBases bases index).Perm (nonzeroBases bases index) :=
  mergeSort_perm _ _

theorem mem_sortedBases {t : String × ℕ × ℕ} : t ∈ sortedBases bases index ↔
    t.2.2 ≠ 0 ∧ entry bases t.1 t.2.1 index = t.2.2 := by
  rw [sortedBases_perm.mem_iff, mem_nonzeroBases]

theorem sortedBases_pairwise :
    ((sortedBases bases index).map fun t => t.2.2).Pairwise (· ≥ ·) := by
  rw [pairwise_map]
  have hsorted : (sortedBases bases index).Pairwise
      fun a b => decide (b.2.2 ≤ a.2.2) = true := pairwise_mergeSort
    (fun a b c hab hbc => by
      simp only [decide_eq_true_eq] at hab hbc ⊢
      omega)
    (fun a b => by
      rw [Bool.or_eq_true, decide_eq_true_eq, decide_eq_true_eq]
      omega)
    (nonzeroBases bases index)
  exact hsorted.imp fun h => by simpa using h

theorem descending_sortedBases
    (hpower : ∀ d i, entry bases d i index ≠ 0 → ∃ e < m, entry bases d i index = 2 ^ e)
    (hsource : ∀ e < m, ∃ bit : String × ℕ, ∀ d i, entry bases d i index = 2 ^ e ↔ (d, i) = bit) :
    Descending bases index m (sortedBases bases index) where
  values := by
    have hnodup : ((sortedBases bases index).map fun t => t.2.2).Nodup := by
      apply List.Nodup.map_on _ (sortedBases_perm.nodup_iff.mpr nodup_nonzeroBases)
      rintro ⟨d, i, v⟩ ht ⟨d', i', v'⟩ ht' hv
      obtain ⟨hne, hentry⟩ := mem_sortedBases.mp ht
      obtain ⟨_, hentry'⟩ := mem_sortedBases.mp ht'
      change v = v' at hv
      change v ≠ 0 at hne
      change entry bases d i index = v at hentry
      change entry bases d' i' index = v' at hentry'
      subst hv
      obtain ⟨e, he, heq⟩ := hpower d i (hentry.symm ▸ hne)
      obtain ⟨bit, hbit⟩ := hsource e he
      have hfirst := (hbit d i).mp heq
      have hsecond := (hbit d' i').mp (by rw [hentry', ← hentry, heq])
      obtain ⟨rfl, rfl⟩ := Prod.mk.inj (hfirst.trans hsecond.symm)
      rfl
    have hpowers : ((List.range m).map fun e => 2 ^ e).reverse.Nodup := by
      rw [nodup_reverse]
      exact List.nodup_range.map (Nat.pow_right_injective (le_refl 2))
    have hperm : ((sortedBases bases index).map fun t => t.2.2).Perm
        ((List.range m).map fun e => 2 ^ e).reverse := by
      apply (perm_ext_iff_of_nodup hnodup hpowers).mpr
      intro v
      rw [mem_reverse, mem_map, mem_map]
      constructor
      · rintro ⟨⟨d, i, w⟩, ht, rfl⟩
        obtain ⟨hne, hentry⟩ := mem_sortedBases.mp ht
        change entry bases d i index = w at hentry
        change w ≠ 0 at hne
        obtain ⟨e, he, heq⟩ := hpower d i (hentry.symm ▸ hne)
        exact ⟨e, mem_range.mpr he, heq.symm.trans hentry⟩
      · rintro ⟨e, he, rfl⟩
        obtain ⟨⟨d, i⟩, hbit⟩ := hsource e (mem_range.mp he)
        exact ⟨(d, i, 2 ^ e), mem_sortedBases.mpr
          ⟨(Nat.two_pow_pos e).ne', (hbit d i).mpr rfl⟩, rfl⟩
    have hdescending : ((List.range m).map fun e => 2 ^ e).reverse.Pairwise (· ≥ ·) := by
      rw [pairwise_reverse, pairwise_map]
      exact List.pairwise_lt_range.imp fun h => Nat.pow_le_pow_right (by omega) h.le
    exact List.Perm.eq_of_pairwise (fun _ _ _ _ h h' => Nat.le_antisymm h' h)
      sortedBases_pairwise hdescending hperm
  entry := by
    intro t ht
    obtain ⟨hne, hentry⟩ := mem_sortedBases.mp ht
    refine ⟨?_, hentry⟩
    by_contra hnot
    rw [TritonCpu.entry, row, MapVector.find_eq_none hnot] at hentry
    exact hne hentry.symm
  complete := by
    intro d i hne
    exact mem_sortedBases.mpr ⟨hne, rfl⟩

theorem isPowerOf2_nonzeroBases (hm : m < 31)
    (hpower : ∀ d i, entry bases d i index ≠ 0 → ∃ e < m, entry bases d i index = 2 ^ e) :
    (nonzeroBases bases index).all (fun t => isPowerOf2_32 t.2.2) = true := by
  rw [all_eq_true]
  intro t ht
  obtain ⟨hne, hentry⟩ := mem_nonzeroBases.mp ht
  obtain ⟨e, he, heq⟩ := hpower t.1 t.2.1 (hentry.symm ▸ hne)
  exact isPowerOf2_32_iff.mpr ⟨e, by omega, hentry.symm.trans heq⟩

end Sorted

section NotLarger

variable (f2 : F2Reduce) {L : LinearLayout} {s : LayoutSpec} {shape : MapVector ℤ}
  {logs : String → ℕ}

theorem getBasis_eq_entry (raw : RawLayout) (d : String) (i : ℕ) (o : String) :
    raw.getBasis d i o = entry raw.bases d i (raw.getOutDimIndex o) := rfl

theorem int32_two_pow {k : ℕ} (hk : k < 31) : int32 (2 ^ k) = 2 ^ k := by
  have hlt : 2 ^ k < 2 ^ 31 := Nat.pow_lt_pow_right (by omega) hk
  have hcast := int32_of_lt hlt
  push_cast at hcast
  exact hcast

/-- The wanted size of a dimension is a power of two. -/
abbrev ShapeLog (shape : MapVector ℤ) (logs : String → ℕ) (outDims : List String) : Prop :=
  ∀ outDim ∈ outDims, logs outDim < 31 ∧ shape.find outDim = some (2 ^ logs outDim)

theorem shrinkOutDim_ok (h : Describes L s) {o : String} (ho : o ∈ s.outDims)
    (hlog : logs o < 31 ∧ shape.find o = some (2 ^ logs o)) {bases : BasesT}
    (hsame : ∀ d i, entry bases d i (L.getOutDimIndex o) = L.getBasis d i o) :
    ∃ bases', shrinkOutDim L shape bases (o, L.getOutDimIndex o) = .ok bases' ∧
      SameShape bases bases' ∧ ∀ d i t, entry bases' d i t =
        if t = L.getOutDimIndex o then L.getBasis d i o % 2 ^ logs o else entry bases d i t := by
  have hmem : o ∈ L.getOutDimNames := h.outDims ▸ ho
  have hsize : L.getOutDimSizeLog2 o < 31 := getOutDimSizeLog2_lt L hmem
  have hdesired : int32 ((shape.find o).getD 0) = 2 ^ logs o := by
    rw [hlog.2, Option.getD_some, int32_two_pow hlog.1]
  have hpower : ∀ d i, entry bases d i (L.getOutDimIndex o) ≠ 0 →
      ∃ e < L.getOutDimSizeLog2 o, entry bases d i (L.getOutDimIndex o) = 2 ^ e := by
    intro d i hne
    rw [hsame] at hne ⊢
    exact h.unit.power o hmem d i hne
  have hsource : ∀ e < L.getOutDimSizeLog2 o, ∃ bit : String × ℕ, ∀ d i,
      entry bases d i (L.getOutDimIndex o) = 2 ^ e ↔ (d, i) = bit := by
    intro e he
    obtain ⟨bit, hbit⟩ := h.unit.source o hmem e he
    refine ⟨bit, fun d i => ?_⟩
    rw [hsame, hbit]
  have hmod : ∀ d i, L.getBasis d i o % 2 ^ logs o =
      if 2 ^ logs o ≤ L.getBasis d i o then 0 else L.getBasis d i o := by
    intro d i
    split_ifs with hle
    · have hne : L.getBasis d i o ≠ 0 := fun hzero => by
        rw [hzero] at hle
        exact absurd hle (Nat.two_pow_pos _).not_ge
      obtain ⟨e, _, heq⟩ := h.unit.power o hmem d i hne
      rw [heq, Nat.pow_le_pow_iff_right (by omega)] at hle
      rw [heq]
      exact Nat.mod_eq_zero_of_dvd (Nat.pow_dvd_pow 2 hle)
    · exact Nat.mod_eq_of_lt (not_le.mp hle)
  have hactual : ((L.getOutDimSize o : ℕ) : ℤ) = 2 ^ L.getOutDimSizeLog2 o := by
    rw [RawLayout.getOutDimSize]
    push_cast
    rfl
  simp only [shrinkOutDim, hdesired, hactual]
  by_cases hfits : L.getOutDimSizeLog2 o ≤ logs o
  · -- nothing to do
    have hle : (2 : ℤ) ^ L.getOutDimSizeLog2 o ≤ 2 ^ logs o := pow_le_pow_right₀ (by omega) hfits
    rw [if_pos hle]
    refine ⟨bases, rfl, SameShape.refl bases, fun d i t => ?_⟩
    split_ifs with ht
    · have hbound : L.getBasis d i o < 2 ^ L.getOutDimSizeLog2 o := getBasis_lt L
      have hlt := hbound.trans_le (Nat.pow_le_pow_right (by omega) hfits)
      rw [ht, hsame, Nat.mod_eq_of_lt hlt]
    · rfl
  · have hgt : ¬ (2 : ℤ) ^ L.getOutDimSizeLog2 o ≤ 2 ^ logs o :=
      not_le.mpr (pow_lt_pow_right₀ (by omega) (by omega))
    have hne : (2 : ℤ) ^ logs o ≠ 0 := by positivity
    have hdvd : Int.tmod (2 ^ L.getOutDimSizeLog2 o) (2 ^ logs o) = 0 :=
      Int.tmod_eq_zero_of_dvd (pow_dvd_pow 2 (by omega))
    rw [if_neg hgt, if_neg hne, hdvd, assertThat_ok (beq_self_eq_true _),
      assertThat_ok (isPowerOf2_nonzeroBases hsize hpower)]
    obtain ⟨hshape, hentry⟩ := clearLargest_spec (logs o) _ (descending_sortedBases hpower hsource)
    refine ⟨_, rfl, hshape, fun d i t => ?_⟩
    rw [hentry, hsame]
    by_cases ht : t = L.getOutDimIndex o
    · rw [if_pos ht, hmod, ht, hsame]
      simp
    · rw [if_neg ht, if_neg fun h' => ht h'.1]

theorem foldlM_shrinkOutDim (h : Describes L s) (hlog : ShapeLog shape logs s.outDims)
    (names : List String) (hnames : ∀ o ∈ names, o ∈ s.outDims) (hnodup : names.Nodup)
    (bases : BasesT) (hsame : ∀ o ∈ names, ∀ d i,
      entry bases d i (L.getOutDimIndex o) = L.getBasis d i o) :
    ∃ bases', (names.map fun o => (o, L.getOutDimIndex o)).foldlM (shrinkOutDim L shape) bases =
        .ok bases' ∧ SameShape bases bases' ∧
      (∀ o ∈ names, ∀ d i, entry bases' d i (L.getOutDimIndex o) =
        L.getBasis d i o % 2 ^ logs o) ∧
      ∀ d i t, (∀ o ∈ names, t ≠ L.getOutDimIndex o) → entry bases' d i t = entry bases d i t := by
  induction names generalizing bases with
  | nil => exact ⟨bases, rfl, SameShape.refl bases, by simp, fun _ _ _ _ => rfl⟩
  | cons o names ih =>
    rw [nodup_cons] at hnodup
    have ho := hnames o mem_cons_self
    have hindex : ∀ o' ∈ names, L.getOutDimIndex o' ≠ L.getOutDimIndex o := by
      intro o' ho' heq
      have hmem : o' ∈ L.getOutDimNames := h.outDims ▸ hnames o' (mem_cons_of_mem _ ho')
      have hsameName : o' = o := idxOf_inj hmem |>.mp heq
      exact hnodup.1 (hsameName ▸ ho')
    obtain ⟨b₁, hstep, hshape, hentry⟩ := shrinkOutDim_ok h ho (hlog o ho)
      (hsame o mem_cons_self)
    obtain ⟨b₂, hrest, hshape', hentry', hother⟩ := ih
      (fun o' ho' => hnames o' (mem_cons_of_mem _ ho')) hnodup.2 b₁
      (fun o' ho' d i => by
        rw [hentry, if_neg (hindex o' ho')]
        exact hsame o' (mem_cons_of_mem _ ho') d i)
    refine ⟨b₂, ?_, hshape.trans hshape', ?_, ?_⟩
    · rw [map_cons, foldlM_cons, hstep]
      exact hrest
    · intro o' ho' d i
      rcases mem_cons.mp ho' with rfl | hmem
      · rw [hother d i _ fun o'' ho'' => (hindex o'' ho'').symm, hentry, if_pos rfl]
      · exact hentry' o' hmem d i
    · intro d i t ht
      rw [hother d i t fun o' ho' => ht o' (mem_cons_of_mem _ ho'), hentry,
        if_neg (ht o mem_cons_self)]

/-- Every output taken modulo the size of its dimension in the shape. -/
def LayoutSpec.truncate (s : LayoutSpec) (logs : String → ℕ) : LayoutSpec :=
  { s with
    outLog := fun o => min (s.outLog o) (logs o)
    value := fun o ins => s.value o ins % 2 ^ logs o }

theorem zipIdx_names (raw : RawLayout) : raw.getOutDimNames.zipIdx =
    raw.getOutDimNames.map fun o => (o, raw.getOutDimIndex o) := by
  apply ext_getElem (by simp)
  intro t ht ht'
  have hname : t < raw.getOutDimNames.length := by simpa using ht
  rw [getElem_zipIdx, getElem_map, getOutDimIndex_getElem raw hname, Nat.zero_add]

theorem ensureLayoutNotLargerThan_describes (h : Describes L s)
    (hlog : ShapeLog shape logs s.outDims) (hcount : shape.entries.length = s.outDims.length)
    (hcols : s.total ≤ 64) : ∃ L' : LinearLayout,
      ensureLayoutNotLargerThan f2 L shape = .ok L' ∧ Describes L' (s.truncate logs) := by
  have hnodup := nodup_getOutDimNames L.toRawLayout
  have hcheck : (shape.entries.length == L.getOutDimNames.length) = true := by
    rw [h.outDims, hcount, beq_self_eq_true]
  rw [ensureLayoutNotLargerThan, assertThat_ok hcheck]
  by_cases hempty : shape.entries = []
  · have houts : s.outDims = [] := by
      rw [← length_eq_zero_iff, ← hcount, hempty]
      rfl
    have hnone : ∀ o, o ∉ L.getOutDimNames := by
      intro o
      rw [h.outDims, houts]
      exact not_mem_nil
    refine ⟨L, ?_, h.inDims, h.outDims, h.inSize, ?_, ?_, h.surjective, h.unit⟩
    · change (if shape.entries = [] then pure L else _) = _
      rw [if_pos hempty]
      rfl
    · intro o
      have hzero := getOutDimSizeLog2_of_notMem L.toRawLayout (hnone o)
      simp only [LayoutSpec.truncate, ← h.outSize, hzero, Nat.zero_min]
    · intro o ins
      have hzero := value_of_notMem L (hnone o) ins
      simp only [LayoutSpec.truncate, ← h.value, hzero, Nat.zero_mod]
  · obtain ⟨bases, hloop, hshape, hentry, -⟩ := foldlM_shrinkOutDim h hlog L.getOutDimNames
      (fun o ho => h.outDims ▸ ho) hnodup L.bases (fun _ _ _ _ => rfl)
    have hnames := getOutDimNames_inferred bases hnodup
    have hbasis : ∀ d i, ∀ o ∈ L.getOutDimNames,
        (inferred bases L.getOutDimNames).getBasis d i o = L.getBasis d i o % 2 ^ logs o := by
      intro d i o ho
      rw [getBasis_eq_entry, ← hentry o ho d i, RawLayout.getOutDimIndex, hnames]
      rfl
    have hins : (inferred bases L.getOutDimNames).getInDimNames = L.getInDimNames := hshape.keys
    have hinSize : ∀ d, (inferred bases L.getOutDimNames).getInDimSizeLog2 d =
        L.getInDimSizeLog2 d := hshape.size
    have hvalue : ∀ o ∈ L.getOutDimNames, ∀ ins,
        (inferred bases L.getOutDimNames).value o ins = L.value o ins % 2 ^ logs o := by
      intro o ho ins
      rw [RawLayout.value, RawLayout.value, hins, ← xorSum_map (· % 2 ^ logs o) (Nat.zero_mod _)
        fun _ _ => Nat.xor_mod_two_pow, map_map]
      apply xorSum_map_congr
      intro d _
      rw [Function.comp_apply, ← combine_map _ _ (· % 2 ^ logs o) (Nat.zero_mod _)
        fun _ _ => Nat.xor_mod_two_pow, RawLayout.dimColumn, RawLayout.dimColumn, hinSize,
        map_map]
      congr 1
      apply map_congr_left
      intro i _
      exact hbasis d i o ho
    let log : String → ℕ := fun o => min (L.getOutDimSizeLog2 o) (logs o)
    have hsmall : ∀ o ∈ L.getOutDimNames, log o < 31 := fun o ho =>
      (Nat.min_le_left _ _).trans_lt (getOutDimSizeLog2_lt L ho)
    have hbound : ∀ d i, ∀ o ∈ L.getOutDimNames,
        (inferred bases L.getOutDimNames).getBasis d i o < 2 ^ log o := by
      intro d i o ho
      rw [hbasis d i o ho]
      rcases Nat.le_total (L.getOutDimSizeLog2 o) (logs o) with hle | hle
      · rw [show log o = L.getOutDimSizeLog2 o from Nat.min_eq_left hle]
        exact (Nat.mod_le _ _).trans_lt (getBasis_lt L)
      · rw [show log o = logs o from Nat.min_eq_right hle]
        exact Nat.mod_lt _ (Nat.two_pow_pos _)
    have hunit : ∀ o ∈ L.getOutDimNames, ∀ e < log o, ∃ bit : String × ℕ, ∀ d i,
        (inferred bases L.getOutDimNames).getBasis d i o = 2 ^ e ↔ (d, i) = bit := by
      intro o ho e he
      have he' : e < L.getOutDimSizeLog2 o ∧ e < logs o := lt_min_iff.mp he
      obtain ⟨bit, hbit⟩ := h.unit.source o ho e he'.1
      refine ⟨bit, fun d i => ?_⟩
      rw [← hbit, hbasis d i o ho]
      constructor
      · intro hmod
        have hne : L.getBasis d i o ≠ 0 := fun hzero => by
          rw [hzero, Nat.zero_mod] at hmod
          exact (Nat.two_pow_pos e).ne hmod
        obtain ⟨e', _, heq⟩ := h.unit.power o ho d i hne
        rw [heq] at hmod
        by_cases hlt : e' < logs o
        · rw [heq, ← hmod, Nat.mod_eq_of_lt (Nat.pow_lt_pow_right (by omega) hlt)]
        · rw [Nat.mod_eq_zero_of_dvd (Nat.pow_dvd_pow 2 (not_lt.mp hlt))] at hmod
          exact absurd hmod (Nat.two_pow_pos e).ne
      · intro heq
        rw [heq, Nat.mod_eq_of_lt (Nat.pow_lt_pow_right (by omega) he'.2)]
    have htop : ∀ o ∈ L.getOutDimNames, log o = 0 ∨ ∃ d i,
        2 ^ (log o - 1) ≤ (inferred bases L.getOutDimNames).getBasis d i o := by
      intro o ho
      by_cases hzero : log o = 0
      · exact Or.inl hzero
      · obtain ⟨⟨d, i⟩, hbit⟩ := hunit o ho (log o - 1) (by omega)
        exact Or.inr ⟨d, i, ((hbit d i).mpr rfl).ge⟩
    have hentries := entries_inferred bases hnodup log hsmall hbound htop
    have houtSize : ∀ o ∈ L.getOutDimNames,
        (inferred bases L.getOutDimNames).getOutDimSizeLog2 o = log o := fun o ho =>
      getOutDimSizeLog2_inferred hentries ho
    obtain ⟨L', hcreate, hraw, hsurj⟩ := createInferred_ok bases f2 hnodup log hsmall
      (by
        intro basis hmem
        obtain ⟨bs, hbs, hmem'⟩ := mem_flatten.mp hmem
        obtain ⟨e, he, rfl⟩ := mem_map.mp hbs
        obtain ⟨i, hi, rfl⟩ := getElem_of_mem hmem'
        have hrow := hshape.row e.1 i
        have hsizes := hshape.size e.1
        rw [row, MapVector.find_of_mem he, Option.getD_some, getD_eq_getElem _ _ hi] at hrow
        rw [MapVector.find_of_mem he, Option.getD_some] at hsizes
        have hkey : e.1 ∈ L.bases.keys := hshape.keys ▸ mem_map_of_mem he
        obtain ⟨bs, hbs, hfind⟩ := MapVector.exists_find hkey
        rw [hfind, Option.getD_some] at hsizes
        rw [hrow, row, hfind, Option.getD_some, getD_eq_getElem bs _ (hsizes ▸ hi)]
        exact length_of_mem_flatBases L (mem_flatten.mpr
          ⟨bs, mem_map.mpr ⟨_, hbs, rfl⟩, getElem_mem _⟩))
      hbound htop
      (by
        rw [RawLayout.getTotalInDimSizeLog2, hins, map_congr_left fun d _ => hinSize d]
        exact (h.computes.total ▸ hcols : L.getTotalInDimSizeLog2 ≤ 64))
      (by
        intro target htarget
        rw [hnames] at htarget ⊢
        obtain ⟨ins, hfit, hreach⟩ := L.surjective_iff_reaches.mp h.surjective target
          fun o ho => (houtSize o ho ▸ htarget o ho).trans_le
            (Nat.pow_le_pow_right (by omega) (Nat.min_le_left _ _))
        refine ⟨ins, fun d hd => ?_, fun o ho => ?_⟩
        · rw [hinSize]
          exact hfit d (hins ▸ hd)
        · have hlt := (houtSize o ho ▸ htarget o ho).trans_le
            (Nat.pow_le_pow_right (by omega) (Nat.min_le_right (L.getOutDimSizeLog2 o) (logs o)))
          rw [hvalue o ho, hreach o ho, Nat.mod_eq_of_lt hlt])
    have houts : L'.getOutDimNames = L.getOutDimNames := hraw ▸ hnames
    refine ⟨L', ?_, ?_, houts.trans h.outDims, ?_, ?_, ?_, hsurj, ?_, ?_⟩
    · change (if shape.entries = [] then pure L else _) = _
      rw [if_neg hempty, zipIdx_names L.toRawLayout, hloop]
      exact hcreate
    · rw [hraw, hins, h.inDims]
      rfl
    · intro d
      rw [hraw, hinSize, h.inSize]
      rfl
    · intro o
      by_cases ho : o ∈ L.getOutDimNames
      · rw [hraw, houtSize o ho]
        exact congrArg (fun k => min k (logs o)) (h.outSize o)
      · have hzero := getOutDimSizeLog2_of_notMem L.toRawLayout ho
        rw [getOutDimSizeLog2_of_notMem L'.toRawLayout (houts ▸ ho)]
        simp only [LayoutSpec.truncate, ← h.outSize, hzero, Nat.zero_min]
    · intro o ins
      by_cases ho : o ∈ L.getOutDimNames
      · rw [hraw, hvalue o ho, h.value]
        rfl
      · have hzero := value_of_notMem L ho ins
        rw [value_of_notMem L' (houts ▸ ho)]
        simp only [LayoutSpec.truncate, ← h.value, hzero, Nat.zero_mod]
    · intro o ho d i hne
      rw [houts] at ho
      rw [hraw, hbasis d i o ho] at hne ⊢
      rw [houtSize o ho]
      have hne' : L.getBasis d i o ≠ 0 := fun hzero => by
        rw [hzero, Nat.zero_mod] at hne
        exact hne rfl
      obtain ⟨e, he, heq⟩ := h.unit.power o ho d i hne'
      rw [heq] at hne ⊢
      have hlt : e < logs o := by
        by_contra hle
        exact hne (Nat.mod_eq_zero_of_dvd (Nat.pow_dvd_pow 2 (not_lt.mp hle)))
      exact ⟨e, lt_min he hlt, Nat.mod_eq_of_lt (Nat.pow_lt_pow_right (by omega) hlt)⟩
    · intro o ho e he
      rw [houts] at ho
      rw [hraw, houtSize o ho] at he
      rw [hraw]
      exact hunit o ho e he

end NotLarger

section NotSmaller

variable (f2 : F2Reduce) {L : LinearLayout} {s : LayoutSpec} {shape : MapVector ℤ}
  {logs : String → ℕ} {kDim : String}

def LayoutSpec.missing (s : LayoutSpec) (logs : String → ℕ) (o : String) : ℕ := logs o - s.outLog o

theorem mul_empty (s : LayoutSpec) : s.mul LayoutSpec.empty = s := by
  simp [LayoutSpec.mul, LayoutSpec.empty]

theorem appendDigits_zero (s : LayoutSpec) {o : String} {width : String → ℕ} (hzero : width o = 0)
    (hin : kDim ∈ s.inDims) (hout : o ∈ s.outDims) :
    s.appendDigits kDim [o] width width = s := by
  refine LayoutSpec.ext ?_ ?_ ?_ ?_ ?_
  · simp [LayoutSpec.appendDigits, hin]
  · funext d
    simp [LayoutSpec.appendDigits, hzero]
  · simp [LayoutSpec.appendDigits, hout]
  · funext d
    by_cases h : d = o <;> simp [LayoutSpec.appendDigits, h, hzero]
  · funext d ins
    by_cases h : d = o
    · simp [LayoutSpec.appendDigits, h, hzero, Nat.mod_one]
    · simp [LayoutSpec.appendDigits, digitOf, Ne.symm h]

theorem growOutDim_ok (h : Describes L s) {o : String}
    (hlog : logs o < 31 ∧ shape.find o = some (2 ^ logs o)) {ret : LinearLayout} {t : LayoutSpec}
    (ht : Describes ret t) (hsame : t.outLog o = s.outLog o) (hin : kDim ∈ t.inDims)
    (hout : o ∈ t.outDims) (hcols : t.total + s.missing logs o ≤ 64) :
    ∃ ret' : LinearLayout, growOutDim f2 L shape kDim ret o = .ok ret' ∧
      Describes ret' (t.appendDigits kDim [o] (s.missing logs) (s.missing logs)) := by
  have hdesired : int32 ((shape.find o).getD 0) = 2 ^ logs o := by
    rw [hlog.2, Option.getD_some, int32_two_pow hlog.1]
  have hactual : ((L.getOutDimSize o : ℕ) : ℤ) = 2 ^ s.outLog o := by
    rw [RawLayout.getOutDimSize, h.outSize]
    push_cast
    rfl
  have hpos : ∀ k : ℕ, (0 : ℤ) < 2 ^ k := fun k => by positivity
  -- the step up to its last assertion
  have hmul : ∃ ret' : LinearLayout, (do
      let factor ← identity1D f2 (Int.tdiv (2 ^ logs o) (2 ^ s.outLog o)) kDim o
      mul f2 ret factor) = .ok ret' ∧
        Describes ret' (t.appendDigits kDim [o] (s.missing logs) (s.missing logs)) := by
    by_cases hsmall : s.outLog o ≤ logs o
    · have hquot : Int.tdiv (2 ^ logs o) (2 ^ s.outLog o) = 2 ^ s.missing logs o := by
        have hsplit : (2 : ℤ) ^ logs o = 2 ^ s.missing logs o * 2 ^ s.outLog o := by
          rw [← pow_add, LayoutSpec.missing, Nat.sub_add_cancel hsmall]
        rw [hsplit, Int.mul_tdiv_cancel _ (hpos _).ne']
      have hbits : s.missing logs o + s.outLog o = logs o := Nat.sub_add_cancel hsmall
      obtain ⟨factor, hid, hfactor⟩ := identity1D_describes f2 kDim o
        (show s.missing logs o < 31 by omega)
      obtain ⟨ret', hret, hdesc⟩ := mul_oneDim kDim (s.missing logs)
        (s.missing logs) f2 ht hfactor le_rfl (by omega) hcols
      refine ⟨ret', ?_, hdesc⟩
      rw [hquot, hid]
      exact hret
    · have hquot : Int.tdiv (2 ^ logs o) (2 ^ s.outLog o) = 0 := by
        apply Int.tdiv_eq_zero_of_lt (hpos _).le
        exact pow_lt_pow_right₀ (by omega) (by omega)
      have hzero : s.missing logs o = 0 := Nat.sub_eq_zero_of_le (by omega)
      obtain ⟨factor, hempty, hfactor⟩ := empty_describes f2
      obtain ⟨ret', hret, hdesc⟩ := mul_describes f2 ht hfactor
        (sameOrder_of_disjoint fun _ _ => not_mem_nil)
        (sameOrder_of_disjoint fun _ _ => not_mem_nil)
        (fun o' => by
          change t.outLog o' + 0 < 31
          exact ht.computes.outLog_lt o')
        (by
          change t.total + 0 ≤ 64
          omega)
      refine ⟨ret', ?_, ?_⟩
      · rw [hquot, identity1D, if_pos rfl, hempty]
        exact hret
      · rw [appendDigits_zero t hzero hin hout]
        rwa [mul_empty] at hdesc
  have hcheck : (decide ((2 : ℤ) ^ s.outLog o > 2 ^ logs o) ||
      Int.tmod (2 ^ logs o) (2 ^ s.outLog o) == 0) = true := by
    by_cases hsmall : s.outLog o ≤ logs o
    · rw [Int.tmod_eq_zero_of_dvd (pow_dvd_pow 2 hsmall), beq_self_eq_true, Bool.or_true]
    · have hgt : (2 : ℤ) ^ s.outLog o > 2 ^ logs o := pow_lt_pow_right₀ (by omega) (by omega)
      rw [decide_eq_true hgt, Bool.true_or]
  obtain ⟨ret', hret, hdesc⟩ := hmul
  have hlast : decide (((ret'.getOutDimSize o : ℕ) : ℤ) ≥ 2 ^ logs o) = true := by
    have hle : logs o ≤ s.outLog o + s.missing logs o := by
      rw [LayoutSpec.missing]
      omega
    rw [decide_eq_true_eq, RawLayout.getOutDimSize, hdesc.outSize]
    simp only [LayoutSpec.appendDigits, hsame, mem_singleton, if_true]
    push_cast
    exact pow_le_pow_right₀ (by omega) hle
  refine ⟨ret', ?_, hdesc⟩
  obtain ⟨factor, hid, hfactor⟩ := bind_eq_ok hret
  simp only [growOutDim, hdesired, hactual, assertThat_ok hcheck, bind, Except.bind, hid, hfactor,
    assertThat_ok hlast, pure, Except.pure]

theorem ensureLayoutNotSmallerThan_eq (rest : List String)
    (hcount : shape.entries.length = L.getOutDimNames.length)
    (hkDim : kDim = "register" ∨ kDim = "offset")
    (hins : shape.entries ≠ [] → L.getInDimNames = kDim :: rest) :
    ensureLayoutNotSmallerThan f2 L shape = if shape.entries = [] then .ok L
      else L.getOutDimNames.foldlM (growOutDim f2 L shape kDim) L := by
  rw [ensureLayoutNotSmallerThan, assertThat_ok (by rw [hcount, beq_self_eq_true])]
  change (if shape.entries = [] then pure L else _) = _
  split_ifs with hempty
  · rfl
  · have hname : (kDim == "register" || kDim == "offset") = true := by
      rcases hkDim with rfl | rfl <;> rfl
    rw [hins hempty]
    simp only [assertThat_ok hname, bind, Except.bind]

theorem ensureLayoutNotSmallerThan_describes (h : Describes L s)
    (hlog : ShapeLog shape logs s.outDims) (hcount : shape.entries.length = s.outDims.length)
    (hkDim : kDim = "register" ∨ kDim = "offset") (hfirst : s.outDims = [] ∨
      s.inDims.head? = some kDim) (hcols : s.total + (s.outDims.map (s.missing logs)).sum ≤ 64) :
    ∃ L' : LinearLayout, ensureLayoutNotSmallerThan f2 L shape = .ok L' ∧
      Describes L' (s.appendDigits kDim s.outDims (s.missing logs) (s.missing logs)) ∧
      (s.appendDigits kDim s.outDims (s.missing logs) (s.missing logs)).total =
        s.total + (s.outDims.map (s.missing logs)).sum := by
  have hcheck : shape.entries.length = L.getOutDimNames.length := by rw [h.outDims, hcount]
  by_cases hempty : shape.entries = []
  · have houts : s.outDims = [] := by
      rw [← length_eq_zero_iff, ← hcount, hempty]
      rfl
    refine ⟨L, ?_, ?_, ?_⟩
    · rw [ensureLayoutNotSmallerThan_eq f2 [] hcheck hkDim (absurd hempty), if_pos hempty]
    · rwa [houts, LayoutSpec.appendDigits_nil]
    · rw [houts, LayoutSpec.appendDigits_nil]
      rfl
  · have houts : s.outDims ≠ [] := by
      intro hnil
      rw [hnil] at hcount
      exact hempty (length_eq_zero_iff.mp hcount)
    obtain ⟨rest, hins⟩ := List.head?_eq_some_iff.mp (hfirst.resolve_left houts)
    have hmem : kDim ∈ s.inDims := hins ▸ mem_cons_self
    obtain ⟨L', hloop, hdesc⟩ := foldlM_appendDigits kDim (s.missing logs)
      (s.missing logs) id (growOutDim f2 L shape kDim) s.outDims
      (by
        rw [map_id]
        exact h.outDims ▸ nodup_getOutDimNames L.toRawLayout)
      Describes.computes h (fun _ _ => le_rfl)
      (fun o ho => by
        have hlt := (hlog o ho).1
        have hlt' : s.outLog o < 31 := by
          rw [← h.outSize]
          exact getOutDimSizeLog2_lt L (h.outDims ▸ ho)
        change s.outLog o + (logs o - s.outLog o) < 31
        omega)
      (by rwa [map_id])
      (fun o ho ret t ht hsame hsubIn hsubOut hfit =>
        growOutDim_ok f2 h (hlog o ho) ht hsame (hsubIn hmem) (hsubOut ho) hfit)
    rw [map_id] at hdesc
    refine ⟨L', ?_, hdesc⟩
    rw [ensureLayoutNotSmallerThan_eq f2 _ hcheck hkDim fun _ => h.inDims.trans hins, if_neg hempty,
      h.outDims]
    exact hloop

end NotSmaller

end TritonCpu
