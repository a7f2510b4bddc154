import Mathlib.Algebra.BigOperators.Group.List.Basic
import TritonCpu.LayoutValue

/-!
# Products of layouts

The bits of the inner layout are the low bits of every dimension, those of the
outer layout follow them. The output of the product is the output of the inner
layout together with the shifted output of the outer one.
-/

set_option autoImplicit false

namespace TritonCpu

open XorSpan BitFields List

def assertCommonDimsSameOrder (aDims bDims : List String) : Except LayoutError Unit :=
  if aDims.filter (bDims.contains ·) = bDims.filter (aDims.contains ·) then .ok ()
  else .error (.fatal ("All a/b dimensions common to both layouts must appear in the same " ++
    "relative order, but they don't."))

namespace LinearLayout

variable (f2 : F2Reduce)

section Product

variable (inner outer : LinearLayout)

def addSizesLog2 (names : List String) (sizeLog2 : String → ℕ) (m : MapVector ℕ) : MapVector ℕ :=
  names.foldl (fun m name => m.modify name fun old => old.getD 0 + sizeLog2 name) m

def inDimSizesLog2 : MapVector ℕ :=
  addSizesLog2 outer.getInDimNames outer.getInDimSizeLog2
    (addSizesLog2 inner.getInDimNames inner.getInDimSizeLog2 MapVector.empty)

def outDimSizesLog2 : MapVector ℕ :=
  addSizesLog2 outer.getOutDimNames outer.getOutDimSizeLog2
    (addSizesLog2 inner.getOutDimNames inner.getOutDimSizeLog2 MapVector.empty)

/-- Basis `i` of `inDim`, at `outDim`: the bases of `inner` come first. -/
def productBasis (inDim : String) (i : ℕ) (outDim : String) : ℕ :=
  let offset := if inDim ∈ inner.getInDimNames then inner.getInDimSizeLog2 inDim else 0
  let shift := if outDim ∈ inner.getOutDimNames then inner.getOutDimSizeLog2 outDim else 0
  if i < offset then
    if outDim ∈ inner.getOutDimNames then inner.getBasis inDim i outDim else 0
  else if inDim ∈ outer.getInDimNames ∧ outDim ∈ outer.getOutDimNames then
    outer.getBasis inDim (i - offset) outDim <<< shift
  else 0

def productBases : BasesT :=
  (inDimSizesLog2 inner outer).mapEntries fun inDim inDimSizeLog2 =>
    (List.range inDimSizeLog2).map fun i =>
      (outDimSizesLog2 inner outer).keys.map (productBasis inner outer inDim i)

/-- `inner * outer`. -/
def mul : Except LayoutError LinearLayout := do
  assertCommonDimsSameOrder inner.getOutDimNames outer.getOutDimNames
  assertCommonDimsSameOrder inner.getInDimNames outer.getInDimNames
  let outDimSizes ← (outDimSizesLog2 inner outer).entries.mapM fun e => do
    let size ← shiftOne e.2
    pure (e.1, size)
  create f2 ⟨productBases inner outer, MapVector.build (fun _ size => size) outDimSizes⟩
    (inner.surjective && outer.surjective)

end Product

end LinearLayout

open LinearLayout

section Sizes

variable (names : List String) (sizeLog2 : String → ℕ) (m : MapVector ℕ)

theorem keys_addSizesLog2 (hnodup : names.Nodup) : (addSizesLog2 names sizeLog2 m).keys =
    m.keys ++ names.filter (· ∉ m.keys) := by
  induction names generalizing m with
  | nil => simp [addSizesLog2]
  | cons name names ih =>
    rw [nodup_cons] at hnodup
    have hstep : addSizesLog2 (name :: names) sizeLog2 m =
        addSizesLog2 names sizeLog2 (m.modify name fun old => old.getD 0 + sizeLog2 name) := rfl
    rw [hstep, ih _ hnodup.2, MapVector.keys_modify]
    by_cases h : name ∈ m.keys
    · rw [if_pos h, filter_cons_of_neg (by simpa using h)]
    · have hrest : names.filter (fun d => decide (d ∉ m.keys ++ [name])) =
          names.filter fun d => decide (d ∉ m.keys) := by
        apply filter_congr
        intro d hd
        have hne : d ≠ name := by
          rintro rfl
          exact hnodup.1 hd
        simp [hne]
      rw [if_neg h, hrest, filter_cons_of_pos (by simpa using h), append_assoc]
      rfl

theorem find_addSizesLog2 (hnodup : names.Nodup) (name : String) :
    ((addSizesLog2 names sizeLog2 m).find name).getD 0 =
      (m.find name).getD 0 + if name ∈ names then sizeLog2 name else 0 := by
  induction names generalizing m with
  | nil => simp [addSizesLog2]
  | cons d names ih =>
    rw [nodup_cons] at hnodup
    have hstep : addSizesLog2 (d :: names) sizeLog2 m =
        addSizesLog2 names sizeLog2 (m.modify d fun old => old.getD 0 + sizeLog2 d) := rfl
    rw [hstep, ih _ hnodup.2, MapVector.find_modify]
    by_cases hd : name = d
    · subst hd
      simp [hnodup.1]
    · simp [hd]

end Sizes

section Product

variable (a b : LinearLayout)

/-- What the product of two layouts is, dimension by dimension. -/
structure IsProduct (L : RawLayout) : Prop where
  inDims : L.getInDimNames = a.getInDimNames ++ b.getInDimNames.filter (· ∉ a.getInDimNames)
  outDims : L.getOutDimNames = a.getOutDimNames ++ b.getOutDimNames.filter (· ∉ a.getOutDimNames)
  inSize : ∀ inDim, L.getInDimSizeLog2 inDim =
    a.getInDimSizeLog2 inDim + b.getInDimSizeLog2 inDim
  outSize : ∀ outDim, L.getOutDimSizeLog2 outDim =
    a.getOutDimSizeLog2 outDim + b.getOutDimSizeLog2 outDim
  basis : ∀ inDim i, ∀ outDim ∈ L.getOutDimNames, L.getBasis inDim i outDim =
    if i < a.getInDimSizeLog2 inDim then a.getBasis inDim i outDim
    else b.getBasis inDim (i - a.getInDimSizeLog2 inDim) outDim <<< a.getOutDimSizeLog2 outDim

def product : RawLayout :=
  ⟨productBases a b, (outDimSizesLog2 a b).mapEntries fun _ sizeLog2 => 2 ^ sizeLog2⟩

theorem keys_inDimSizesLog2 : (inDimSizesLog2 a b).keys =
    a.getInDimNames ++ b.getInDimNames.filter (· ∉ a.getInDimNames) := by
  rw [inDimSizesLog2, keys_addSizesLog2 _ _ _ (nodup_getInDimNames b.toRawLayout),
    keys_addSizesLog2 _ _ _ (nodup_getInDimNames a.toRawLayout)]
  simp [MapVector.keys, MapVector.empty]

theorem keys_outDimSizesLog2 : (outDimSizesLog2 a b).keys =
    a.getOutDimNames ++ b.getOutDimNames.filter (· ∉ a.getOutDimNames) := by
  rw [outDimSizesLog2, keys_addSizesLog2 _ _ _ (nodup_getOutDimNames b.toRawLayout),
    keys_addSizesLog2 _ _ _ (nodup_getOutDimNames a.toRawLayout)]
  simp [MapVector.keys, MapVector.empty]

theorem find_inDimSizesLog2 (inDim : String) : ((inDimSizesLog2 a b).find inDim).getD 0 =
    a.getInDimSizeLog2 inDim + b.getInDimSizeLog2 inDim := by
  rw [inDimSizesLog2, find_addSizesLog2 _ _ _ (nodup_getInDimNames b.toRawLayout),
    find_addSizesLog2 _ _ _ (nodup_getInDimNames a.toRawLayout)]
  have hempty : (MapVector.empty : MapVector ℕ).find inDim = none := rfl
  rw [hempty, Option.getD_none, Nat.zero_add]
  congr 1
  · split_ifs with h
    · rfl
    · exact (getInDimSizeLog2_of_notMem a.toRawLayout h).symm
  · split_ifs with h
    · rfl
    · exact (getInDimSizeLog2_of_notMem b.toRawLayout h).symm

theorem find_outDimSizesLog2 (outDim : String) : ((outDimSizesLog2 a b).find outDim).getD 0 =
    a.getOutDimSizeLog2 outDim + b.getOutDimSizeLog2 outDim := by
  rw [outDimSizesLog2, find_addSizesLog2 _ _ _ (nodup_getOutDimNames b.toRawLayout),
    find_addSizesLog2 _ _ _ (nodup_getOutDimNames a.toRawLayout)]
  have hempty : (MapVector.empty : MapVector ℕ).find outDim = none := rfl
  rw [hempty, Option.getD_none, Nat.zero_add]
  congr 1
  · split_ifs with h
    · rfl
    · exact (getOutDimSizeLog2_of_notMem a.toRawLayout h).symm
  · split_ifs with h
    · rfl
    · exact (getOutDimSizeLog2_of_notMem b.toRawLayout h).symm

/-- The checks on the names do not matter for the bases: where a name is missing
there is none. -/
theorem productBasis_eq (inDim : String) (i : ℕ) (outDim : String) :
    productBasis a b inDim i outDim =
      if i < a.getInDimSizeLog2 inDim then a.getBasis inDim i outDim
      else b.getBasis inDim (i - a.getInDimSizeLog2 inDim) outDim <<<
        a.getOutDimSizeLog2 outDim := by
  have hoffset : (if inDim ∈ a.getInDimNames then a.getInDimSizeLog2 inDim else 0) =
      a.getInDimSizeLog2 inDim := by
    split_ifs with h
    · rfl
    · exact (getInDimSizeLog2_of_notMem a.toRawLayout h).symm
  have hshift : (if outDim ∈ a.getOutDimNames then a.getOutDimSizeLog2 outDim else 0) =
      a.getOutDimSizeLog2 outDim := by
    split_ifs with h
    · rfl
    · exact (getOutDimSizeLog2_of_notMem a.toRawLayout h).symm
  rw [productBasis, hoffset, hshift]
  congr 1
  · split_ifs with h
    · rfl
    · exact (getBasis_of_notMem a h).symm
  · split_ifs with h
    · rfl
    · have hzero : b.getBasis inDim (i - a.getInDimSizeLog2 inDim) outDim = 0 := by
        by_cases hout : outDim ∈ b.getOutDimNames
        · have hin : inDim ∉ b.getInDimNames := fun hin => h ⟨hin, hout⟩
          apply getBasis_of_le
          rw [getInDimSizeLog2_of_notMem b.toRawLayout hin]
          exact Nat.zero_le _
        · exact getBasis_of_notMem b hout
      rw [hzero, Nat.zero_shiftLeft]

theorem isProduct_product : IsProduct a b (product a b) where
  inDims := by
    rw [RawLayout.getInDimNames, product, productBases, MapVector.keys_mapEntries,
      keys_inDimSizesLog2]
  outDims := by
    rw [RawLayout.getOutDimNames, product, MapVector.keys_mapEntries, keys_outDimSizesLog2]
  inSize := by
    intro inDim
    rw [← find_inDimSizesLog2, RawLayout.getInDimSizeLog2, product, productBases,
      MapVector.find_mapEntries]
    cases (inDimSizesLog2 a b).find inDim <;> simp
  outSize := by
    intro outDim
    rw [← find_outDimSizesLog2, RawLayout.getOutDimSizeLog2, product, MapVector.find_mapEntries]
    cases (outDimSizesLog2 a b).find outDim <;> simp [Nat.log2_two_pow]
  basis := by
    intro inDim i outDim hout
    rw [← productBasis_eq]
    have hkeys : (product a b).getOutDimNames = (outDimSizesLog2 a b).keys :=
      MapVector.keys_mapEntries _ _
    have hsize := find_inDimSizesLog2 a b inDim
    rw [RawLayout.getBasis]
    simp only [product, productBases, MapVector.find_mapEntries]
    by_cases hi : i < a.getInDimSizeLog2 inDim + b.getInDimSizeLog2 inDim
    · cases hfind : (inDimSizesLog2 a b).find inDim with
      | none =>
        rw [hfind, Option.getD_none] at hsize
        omega
      | some size =>
        rw [hfind, Option.getD_some] at hsize
        subst hsize
        have hrow : ((List.range (a.getInDimSizeLog2 inDim + b.getInDimSizeLog2 inDim)).map
            fun i => (outDimSizesLog2 a b).keys.map (productBasis a b inDim i)).getD i [] =
            (product a b).getOutDimNames.map (productBasis a b inDim i) := by
          rw [getD_eq_getElem _ _ (by simpa using hi), getElem_map, getElem_range,
            hkeys]
        have hlt := idxOf_lt_length_of_mem hout
        rw [Option.map_some, Option.getD_some, hrow]
        change ((product a b).getOutDimNames.map (productBasis a b inDim i)).getD
          ((product a b).getOutDimNames.idxOf outDim) 0 = _
        rw [getD_eq_getElem _ _ (by simpa using hlt), getElem_map, getElem_idxOf]
    · -- beyond the sizes both are zero
      have hright : productBasis a b inDim i outDim = 0 := by
        rw [productBasis_eq, if_neg (by omega), getBasis_of_le b.toRawLayout (by omega),
          Nat.zero_shiftLeft]
      rw [hright]
      cases hfind : (inDimSizesLog2 a b).find inDim with
      | none => simp
      | some size =>
        rw [hfind, Option.getD_some] at hsize
        have hrow : ((List.range size).map
            fun i => (outDimSizesLog2 a b).keys.map (productBasis a b inDim i)).getD i [] = [] := by
          rw [getD_eq_default _ _ (by simp; omega)]
        rw [Option.map_some, Option.getD_some, hrow, getD_nil]

end Product

section ProductValue

variable {a b : LinearLayout} {L : RawLayout} (h : IsProduct a b L) {outDim : String}
  (hout : outDim ∈ L.getOutDimNames)

include h hout

theorem dimColumn_product (inDim : String) : L.dimColumn inDim outDim =
    a.dimColumn inDim outDim ++
      (b.dimColumn inDim outDim).map (· <<< a.getOutDimSizeLog2 outDim) := by
  rw [RawLayout.dimColumn, h.inSize, range_add, map_append, map_map,
    RawLayout.dimColumn, RawLayout.dimColumn, map_map]
  congr 1
  · apply map_congr_left
    intro i hi
    rw [h.basis inDim i outDim hout, if_pos (mem_range.mp hi)]
  · apply map_congr_left
    intro i _
    rw [Function.comp_apply, Function.comp_apply, h.basis inDim _ outDim hout, if_neg (by omega),
      Nat.add_sub_cancel_left]

/-- The low bits of every input go to the inner layout, the others to the outer
one, whose output is shifted. -/
theorem value_product (ins : String → ℕ) : L.value outDim ins =
    a.value outDim ins ^^^ (b.value outDim fun inDim => ins inDim / 2 ^ a.getInDimSizeLog2 inDim) <<<
      a.getOutDimSizeLog2 outDim := by
  have hterm : ∀ inDim ∈ L.getInDimNames, combine (L.dimColumn inDim outDim) (ins inDim) =
      combine (a.dimColumn inDim outDim) (ins inDim) ^^^
        combine (b.dimColumn inDim outDim) (ins inDim / 2 ^ a.getInDimSizeLog2 inDim) <<<
          a.getOutDimSizeLog2 outDim := by
    intro inDim _
    rw [dimColumn_product h hout, combine_append, length_dimColumn,
      combine_map _ _ (· <<< a.getOutDimSizeLog2 outDim) (Nat.zero_shiftLeft _)
        fun _ _ => Nat.shiftLeft_xor_distrib]
  rw [RawLayout.value, xorSum_map_congr hterm, xorSum_map_xor]
  congr 1
  · -- the other dimensions add nothing to the inner output
    rw [h.inDims, map_append, xorSum_append, RawLayout.value]
    have hzero : xorSum ((b.getInDimNames.filter (· ∉ a.getInDimNames)).map fun inDim =>
        combine (a.dimColumn inDim outDim) (ins inDim)) = 0 := by
      apply xorSum_map_zero
      intro inDim hin
      have hnot : inDim ∉ a.getInDimNames := by simpa using (mem_filter.mp hin).2
      rw [dimColumn_of_notMem a.toRawLayout hnot, combine_nil]
    rw [hzero, Nat.xor_zero]
  · -- the dimensions of the outer layout, in another order, and some it does not have
    let f : String → ℕ := fun inDim =>
      combine (b.dimColumn inDim outDim) (ins inDim / 2 ^ a.getInDimSizeLog2 inDim)
    have hnames : (L.getInDimNames.filter (· ∈ b.getInDimNames)).Perm b.getInDimNames := by
      apply (perm_ext_iff_of_nodup ((nodup_getInDimNames L).filter _)
        (nodup_getInDimNames b.toRawLayout)).mpr
      intro inDim
      rw [mem_filter, h.inDims]
      by_cases hb : inDim ∈ b.getInDimNames <;> by_cases ha : inDim ∈ a.getInDimNames <;>
        simp [ha, hb]
    have hsplit : xorSum (L.getInDimNames.map f) = xorSum (b.getInDimNames.map f) := by
      rw [← xorSum_perm (hnames.map f)]
      apply xorSum_map_filter
      intro inDim _ hnot
      have hnot' : inDim ∉ b.getInDimNames := by simpa using hnot
      change combine (b.dimColumn inDim outDim) _ = 0
      rw [dimColumn_of_notMem b.toRawLayout hnot', combine_nil]
    rw [RawLayout.value, ← hsplit, ← xorSum_map (· <<< a.getOutDimSizeLog2 outDim)
      (Nat.zero_shiftLeft _) fun _ _ => Nat.shiftLeft_xor_distrib, map_map]
    rfl

end ProductValue

section ProductReaches

variable {a b : LinearLayout} {L : RawLayout} (h : IsProduct a b L)

include h

theorem reaches_product (ha : a.surjective = true) (hb : b.surjective = true) : L.Reaches := by
  intro target htarget
  obtain ⟨ia, hia, hva⟩ := a.surjective_iff_reaches.mp ha
    (fun o => target o % 2 ^ a.getOutDimSizeLog2 o) fun o _ => Nat.mod_lt _ (Nat.two_pow_pos _)
  obtain ⟨ib, hib, hvb⟩ := b.surjective_iff_reaches.mp hb
    (fun o => target o / 2 ^ a.getOutDimSizeLog2 o % 2 ^ b.getOutDimSizeLog2 o)
    fun o _ => Nat.mod_lt _ (Nat.two_pow_pos _)
  let ins : String → ℕ := fun d => ia d % 2 ^ a.getInDimSizeLog2 d +
    2 ^ a.getInDimSizeLog2 d * (ib d % 2 ^ b.getInDimSizeLog2 d)
  have hlow : ∀ d, ins d % 2 ^ a.getInDimSizeLog2 d = ia d % 2 ^ a.getInDimSizeLog2 d := by
    intro d
    change (_ + _ * _) % _ = _
    rw [Nat.add_mul_mod_self_left, Nat.mod_mod]
  have hhigh : ∀ d, ins d / 2 ^ a.getInDimSizeLog2 d = ib d % 2 ^ b.getInDimSizeLog2 d := by
    intro d
    change (_ + _ * _) / _ = _
    rw [Nat.add_mul_div_left _ _ (Nat.two_pow_pos _),
      Nat.div_eq_of_lt (Nat.mod_lt _ (Nat.two_pow_pos _)), Nat.zero_add]
  refine ⟨ins, fun d _ => ?_, fun o hout => ?_⟩
  · rw [h.inSize, Nat.pow_add, Nat.mul_comm, ← Nat.div_lt_iff_lt_mul (Nat.two_pow_pos _), hhigh]
    exact Nat.mod_lt _ (Nat.two_pow_pos _)
  · have hinner : a.value o ins = target o % 2 ^ a.getOutDimSizeLog2 o := by
      by_cases hmem : o ∈ a.getOutDimNames
      · rw [← hva o hmem]
        exact value_mod a.toRawLayout o fun d _ => hlow d
      · rw [value_of_notMem a hmem, getOutDimSizeLog2_of_notMem a.toRawLayout hmem]
        simp [Nat.mod_one]
    have houter : (b.value o fun d => ins d / 2 ^ a.getInDimSizeLog2 d) =
        target o / 2 ^ a.getOutDimSizeLog2 o % 2 ^ b.getOutDimSizeLog2 o := by
      by_cases hmem : o ∈ b.getOutDimNames
      · rw [← hvb o hmem]
        apply value_mod
        intro d _
        rw [hhigh, Nat.mod_mod]
      · rw [value_of_notMem b hmem, getOutDimSizeLog2_of_notMem b.toRawLayout hmem]
        simp [Nat.mod_one]
    have hquot : target o / 2 ^ a.getOutDimSizeLog2 o < 2 ^ b.getOutDimSizeLog2 o := by
      have hbound := htarget o hout
      rw [h.outSize, Nat.pow_add] at hbound
      exact Nat.div_lt_of_lt_mul hbound
    rw [value_product h hout, hinner, houter, Nat.mod_eq_of_lt hquot, xor_shiftLeft_eq
      (Nat.mod_lt _ (Nat.two_pow_pos _))]
    exact Nat.mod_add_div _ _

end ProductReaches

section Order

theorem sameOrder_of_disjoint {aDims bDims : List String} (h : ∀ dim ∈ aDims, dim ∉ bDims) :
    assertCommonDimsSameOrder aDims bDims = .ok () := by
  have ha : aDims.filter (bDims.contains ·) = [] := by
    rw [filter_eq_nil_iff]
    intro dim hdim
    simpa using h dim hdim
  have hb : bDims.filter (aDims.contains ·) = [] := by
    rw [filter_eq_nil_iff]
    intro dim hdim hmem
    exact h dim (by simpa using hmem) hdim
  rw [assertCommonDimsSameOrder, ha, hb, if_pos rfl]

theorem filter_mem_of_sublist {aDims bDims : List String} (hnodup : aDims.Nodup)
    (h : bDims.Sublist aDims) : aDims.filter (bDims.contains ·) = bDims := by
  induction h with
  | slnil => rfl
  | @cons bDims aDims a hsub ih =>
    rw [nodup_cons] at hnodup
    have hnot : ¬ bDims.contains a = true := by
      simpa using fun hmem => hnodup.1 (hsub.subset hmem)
    rw [filter_cons_of_neg hnot, ih hnodup.2]
  | @cons_cons bDims aDims a hsub ih =>
    rw [nodup_cons] at hnodup
    rw [filter_cons_of_pos (by simp)]
    congr 1
    rw [← ih hnodup.2]
    apply filter_congr
    intro dim hdim
    have hne : dim ≠ a := by
      rintro rfl
      exact hnodup.1 hdim
    rw [ih hnodup.2]
    simp [hne]

theorem sameOrder_of_sublist {aDims bDims : List String} (hnodup : aDims.Nodup)
    (h : bDims.Sublist aDims) : assertCommonDimsSameOrder aDims bDims = .ok () := by
  have hb : bDims.filter (aDims.contains ·) = bDims := by
    rw [filter_eq_self]
    intro dim hdim
    simpa using h.subset hdim
  rw [assertCommonDimsSameOrder, filter_mem_of_sublist hnodup h, hb, if_pos rfl]

end Order

section Totals

theorem sum_union {aDims bDims : List String} (ha : aDims.Nodup) (hb : bDims.Nodup)
    {f g : String → ℕ} (hf : ∀ dim, dim ∉ aDims → f dim = 0)
    (hg : ∀ dim, dim ∉ bDims → g dim = 0) :
    ((aDims ++ bDims.filter (· ∉ aDims)).map fun dim => f dim + g dim).sum =
      (aDims.map f).sum + (bDims.map g).sum := by
  have hrest : ((bDims.filter (· ∉ aDims)).map f).sum = 0 := by
    apply sum_eq_zero
    intro n hn
    obtain ⟨dim, hdim, rfl⟩ := mem_map.mp hn
    exact hf dim (by simpa using (mem_filter.mp hdim).2)
  have hcommon : (aDims.map g).sum = ((aDims.filter (· ∈ bDims)).map g).sum := by
    clear ha hrest hf
    induction aDims with
    | nil => rfl
    | cons a aDims ih =>
      by_cases hmem : a ∈ bDims
      · rw [filter_cons_of_pos (by simpa using hmem), map_cons, map_cons,
          sum_cons, sum_cons, ih]
      · rw [filter_cons_of_neg (by simpa using hmem), map_cons, sum_cons,
          hg a hmem, ih, Nat.zero_add]
  have hperm : (aDims.filter (· ∈ bDims) ++ bDims.filter (· ∉ aDims)).Perm bDims := by
    have hdisjoint : (aDims.filter (· ∈ bDims) ++ bDims.filter (· ∉ aDims)).Nodup := by
      apply nodup_append.mpr
      refine ⟨ha.filter _, hb.filter _, ?_⟩
      rintro dim hdim _ hdim' rfl
      have hnot : dim ∉ aDims := by simpa using (mem_filter.mp hdim').2
      exact hnot (mem_filter.mp hdim).1
    apply (perm_ext_iff_of_nodup hdisjoint hb).mpr
    intro dim
    rw [mem_append, mem_filter, mem_filter]
    by_cases hmem : dim ∈ aDims <;> by_cases hmem' : dim ∈ bDims <;> simp [hmem, hmem']
  rw [sum_map_add, map_append, map_append, sum_append, sum_append, hrest,
    Nat.add_zero, hcommon, ← sum_append, ← map_append, (hperm.map g).sum_eq]

variable {a b : LinearLayout} {L : RawLayout} (h : IsProduct a b L)

include h

theorem totalIn_product :
    L.getTotalInDimSizeLog2 = a.getTotalInDimSizeLog2 + b.getTotalInDimSizeLog2 := by
  have hsizes : L.getInDimNames.map L.getInDimSizeLog2 = L.getInDimNames.map fun d =>
      a.getInDimSizeLog2 d + b.getInDimSizeLog2 d := map_congr_left fun d _ => h.inSize d
  rw [RawLayout.getTotalInDimSizeLog2, hsizes, h.inDims,
    sum_union (nodup_getInDimNames _) (nodup_getInDimNames _)
      (fun d hd => getInDimSizeLog2_of_notMem a.toRawLayout hd)
      fun d hd => getInDimSizeLog2_of_notMem b.toRawLayout hd]
  rfl

theorem totalOut_product :
    L.getTotalOutDimSizeLog2 = a.getTotalOutDimSizeLog2 + b.getTotalOutDimSizeLog2 := by
  have hsizes : L.getOutDimNames.map L.getOutDimSizeLog2 = L.getOutDimNames.map fun d =>
      a.getOutDimSizeLog2 d + b.getOutDimSizeLog2 d := map_congr_left fun d _ => h.outSize d
  rw [RawLayout.getTotalOutDimSizeLog2, hsizes, h.outDims,
    sum_union (nodup_getOutDimNames _) (nodup_getOutDimNames _)
      (fun d hd => getOutDimSizeLog2_of_notMem a.toRawLayout hd)
      fun d hd => getOutDimSizeLog2_of_notMem b.toRawLayout hd]
  rfl

end Totals

section Mul

variable (f2 : F2Reduce) {a b : LinearLayout}

section Created

variable (houts : assertCommonDimsSameOrder a.getOutDimNames b.getOutDimNames = .ok ())
  (hins : assertCommonDimsSameOrder a.getInDimNames b.getInDimNames = .ok ())
  (hsize : ∀ outDim, a.getOutDimSizeLog2 outDim + b.getOutDimSizeLog2 outDim < 31)
  (hcols : a.getTotalInDimSizeLog2 + b.getTotalInDimSizeLog2 ≤ 64)

include houts hins hsize hcols

theorem mul_created (hrows : a.getTotalOutDimSizeLog2 + b.getTotalOutDimSizeLog2 ≤ 64) :
    ∃ L : LinearLayout, mul f2 a b = .ok L ∧ IsProduct a b L.toRawLayout ∧
      (a.surjective = true → b.surjective = true → L.surjective = true) := by
  have hproduct := isProduct_product a b
  have hentries : ∀ e ∈ (outDimSizesLog2 a b).entries, e.2 < 31 := by
    intro e he
    have hfind := find_outDimSizesLog2 a b e.1
    rw [MapVector.find_of_mem he, Option.getD_some] at hfind
    rw [hfind]
    exact hsize e.1
  have hsizes : ((outDimSizesLog2 a b).entries.mapM fun e => do
      let size ← shiftOne e.2
      pure (e.1, size)) = .ok ((outDimSizesLog2 a b).entries.map fun e => (e.1, 2 ^ e.2)) := by
    apply mapM_ok
    intro e he
    rw [shiftOne_ok (hentries e he)]
    rfl
  have hbuild : MapVector.build (fun _ size => size)
      ((outDimSizesLog2 a b).entries.map fun e => (e.1, 2 ^ e.2)) = (product a b).outDims := by
    apply MapVector.ext
    rw [entries_build_sizes]
    · rfl
    · rw [map_map]
      exact (outDimSizesLog2 a b).nodup
  have hlen : ∀ basis ∈ (product a b).flatBases,
      basis.length = (product a b).outDims.values.length := by
    intro basis hbasis
    obtain ⟨bs, hbs, hmem⟩ := mem_flatten.mp hbasis
    obtain ⟨e, he, rfl⟩ := mem_map.mp hbs
    obtain ⟨e', _, rfl⟩ := mem_map.mp he
    obtain ⟨i, _, rfl⟩ := mem_map.mp hmem
    simp [product, MapVector.mapEntries]
  have hpow : ∀ size ∈ (product a b).outDims.values, isPowerOf2_32 size = true := by
    intro size hsize'
    obtain ⟨e, he, rfl⟩ := mem_map.mp hsize'
    obtain ⟨e', he', rfl⟩ := mem_map.mp he
    exact isPowerOf2_32_iff.mpr ⟨e'.2, hentries e' he', rfl⟩
  have hlt : ∀ inDim i, ∀ outDim ∈ (product a b).getOutDimNames,
      (product a b).getBasis inDim i outDim < 2 ^ (product a b).getOutDimSizeLog2 outDim := by
    intro inDim i outDim hout
    rw [hproduct.basis inDim i outDim hout, hproduct.outSize, Nat.pow_add]
    split_ifs
    · exact (getBasis_lt a).trans_le (Nat.le_mul_of_pos_right _ (Nat.two_pow_pos _))
    · rw [Nat.shiftLeft_eq, Nat.mul_comm]
      exact Nat.mul_lt_mul_of_pos_left (getBasis_lt b) (Nat.two_pow_pos _)
  -- the rank check cannot fail: it is only made when both factors are surjective
  have hreach : (a.surjective && b.surjective) = true → (product a b).Reaches := by
    intro hsurj
    rw [Bool.and_eq_true] at hsurj
    exact reaches_product hproduct hsurj.1 hsurj.2
  obtain ⟨L, hcreate, hraw, hsurj⟩ := create_of_getBasis f2 (product a b)
    (a.surjective && b.surjective) hlen hpow hlt (by rw [totalIn_product hproduct]; exact hcols)
    (by rw [totalOut_product hproduct]; exact hrows) hreach
  refine ⟨L, ?_, hraw ▸ hproduct, fun ha hb => hsurj (reaches_product hproduct ha hb)⟩
  rw [mul, houts, hins, hsizes]
  change create f2 ⟨productBases a b, MapVector.build (fun _ size => size) _⟩ _ = _
  rw [hbuild]
  exact hcreate

theorem mul_ok (ha : a.surjective = true) (hb : b.surjective = true) :
    ∃ L : LinearLayout, mul f2 a b = .ok L ∧ IsProduct a b L.toRawLayout ∧
      L.surjective = true := by
  have hrank : ∀ c : LinearLayout, c.surjective = true →
      c.getTotalOutDimSizeLog2 ≤ c.getTotalInDimSizeLog2 := by
    intro c hc
    have hle := le_length_of_onto (c.surjective_iff.mp hc)
    rwa [length_flatColumns] at hle
  have hrows := Nat.add_le_add (hrank a ha) (hrank b hb)
  obtain ⟨L, hmul, hproduct, hsurj⟩ := mul_created f2 houts hins hsize hcols (hrows.trans hcols)
  exact ⟨L, hmul, hproduct, hsurj ha hb⟩

end Created

/-- The product in terms of what the code returns: the low bits of every input
go to the inner layout, the others to the outer one, and the outputs are added
up. A layout that has no such dimension adds nothing. -/
theorem mul_apply (f2 : F2Reduce) (inner outer : LinearLayout)
    (houts : inner.getOutDimNames.filter (outer.getOutDimNames.contains ·) =
      outer.getOutDimNames.filter (inner.getOutDimNames.contains ·))
    (hins : inner.getInDimNames.filter (outer.getInDimNames.contains ·) =
      outer.getInDimNames.filter (inner.getInDimNames.contains ·))
    (hinSize : ∀ inDim, inner.getInDimSizeLog2 inDim + outer.getInDimSizeLog2 inDim ≤ 31)
    (houtSize : ∀ outDim, inner.getOutDimSizeLog2 outDim + outer.getOutDimSizeLog2 outDim < 31)
    (hcols : inner.getTotalInDimSizeLog2 + outer.getTotalInDimSizeLog2 ≤ 64)
    (hrows : inner.getTotalOutDimSizeLog2 + outer.getTotalOutDimSizeLog2 ≤ 64) :
    ∃ L : LinearLayout, mul f2 inner outer = .ok L ∧
      L.getInDimNames = inner.getInDimNames ++
        outer.getInDimNames.filter (· ∉ inner.getInDimNames) ∧
      L.getOutDimNames = inner.getOutDimNames ++
        outer.getOutDimNames.filter (· ∉ inner.getOutDimNames) ∧
      (∀ ins : String → ℕ, (∀ inDim ∈ L.getInDimNames,
          ins inDim < 2 ^ (inner.getInDimSizeLog2 inDim + outer.getInDimSizeLog2 inDim)) →
        ∃ innerOuts outerOuts,
          inner.apply (inner.getInDimNames.map fun inDim =>
            (inDim, ins inDim % 2 ^ inner.getInDimSizeLog2 inDim)) = .ok innerOuts ∧
          outer.apply (outer.getInDimNames.map fun inDim =>
            (inDim, ins inDim / 2 ^ inner.getInDimSizeLog2 inDim)) = .ok outerOuts ∧
          L.apply (L.getInDimNames.map fun inDim => (inDim, ins inDim)) =
            .ok (L.getOutDimNames.map fun outDim => (outDim, (innerOuts.lookup outDim).getD 0 +
              (outerOuts.lookup outDim).getD 0 <<< inner.getOutDimSizeLog2 outDim))) ∧
      (inner.surjective = true → outer.surjective = true → L.surjective = true) := by
  obtain ⟨L, hmul, hproduct, hsurj⟩ := mul_created f2 (if_pos houts) (if_pos hins) houtSize hcols
    hrows
  refine ⟨L, hmul, hproduct.inDims, hproduct.outDims, fun ins hfit => ?_, hsurj⟩
  have hinner : inner.apply (inner.getInDimNames.map fun inDim =>
      (inDim, ins inDim % 2 ^ inner.getInDimSizeLog2 inDim)) =
      .ok (inner.getOutDimNames.map fun outDim => (outDim, inner.value outDim ins)) := by
    have hlow : ∀ inDim ∈ inner.getInDimNames, ins inDim % 2 ^ inner.getInDimSizeLog2 inDim <
        2 ^ inner.getInDimSizeLog2 inDim := fun _ _ => Nat.mod_lt _ (Nat.two_pow_pos _)
    rw [apply_eq_value inner.toRawLayout hlow fun inDim _ =>
      (Nat.le_add_right _ _).trans (hinSize inDim)]
    congr 1
    apply map_congr_left
    intro outDim _
    congr 1
    exact value_mod inner.toRawLayout outDim fun inDim _ => Nat.mod_mod _ _
  have houter : outer.apply (outer.getInDimNames.map fun inDim =>
      (inDim, ins inDim / 2 ^ inner.getInDimSizeLog2 inDim)) =
      .ok (outer.getOutDimNames.map fun outDim => (outDim, outer.value outDim fun inDim =>
        ins inDim / 2 ^ inner.getInDimSizeLog2 inDim)) := by
    apply apply_eq_value outer.toRawLayout
    · intro inDim hin
      have hmem : inDim ∈ L.getInDimNames := by
        rw [hproduct.inDims, mem_append, mem_filter]
        by_cases ha : inDim ∈ inner.getInDimNames <;> simp [ha, hin]
      have hlt := hfit inDim hmem
      rw [Nat.pow_add] at hlt
      exact Nat.div_lt_of_lt_mul hlt
    · exact fun inDim _ => (Nat.le_add_left _ _).trans (hinSize inDim)
  refine ⟨_, _, hinner, houter, ?_⟩
  rw [apply_eq_value L.toRawLayout (fun inDim hin => by rw [hproduct.inSize]; exact hfit inDim hin)
    fun inDim _ => by rw [hproduct.inSize]; exact hinSize inDim]
  congr 1
  apply map_congr_left
  intro outDim hout
  rw [lookup_value, lookup_value outer outDim, value_product hproduct hout,
    xor_shiftLeft_eq (value_lt inner ins), Nat.shiftLeft_eq, Nat.mul_comm]

/-- `(lane) -> (dim0 = lane)`, four elements. -/
def fourLanes : LinearLayout :=
  oneInputLayout "lane" [[1], [2]] ⟨[("dim0", 4)], by decide⟩
    (by decide) (by decide) (by decide) (by decide)

/-- `(lane) -> (dim0 = lane % 2, dim1 = lane / 2)`, two by two elements. -/
def squareLanes : LinearLayout :=
  oneInputLayout "lane" [[1, 0], [0, 1]] ⟨[("dim0", 2), ("dim1", 2)], by decide⟩
    (by decide) (by decide) (by decide) (by decide)

theorem mul_apply_square : ∃ L : LinearLayout, mul f2reduce fourLanes squareLanes = .ok L ∧
    L.apply [("lane", 13)] = .ok [("dim0", 5), ("dim1", 1)] := by
  have hinSize : ∀ inDim, fourLanes.getInDimSizeLog2 inDim + squareLanes.getInDimSizeLog2 inDim ≤
      31 := by
    intro inDim
    by_cases h : inDim = "lane"
    · subst h
      decide
    · rw [getInDimSizeLog2_of_notMem _ (show inDim ∉ ["lane"] by simpa using h),
        getInDimSizeLog2_of_notMem _ (show inDim ∉ ["lane"] by simpa using h)]
      omega
  have houtSize : ∀ outDim, fourLanes.getOutDimSizeLog2 outDim +
      squareLanes.getOutDimSizeLog2 outDim < 31 := by
    intro outDim
    by_cases h : outDim ∈ ["dim0", "dim1"]
    · revert outDim
      decide
    · rw [getOutDimSizeLog2_of_notMem _ (show outDim ∉ ["dim0"] by simp at h ⊢; exact h.1),
        getOutDimSizeLog2_of_notMem _ (show outDim ∉ ["dim0", "dim1"] from h)]
      omega
  obtain ⟨L, hmul, hins, houts, happly, -⟩ := mul_apply f2reduce fourLanes squareLanes (by decide)
    (by decide) hinSize houtSize (by decide) (by decide)
  have hlane : L.getInDimNames = ["lane"] := hins
  have hdims : L.getOutDimNames = ["dim0", "dim1"] := houts
  have hfit : ∀ inDim ∈ L.getInDimNames, 13 <
      2 ^ (fourLanes.getInDimSizeLog2 inDim + squareLanes.getInDimSizeLog2 inDim) := by
    rw [hlane]
    decide
  obtain ⟨innerOuts, outerOuts, hinner, houter, hvalue⟩ := happly (fun _ => 13) hfit
  have hinner' : fourLanes.apply [("lane", 1)] = .ok [("dim0", 1)] := by decide +kernel
  have houter' : squareLanes.apply [("lane", 3)] = .ok [("dim0", 1), ("dim1", 1)] := by
    decide +kernel
  obtain rfl := Except.ok.inj (hinner.symm.trans hinner')
  obtain rfl := Except.ok.inj (houter.symm.trans houter')
  rw [hlane, hdims] at hvalue
  exact ⟨L, hmul, hvalue⟩

end Mul

end TritonCpu
