import TritonCpu.LayoutConstruct

/-!
# Layouts built dimension by dimension

A layout is extended by one output dimension after the other, all of them fed by
the same input dimension: the coordinate of the input is divided into digits, one
for each output dimension, the first of them the lowest.
-/

set_option autoImplicit false

namespace TritonCpu

open LinearLayout List

section Digits

variable {α : Type} [DecidableEq α]

/-- The digit of `x` that belongs to `a`. The digit of `d` has `width d` bits. -/
def digitOf (width : α → ℕ) : List α → α → ℕ → ℕ
  | [], _, _ => 0
  | d :: dims, a, x => if d = a then x % 2 ^ width d else digitOf width dims a (x / 2 ^ width d)

variable {width : α → ℕ} {dims : List α} {a : α}

theorem digitOf_of_notMem (h : a ∉ dims) (x : ℕ) : digitOf width dims a x = 0 := by
  induction dims generalizing x with
  | nil => rfl
  | cons d dims ih =>
    rw [mem_cons, not_or] at h
    rw [digitOf, if_neg (Ne.symm h.1), ih h.2]

theorem digitOf_lt (x : ℕ) : digitOf width dims a x < 2 ^ width a := by
  induction dims generalizing x with
  | nil => exact Nat.two_pow_pos _
  | cons d dims ih =>
    rw [digitOf]
    split_ifs with h
    · rw [h]
      exact Nat.mod_lt _ (Nat.two_pow_pos _)
    · exact ih _

end Digits

namespace LayoutSpec

/-- The layout with one more digit of `inDim` for each of `dims`. Of the digit's
`width` bits the low `size` are used. -/
def appendDigits (s : LayoutSpec) (inDim : String) (dims : List String)
    (width size : String → ℕ) : LayoutSpec where
  inDims := if dims = [] then s.inDims else s.inDims ++ [inDim].filter (· ∉ s.inDims)
  inLog d := s.inLog d + if d = inDim then (dims.map width).sum else 0
  outDims := s.outDims ++ dims.filter (· ∉ s.outDims)
  outLog o := s.outLog o + if o ∈ dims then size o else 0
  value o ins := s.value o ins +
    2 ^ s.outLog o * (digitOf width dims o (ins inDim / 2 ^ s.inLog inDim) % 2 ^ size o)

variable (s : LayoutSpec) (inDim : String) (width size : String → ℕ)

theorem appendDigits_nil : s.appendDigits inDim [] width size = s := by
  simp [appendDigits, digitOf]

theorem appendDigits_singleton (o : String) (hle : size o ≤ width o) :
    s.appendDigits inDim [o] width size = s.mul (oneDim (width o) (size o) inDim o) := by
  refine LayoutSpec.ext rfl ?_ rfl ?_ ?_
  · funext d
    simp [appendDigits, mul, oneDim]
  · funext o'
    simp only [appendDigits, mul, oneDim]
    by_cases h : o' = o
    · simp [h]
    · simp [h]
  · funext o' ins
    simp only [appendDigits, mul, oneDim]
    by_cases h : o' = o
    · rw [h, digitOf, if_pos rfl, if_pos rfl, Nat.mod_mod_of_dvd _ (Nat.pow_dvd_pow 2 hle)]
    · rw [digitOf, if_neg (Ne.symm h), if_neg h, digitOf, Nat.zero_mod]

theorem appendDigits_cons {o : String} {dims : List String} (hnot : o ∉ dims) :
    (s.appendDigits inDim [o] width size).appendDigits inDim dims width size =
      s.appendDigits inDim (o :: dims) width size := by
  refine LayoutSpec.ext ?_ ?_ ?_ ?_ ?_
  · simp only [appendDigits, if_neg (cons_ne_nil _ _)]
    by_cases h : inDim ∈ s.inDims <;> simp [h]
  · funext d
    by_cases h : d = inDim
    · simp [appendDigits, h, Nat.add_assoc]
    · simp [appendDigits, h]
  · have hone : (s.appendDigits inDim [o] width size).outDims =
        s.outDims ++ [o].filter (· ∉ s.outDims) := rfl
    have hrest : dims.filter (· ∉ (s.appendDigits inDim [o] width size).outDims) =
        dims.filter (· ∉ s.outDims) := by
      apply filter_congr
      intro d hd
      have hne : d ≠ o := by
        rintro rfl
        exact hnot hd
      rw [hone]
      by_cases h : o ∈ s.outDims <;> simp [h, hne]
    change (s.appendDigits inDim [o] width size).outDims ++
      dims.filter (· ∉ (s.appendDigits inDim [o] width size).outDims) =
        s.outDims ++ (o :: dims).filter (· ∉ s.outDims)
    rw [hrest, hone]
    by_cases h : o ∈ s.outDims
    · rw [filter_cons_of_neg (by simpa using h), filter_nil, append_nil,
        filter_cons_of_neg (by simpa using h)]
    · rw [filter_cons_of_pos (by simpa using h), filter_nil,
        filter_cons_of_pos (by simpa using h), append_assoc, singleton_append]
  · funext d
    by_cases h : d = o
    · simp [appendDigits, h, hnot]
    · simp [appendDigits, h]
  · funext o' ins
    by_cases h : o' = o
    · subst h
      simp [appendDigits, digitOf, digitOf_of_notMem hnot]
    · simp [appendDigits, digitOf, h, Ne.symm h, Nat.pow_add, Nat.div_div_eq_div_mul]

end LayoutSpec

section Fold

variable {s : LayoutSpec} (inDim : String) (width size : String → ℕ)

theorem sameOrder_singleton {L : LinearLayout} (h : Computes L s) (o : String) :
    assertCommonDimsSameOrder s.outDims [o] = .ok () ∧
      assertCommonDimsSameOrder s.inDims [inDim] = .ok () := by
  have hall : ∀ {names : List String} (dim : String), names.Nodup →
      assertCommonDimsSameOrder names [dim] = .ok () := by
    intro names dim hnodup
    by_cases hmem : dim ∈ names
    · exact sameOrder_of_sublist hnodup (singleton_sublist.mpr hmem)
    · apply sameOrder_of_disjoint
      intro d hd
      rw [mem_singleton]
      rintro rfl
      exact hmem hd
  exact ⟨hall o (h.outDims ▸ nodup_getOutDimNames L.toRawLayout),
    hall inDim (h.inDims ▸ nodup_getInDimNames L.toRawLayout)⟩

theorem total_oneDim (n m : ℕ) (i o : String) : (LayoutSpec.oneDim n m i o).total = n := by
  simp [LayoutSpec.total, LayoutSpec.oneDim]

theorem oneDim_follows {L : LinearLayout} {o : String} (h : Computes L s)
    (hsize : s.outLog o + size o < 31) (hcols : s.total + width o ≤ 64) :
    (∀ outDim, s.outLog outDim +
      (LayoutSpec.oneDim (width o) (size o) inDim o).outLog outDim < 31) ∧
      s.total + (LayoutSpec.oneDim (width o) (size o) inDim o).total ≤ 64 := by
  constructor
  · intro o'
    by_cases ho : o' = o
    · simpa [LayoutSpec.oneDim, ho] using hsize
    · simp only [LayoutSpec.oneDim, if_neg ho, Nat.add_zero]
      exact h.outLog_lt o'
  · rw [total_oneDim]
    exact hcols

theorem mul_oneDim_computes (f2 : F2Reduce) {L factor : LinearLayout} {o : String}
    (h : Computes L s)
    (hfactor : Computes factor (LayoutSpec.oneDim (width o) (size o) inDim o))
    (hle : size o ≤ width o) (hsize : s.outLog o + size o < 31)
    (hcols : s.total + width o ≤ 64) : ∃ L' : LinearLayout, mul f2 L factor = .ok L' ∧
      Computes L' (s.appendDigits inDim [o] width size) := by
  obtain ⟨houts, hins⟩ := sameOrder_singleton inDim h o
  obtain ⟨hlogs, htotal⟩ := oneDim_follows inDim width size h hsize hcols
  rw [LayoutSpec.appendDigits_singleton s inDim width size o hle]
  obtain ⟨L', hmul, -, hL'⟩ := mul_computes f2 h hfactor houts hins hlogs htotal
  exact ⟨L', hmul, hL'⟩

theorem mul_oneDim (f2 : F2Reduce) {L factor : LinearLayout} {o : String} (h : Describes L s)
    (hfactor : Describes factor (LayoutSpec.oneDim (width o) (size o) inDim o))
    (hle : size o ≤ width o) (hsize : s.outLog o + size o < 31)
    (hcols : s.total + width o ≤ 64) : ∃ L' : LinearLayout, mul f2 L factor = .ok L' ∧
      Describes L' (s.appendDigits inDim [o] width size) := by
  obtain ⟨houts, hins⟩ := sameOrder_singleton inDim h.computes o
  obtain ⟨hlogs, htotal⟩ := oneDim_follows inDim width size h.computes hsize hcols
  rw [LayoutSpec.appendDigits_singleton s inDim width size o hle]
  exact mul_describes f2 h hfactor houts hins hlogs htotal

theorem total_appendDigits {L : LinearLayout} (h : Computes L s) (o : String)
    (hle : size o ≤ width o) :
    (s.appendDigits inDim [o] width size).total = s.total + width o := by
  have hzero : ∀ d, d ∉ s.inDims → s.inLog d = 0 := by
    intro d hd
    rw [← h.inSize, getInDimSizeLog2_of_notMem L.toRawLayout (h.inDims ▸ hd)]
  have hfactor : ∀ d, d ∉ [inDim] →
      (LayoutSpec.oneDim (width o) (size o) inDim o).inLog d = 0 := by
    intro d hd
    exact if_neg (by simpa using hd)
  have hsum := sum_union (h.inDims ▸ nodup_getInDimNames L.toRawLayout) (nodup_singleton _)
    hzero hfactor
  have hone := total_oneDim (width o) (size o) inDim o
  rw [LayoutSpec.appendDigits_singleton s inDim width size o hle]
  exact hsum.trans (congrArg (s.total + ·) hone)

theorem foldlM_appendDigits {α : Type} (name : α → String)
    (step : LinearLayout → α → Except LayoutError LinearLayout) (dims : List α)
    (hnodup : (dims.map name).Nodup) {P : LinearLayout → LayoutSpec → Prop}
    (hcomputes : ∀ {L s}, P L s → Computes L s) {L : LinearLayout} (h : P L s)
    (hle : ∀ d ∈ dims, size (name d) ≤ width (name d))
    (hsize : ∀ d ∈ dims, s.outLog (name d) + size (name d) < 31)
    (hcols : s.total + ((dims.map name).map width).sum ≤ 64)
    (hstep : ∀ d ∈ dims, ∀ (L : LinearLayout) (t : LayoutSpec), P L t →
      t.outLog (name d) = s.outLog (name d) → s.inDims ⊆ t.inDims → s.outDims ⊆ t.outDims →
      t.total + width (name d) ≤ 64 → ∃ L' : LinearLayout, step L d = .ok L' ∧
        P L' (t.appendDigits inDim [name d] width size)) :
    ∃ L' : LinearLayout, dims.foldlM step L = .ok L' ∧
      P L' (s.appendDigits inDim (dims.map name) width size) ∧
      (s.appendDigits inDim (dims.map name) width size).total =
        s.total + ((dims.map name).map width).sum := by
  induction dims generalizing s L with
  | nil =>
    refine ⟨L, rfl, ?_, ?_⟩
    · rwa [map_nil, LayoutSpec.appendDigits_nil]
    · rw [map_nil, LayoutSpec.appendDigits_nil]
      rfl
  | cons d dims ih =>
    rw [map_cons, nodup_cons] at hnodup
    rw [map_cons, map_cons, sum_cons] at hcols
    obtain ⟨L₁, hfirst, hL₁⟩ := hstep d mem_cons_self L s h rfl (List.Subset.refl _)
      (List.Subset.refl _) (by omega)
    have hout : ∀ d' ∈ dims, (s.appendDigits inDim [name d] width size).outLog (name d') =
        s.outLog (name d') := by
      intro d' hd'
      have hne : name d' ≠ name d := by
        intro heq
        exact hnodup.1 (heq ▸ mem_map_of_mem hd')
      simp [LayoutSpec.appendDigits, hne]
    have htotal := total_appendDigits inDim width size (hcomputes h) (name d) (hle d mem_cons_self)
    obtain ⟨L₂, hrest, hL₂, htotal₂⟩ := ih hnodup.2 hL₁
      (fun d' hd' => hle d' (mem_cons_of_mem _ hd'))
      (fun d' hd' => by
        rw [hout d' hd']
        exact hsize d' (mem_cons_of_mem _ hd'))
      (by omega)
      (fun d' hd' L' t ht hlog hins houts hfit => by
        apply hstep d' (mem_cons_of_mem _ hd') L' t ht (hlog.trans (hout d' hd')) _ _ hfit
        · refine List.Subset.trans (fun i hi => ?_) hins
          simp [LayoutSpec.appendDigits, hi]
        · refine List.Subset.trans (fun o ho => ?_) houts
          simp [LayoutSpec.appendDigits, ho])
    rw [LayoutSpec.appendDigits_cons s inDim width size hnodup.1] at hL₂ htotal₂
    refine ⟨L₂, ?_, hL₂, ?_⟩
    · rw [foldlM_cons, hfirst]
      exact hrest
    · rw [map_cons, htotal₂, htotal, map_cons, sum_cons, Nat.add_assoc]

end Fold

end TritonCpu
