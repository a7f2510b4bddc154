import TritonCpu.Reassociation

/-!
# Collapsing reductions

`CollapseReduce` merges neighbouring dimensions that are not reduced, and reduces the
groups. It builds the new operation from the first input and the first init only, and
gives both the element type of the input.
-/

set_option autoImplicit false

namespace TritonCpu.CollapseReduce
open TritonIR FlatTensor Reassociation List

variable {E Value : Type}

/-! `linalg.reduce`. -/

/-- A combine region; its arguments are the elements, then the accumulators. -/
structure Region (E Value : Type) where
  argTypes : List E
  yieldTypes : List E
  call : List Value → List Value

structure ReduceOp (E Value : Type) where
  shape : List ℕ
  dims : List ℕ
  inputs : List (Tensor E Value)
  inits : List (Tensor E Value)
  region : Region E Value

namespace ReduceOp

variable (op : ReduceOp E Value)

def rank : ℕ := op.shape.length

def reducedDims : List ℕ := (List.range op.rank).filter fun d => d ∈ op.dims

def keptDims : List ℕ := (List.range op.rank).filter fun d => d ∉ op.dims

def resultShape : List ℕ := op.keptDims.map (dimSize op.shape)

/-- What the verifier asks. -/
structure Verified : Prop where
  inputs_ne : op.inputs ≠ []
  inits_length : op.inits.length = op.inputs.length
  dims_sorted : op.dims.Pairwise (· < ·)
  dims_lt : ∀ d ∈ op.dims, d < op.rank
  input_shape : ∀ input ∈ op.inputs, input.shape = op.shape
  init_shape : ∀ init ∈ op.inits, init.shape = op.resultShape
  argTypes : op.region.argTypes =
    op.inputs.map Tensor.elementType ++ op.inits.map Tensor.elementType
  yieldTypes : op.region.yieldTypes = op.inits.map Tensor.elementType

/-- The accumulators at a position of the results, after all elements of its lines. -/
def reduceAt (out : List ℕ) : List Value :=
  (positions (op.reducedDims.map (dimSize op.shape))).foldl
    (fun acc reduced => op.region.call (op.inputs.map (fun input => input.elements
      (mergeIndex ((List.range op.rank).map fun d => d ∈ op.dims) out reduced)) ++ acc))
    (op.inits.map fun init => init.elements out)

variable [Inhabited Value]

def results : List (Tensor E Value) :=
  op.inits.zipIdx.map fun init =>
    ⟨op.resultShape, init.1.elementType, fun out => (op.reduceAt out).getD init.2 default⟩

end ReduceOp

/-! The pattern for reductions. -/

structure CollapsedReduce (E Value : Type) where
  input : Tensor E Value
  reassociationMap : List (List ℕ)
  init : Tensor E Value
  reassociationMapOutput : List (List ℕ)
  newReduce : ReduceOp E Value

namespace ReduceOp

variable (op : ReduceOp E Value)

def startsGroup (i : ℕ) : Bool := i ∈ op.dims || i - 1 ∈ op.dims

/-- The loop over the dimensions; it records `newDims`. -/
def groupDims : CollapseState ℕ :=
  collapseLoop op.startsGroup (fun i => i ∈ op.dims) (dimSize op.shape) op.rank

/-- The operations that replace a reduction; `none` leaves it as it is. -/
def collapse : Option (CollapsedReduce E Value) :=
  match op.inputs, op.inits with
  | input :: _, init :: _ =>
    if op.rank - op.dims.length ≤ 1 then none
    else if op.groupDims.collapseShape.length = op.rank then none
    else
      let s := op.groupDims
      let newDims := s.recorded
      let kept := (List.range s.collapseShape.length).filter fun g => g ∉ newDims
      let collapseShapeOutput := kept.map fun g => s.collapseShape.getD g 0
      let reassociationMapOutput := numberGroups <|
        ((List.range s.reassociationMap.length).filter fun g => g ∉ newDims).map fun g =>
          (s.reassociationMap.getD g []).length
      let newInput := collapseShapeOp input s.collapseShape input.elementType s.reassociationMap
      let newInit := collapseShapeOp init collapseShapeOutput input.elementType
        reassociationMapOutput
      some
        { input := newInput
          reassociationMap := s.reassociationMap
          init := newInit
          reassociationMapOutput
          newReduce := ⟨s.collapseShape, newDims, [newInput], [newInit], op.region⟩ }
  | _, _ => none

variable [Inhabited Value]

def replacement (c : CollapsedReduce E Value) : List (Tensor E Value) :=
  match c.newReduce.results, op.results with
  | newResult :: _, result :: _ =>
    [expandShapeOp newResult result.shape result.elementType c.reassociationMapOutput]
  | _, _ => []

/-- The operations are valid, and each result has a replacement that is the same. -/
structure Replaced (c : CollapsedReduce E Value) : Prop where
  input : ∀ input ∈ op.inputs.head?, ReshapeVerified input c.input c.reassociationMap
  init : ∀ init ∈ op.inits.head?, ReshapeVerified init c.init c.reassociationMapOutput
  reduce : c.newReduce.Verified
  expand : ∀ result ∈ op.results.head?, ∀ newResult ∈ c.newReduce.results.head?,
    ReshapeVerified result newResult c.reassociationMapOutput
  results : List.Forall₂ Same (op.replacement c) op.results

/-- The pattern leaves the operation, or replaces it by operations with the same results. -/
def Preserved : Prop := ∀ c, op.collapse = some c → op.Replaced c

end ReduceOp

/-! Reduced and kept entries. -/

section Entries

variable {n : ℕ} {p : ℕ → Bool} {size : ℕ → ℕ} {out reduced : List ℕ} {groups : List (List ℕ)}

theorem mergeIndex_map {β : Type} (l : List β) (p : β → Bool) (e : β → ℕ) :
    mergeIndex (l.map p) ((l.filter fun x => !p x).map e) ((l.filter p).map e) = l.map e := by
  induction l with
  | nil => rfl
  | cons x l ih => by_cases hx : p x = true <;> simp [hx, mergeIndex, ih]

theorem exists_entry
    (hout : InBounds (((List.range n).filter fun d => !p d).map size) out)
    (hreduced : InBounds (((List.range n).filter p).map size) reduced) :
    ∃ entry : ℕ → ℕ, out = ((List.range n).filter fun d => !p d).map entry ∧
      reduced = ((List.range n).filter p).map entry ∧ ∀ d < n, entry d < size d := by
  obtain ⟨hkept, hkeptBound⟩ := map_entryAt (List.nodup_range.filter _) hout
  obtain ⟨hred, hredBound⟩ := map_entryAt (List.nodup_range.filter _) hreduced
  refine ⟨fun d => if p d then entryAt ((List.range n).filter p) reduced d
    else entryAt ((List.range n).filter fun d => !p d) out d, ?_, ?_, fun d hd => ?_⟩
  · conv_lhs => rw [← hkept]
    refine map_congr_left fun d hd => (if_neg ?_).symm
    simpa using of_mem_filter hd
  · conv_lhs => rw [← hred]
    exact map_congr_left fun d hd => (if_pos (of_mem_filter hd)).symm
  · by_cases hp : p d = true
    · exact (if_pos hp).trans_lt (hredBound d (mem_filter.mpr ⟨mem_range.mpr hd, hp⟩))
    · exact (if_neg hp).trans_lt
        (hkeptBound d (mem_filter.mpr ⟨mem_range.mpr hd, by simpa using hp⟩))

def Separated (p : ℕ → Bool) (groups : List (List ℕ)) : Prop :=
  ∀ group ∈ groups, (∃ d, group = [d] ∧ p d = true) ∨ group ≠ [] ∧ ∀ d ∈ group, p d = false

/-- The kept groups hold the kept dimensions, the others one reduced dimension each. -/
theorem Separated.split (h : Separated p groups) :
    (groups.filter fun group => !group.any p).flatten = groups.flatten.filter (fun d => !p d) ∧
      groups.filter (·.any p) = (groups.flatten.filter p).map fun d => [d] := by
  induction groups with
  | nil => exact ⟨rfl, rfl⟩
  | cons group groups ih =>
    obtain ⟨hkept, hsingletons⟩ := ih fun g hg => h g (mem_cons_of_mem _ hg)
    rw [flatten_cons, filter_append, filter_append, map_append, ← hkept, ← hsingletons,
      filter_cons, filter_cons]
    rcases h group mem_cons_self with ⟨d, rfl, hd⟩ | ⟨-, hgroup⟩
    · simp [hd]
    · have hany : group.any p = false := by simpa using hgroup
      have hall : group.filter (fun d => !p d) = group :=
        filter_eq_self.mpr fun d hd => by rw [hgroup d hd]; rfl
      have hnone : group.filter p = [] :=
        filter_eq_nil_iff.mpr fun d hd => by rw [hgroup d hd]; exact Bool.false_ne_true
      rw [hany, hall, hnone]
      exact ⟨rfl, rfl⟩

theorem Separated.reads (h : Separated p groups) (hflatten : groups.flatten = List.range n)
    (hout : InBounds (((List.range n).filter fun d => !p d).map size) out)
    (hreduced : InBounds (((List.range n).filter p).map size) reduced) :
    collapseIndex (groups.map (·.map size)) (mergeIndex (groups.map (·.any p))
      (expandIndex ((groups.filter fun group => !group.any p).map (·.map size)) out) reduced) =
      mergeIndex ((List.range n).map p) out reduced := by
  obtain ⟨entry, rfl, rfl, hentry⟩ := exists_entry hout hreduced
  have hinput : List.Forall₂ InBounds (groups.map (·.map size)) (groups.map (·.map entry)) :=
    inBounds_groups fun d hd => hentry d (mem_range.mp (hflatten ▸ hd))
  have hkept : List.Forall₂ InBounds
      ((groups.filter fun group => !group.any p).map (·.map size))
      ((groups.filter fun group => !group.any p).map (·.map entry)) :=
    inBounds_groups fun d hd => by
      rw [h.split.1, hflatten] at hd
      exact hentry d (mem_range.mp (mem_of_mem_filter hd))
  have hexpand := expandIndex_flatten hkept
  rw [← map_flatten, h.split.1, hflatten, zipWith_map, zipWith_self] at hexpand
  have hsingle : ((List.range n).filter p).map entry = (groups.filter (·.any p)).map
      fun group => ravel (group.map size) (group.map entry) := by
    rw [h.split.2, hflatten, map_map]
    exact map_congr_left fun d _ => by simp [ravel]
  have hcollapse := collapseIndex_ravel hinput
  rw [zipWith_map, zipWith_self, ← map_flatten, hflatten] at hcollapse
  rw [hexpand, hsingle, mergeIndex_map, hcollapse, ← hsingle, mergeIndex_map]

end Entries

/-! The groups of a reduction. -/

namespace ReduceOp

section Groups

variable {op : ReduceOp E Value} {g d : ℕ} {group : List ℕ}

def isReduced (op : ReduceOp E Value) (d : ℕ) : Bool := d ∈ op.dims

theorem groupDims_spec (op : ReduceOp E Value) : LoopInv op.startsGroup op.isReduced
    (dimSize op.shape) op.rank op.groupDims := collapseLoop_spec _ _ _ _

theorem separated (op : ReduceOp E Value) :
    Separated op.isReduced op.groupDims.reassociationMap := by
  intro group hgroup
  obtain ⟨a, k, rfl, -, hrest⟩ := op.groupDims_spec.grouped.run group hgroup
  cases k with
  | zero =>
    by_cases ha : op.isReduced a = true
    · exact .inl ⟨a, rfl, ha⟩
    · refine .inr ⟨by simp, fun d hd => ?_⟩
      rw [mem_singleton.mp hd]
      simpa using ha
  | succ k =>
    refine .inr ⟨by simp, fun d hd => ?_⟩
    rw [mem_range'_1] at hd
    rcases Nat.eq_or_lt_of_le hd.1 with rfl | hlt
    · have hnext := hrest (a + 1) (by omega) (by omega)
      rw [startsGroup, Bool.or_eq_false_iff, Nat.add_sub_cancel] at hnext
      exact hnext.2
    · have hself := hrest d hlt (by omega)
      rw [startsGroup, Bool.or_eq_false_iff] at hself
      exact hself.1

theorem recorded_eq (op : ReduceOp E Value) : op.groupDims.recorded =
    op.reducedDims.map (groupOf op.groupDims.reassociationMap) := op.groupDims_spec.recorded

theorem mem_recorded (hg : op.groupDims.reassociationMap[g]? = some group) :
    g ∈ op.groupDims.recorded ↔ group.any op.isReduced = true := by
  have hgrouped := op.groupDims_spec.grouped
  rw [recorded_eq, mem_map, any_eq_true]
  constructor
  · rintro ⟨d, hd, rfl⟩
    obtain ⟨hrange, hreduced⟩ := mem_filter.mp hd
    obtain ⟨group', hin, hmem⟩ := mem_flatten.mp
      (hgrouped.mem_flatten.mpr (mem_range.mp hrange))
    obtain ⟨g', hg'⟩ := List.getElem?_of_mem hin
    rw [groupOf_eq hgrouped.nodup hg' hmem, hg'] at hg
    exact ⟨d, Option.some.inj hg ▸ hmem, hreduced⟩
  · rintro ⟨d, hd, hreduced⟩
    have hlt := hgrouped.mem_flatten.mp (mem_flatten.mpr ⟨group, mem_of_getElem? hg, hd⟩)
    exact ⟨d, mem_filter.mpr ⟨mem_range.mpr hlt, hreduced⟩,
      groupOf_eq hgrouped.nodup hg hd⟩

theorem keptDims_eq (op : ReduceOp E Value) :
    op.keptDims = (List.range op.rank).filter fun d => !op.isReduced d := by
  simp [keptDims, isReduced]

theorem reducedDims_eq (op : ReduceOp E Value) :
    op.reducedDims = (List.range op.rank).filter op.isReduced := rfl

def keptGroups (op : ReduceOp E Value) : List (List ℕ) :=
  op.groupDims.reassociationMap.filter fun group => !group.any op.isReduced

theorem keptGroups_flatten (op : ReduceOp E Value) : op.keptGroups.flatten = op.keptDims := by
  rw [keptGroups, op.separated.split.1, op.groupDims_spec.grouped.flatten, keptDims_eq]

theorem decide_recorded (hg : op.groupDims.reassociationMap[g]? = some group) :
    decide (g ∈ op.groupDims.recorded) = group.any op.isReduced := by
  rw [Bool.eq_iff_iff, decide_eq_true_iff]
  exact mem_recorded hg

theorem kept_positions (op : ReduceOp E Value) :
    ((List.range op.groupDims.reassociationMap.length).filter
      fun g => g ∉ op.groupDims.recorded).map
        (fun g => op.groupDims.reassociationMap.getD g []) = op.keptGroups :=
  filter_positions _ [] fun g group hg => by rw [decide_not, decide_recorded hg]

theorem reduced_positions (op : ReduceOp E Value) :
    ((List.range op.groupDims.reassociationMap.length).filter
      fun g => g ∈ op.groupDims.recorded).map
        (fun g => op.groupDims.reassociationMap.getD g []) =
      op.reducedDims.map fun d => [d] := by
  rw [reducedDims_eq, ← op.groupDims_spec.grouped.flatten, ← op.separated.split.2]
  exact filter_positions _ [] fun g group hg => decide_recorded hg

theorem length_collapseShape (op : ReduceOp E Value) :
    op.groupDims.collapseShape.length = op.groupDims.reassociationMap.length := by
  rw [op.groupDims_spec.shape, length_map]

theorem getD_collapseShape (hg : g < op.groupDims.reassociationMap.length) :
    dimSize op.groupDims.collapseShape g =
      ((op.groupDims.reassociationMap.getD g []).map (dimSize op.shape)).prod := by
  rw [dimSize, op.groupDims_spec.shape, getD_eq_getElem _ _ (by simpa using hg),
    getElem_map, getD_eq_getElem _ _ hg]

theorem recorded_positions (op : ReduceOp E Value) : op.groupDims.recorded =
    (List.range op.groupDims.reassociationMap.length).filter
      fun g => g ∈ op.groupDims.recorded := by
  have hmap := congrArg
    (List.map fun group => groupOf op.groupDims.reassociationMap (group.headD 0))
    op.reduced_positions
  rw [map_map, map_map] at hmap
  rw [recorded_eq]
  refine hmap.symm.trans ?_
  rw [← recorded_eq]
  refine (map_congr_left fun g hg => ?_).trans (map_id _)
  obtain ⟨hrange, hrecorded⟩ := mem_filter.mp hg
  have hlt := mem_range.mp hrange
  have hget := List.getElem?_eq_getElem hlt
  have hmem : (op.groupDims.reassociationMap[g]).headD 0 ∈ op.groupDims.reassociationMap[g] := by
    rw [headD_eq_head?_getD]
    obtain ⟨x, l, hcons⟩ := exists_cons_of_ne_nil
      (op.groupDims_spec.grouped.ne_nil (getElem_mem hlt))
    simp [hcons]
  rw [Function.comp_apply, getD_eq_getElem _ _ hlt]
  exact groupOf_eq op.groupDims_spec.grouped.nodup hget hmem

/-! The shapes of the new operations. -/

theorem kept_lengths (op : ReduceOp E Value) :
    ((List.range op.groupDims.reassociationMap.length).filter
      fun g => g ∉ op.groupDims.recorded).map
        (fun g => (op.groupDims.reassociationMap.getD g []).length) =
      op.keptGroups.map List.length := by
  rw [← kept_positions, map_map]
  rfl

theorem kept_sizes (op : ReduceOp E Value) :
    ((List.range op.groupDims.collapseShape.length).filter
      fun g => g ∉ op.groupDims.recorded).map (dimSize op.groupDims.collapseShape) =
      op.keptGroups.map fun group => (group.map (dimSize op.shape)).prod := by
  rw [← kept_positions, map_map, length_collapseShape]
  exact map_congr_left fun g hg =>
    getD_collapseShape (mem_range.mp (mem_of_mem_filter hg))

theorem reduced_sizes (op : ReduceOp E Value) :
    op.groupDims.recorded.map (dimSize op.groupDims.collapseShape) =
      op.reducedDims.map (dimSize op.shape) := by
  have hsizes := congrArg (List.map fun group => (group.map (dimSize op.shape)).prod)
    op.reduced_positions
  rw [map_map, map_map, ← recorded_positions] at hsizes
  refine (map_congr_left fun g hg => ?_).trans (hsizes.trans ?_)
  · rw [recorded_positions] at hg
    exact getD_collapseShape (mem_range.mp (mem_of_mem_filter hg))
  · exact map_congr_left fun d _ => by simp

theorem recorded_flags (op : ReduceOp E Value) :
    ((List.range op.groupDims.collapseShape.length).map
      fun g => decide (g ∈ op.groupDims.recorded)) =
      op.groupDims.reassociationMap.map (·.any op.isReduced) := by
  rw [length_collapseShape]
  refine ext_getElem (by rw [length_map, length_map, length_range])
    fun g hg hg' => ?_
  rw [getElem_map, getElem_map, getElem_range]
  exact decide_recorded (List.getElem?_eq_getElem (by simpa using hg))

theorem length_resultShape (op : ReduceOp E Value) :
    op.resultShape.length = (op.keptGroups.map List.length).sum := by
  rw [resultShape, length_map, ← keptGroups_flatten, length_flatten]

theorem output_groupShapes (op : ReduceOp E Value) :
    groupShapes op.resultShape (numberGroups (op.keptGroups.map List.length)) =
      op.keptGroups.map (·.map (dimSize op.shape)) := by
  obtain ⟨hlengths, hflatten⟩ := numberGroups_spec (op.keptGroups.map List.length)
  rw [← length_resultShape] at hflatten
  have hpieces := pieces 0 hflatten
  have hsplit := splitLengths_flatten (op.keptGroups.map (·.map (dimSize op.shape)))
  rw [← map_flatten, keptGroups_flatten, map_map] at hsplit
  rw [hlengths] at hpieces
  refine hpieces.trans (Eq.trans ?_ hsplit)
  congr 1
  exact map_congr_left fun group _ => (length_map _).symm

end Groups

/-! Which reductions are collapsed, and what the replacement computes. -/

section Collapse

variable {op : ReduceOp E Value} {c : CollapsedReduce E Value} {input init : Tensor E Value}
  {inputs inits : List (Tensor E Value)} {idx : List ℕ}

def NothingToMerge (op : ReduceOp E Value) : Prop :=
  ∀ d, d + 1 < op.rank → d ∈ op.dims ∨ d + 1 ∈ op.dims

theorem length_eq_rank_iff (op : ReduceOp E Value) :
    op.groupDims.collapseShape.length = op.rank ↔ op.NothingToMerge := by
  rw [length_collapseShape, op.groupDims_spec.grouped.length_eq_iff]
  constructor
  · intro h d hd
    have hstarts := h (d + 1) (Nat.succ_pos d) hd
    rw [startsGroup, Nat.add_sub_cancel, Bool.or_eq_true, decide_eq_true_iff,
      decide_eq_true_iff] at hstarts
    exact hstarts.symm
  · intro h i hpos hi
    obtain ⟨d, rfl⟩ := Nat.exists_eq_succ_of_ne_zero hpos.ne'
    rw [startsGroup, Nat.succ_eq_add_one, Nat.add_sub_cancel, Bool.or_eq_true, decide_eq_true_iff,
      decide_eq_true_iff]
    exact (h d hi).symm

def collapsed (op : ReduceOp E Value) (input init : Tensor E Value) : CollapsedReduce E Value where
  input := collapseShapeOp input op.groupDims.collapseShape input.elementType
    op.groupDims.reassociationMap
  reassociationMap := op.groupDims.reassociationMap
  init := collapseShapeOp init (op.keptGroups.map fun group => (group.map (dimSize op.shape)).prod)
    input.elementType (numberGroups (op.keptGroups.map List.length))
  reassociationMapOutput := numberGroups (op.keptGroups.map List.length)
  newReduce :=
    { shape := op.groupDims.collapseShape
      dims := op.groupDims.recorded
      inputs := [collapseShapeOp input op.groupDims.collapseShape input.elementType
        op.groupDims.reassociationMap]
      inits := [collapseShapeOp init
        (op.keptGroups.map fun group => (group.map (dimSize op.shape)).prod) input.elementType
        (numberGroups (op.keptGroups.map List.length))]
      region := op.region }

theorem collapse_eq (hinputs : op.inputs = input :: inputs) (hinits : op.inits = init :: inits) :
    op.collapse =
      if op.rank - op.dims.length ≤ 1 then none
      else if op.groupDims.collapseShape.length = op.rank then none
      else some (op.collapsed input init) := by
  have hsizes := op.kept_sizes
  rw [collapse, hinputs, hinits, collapsed, ← hsizes, ← kept_lengths]
  rfl

theorem collapse_eq_some (hinputs : op.inputs = input :: inputs)
    (hinits : op.inits = init :: inits) :
    op.collapse = some c ↔ ¬op.rank - op.dims.length ≤ 1 ∧ ¬op.NothingToMerge ∧
      op.collapsed input init = c := by
  rw [collapse_eq hinputs hinits]
  by_cases hrank : op.rank - op.dims.length ≤ 1
  · simp [hrank]
  · by_cases hmerge : op.groupDims.collapseShape.length = op.rank
    · simp [hrank, hmerge, op.length_eq_rank_iff.mp hmerge]
    · have hnot : ¬op.NothingToMerge := fun h => hmerge (op.length_eq_rank_iff.mpr h)
      simp [hrank, hmerge, hnot]

theorem collapsed_resultShape (op : ReduceOp E Value) (input init : Tensor E Value) :
    (op.collapsed input init).newReduce.resultShape =
      op.keptGroups.map fun group => (group.map (dimSize op.shape)).prod := op.kept_sizes

theorem collapsed_reducedDims (op : ReduceOp E Value) (input init : Tensor E Value) :
    (op.collapsed input init).newReduce.reducedDims = op.groupDims.recorded := by
  rw [recorded_positions, reducedDims, rank]
  exact congrArg (List.filter _) (congrArg List.range op.length_collapseShape)

theorem output_numbers (op : ReduceOp E Value) :
    (numberGroups (op.keptGroups.map List.length)).flatten = List.range op.resultShape.length ∧
      [] ∉ numberGroups (op.keptGroups.map List.length) := by
  obtain ⟨hlengths, hflatten⟩ := numberGroups_spec (op.keptGroups.map List.length)
  refine ⟨hflatten.trans (congrArg List.range op.length_resultShape.symm), fun hnil => ?_⟩
  have hzero : 0 ∈ (numberGroups (op.keptGroups.map List.length)).map List.length :=
    mem_map.mpr ⟨[], hnil, rfl⟩
  rw [hlengths, mem_map] at hzero
  obtain ⟨group, hgroup, hlength⟩ := hzero
  exact op.groupDims_spec.grouped.ne_nil (mem_of_mem_filter hgroup)
    (length_eq_zero_iff.mp hlength)

theorem output_shape (op : ReduceOp E Value) :
    (groupShapes op.resultShape (numberGroups (op.keptGroups.map List.length))).map List.prod =
      op.keptGroups.map fun group => (group.map (dimSize op.shape)).prod := by
  rw [output_groupShapes, map_map]
  rfl

theorem collapsed_reduceAt (hinputs : op.inputs = [input]) (hinits : op.inits = [init])
    (hinput : input.shape = op.shape) (hinit : init.shape = op.resultShape)
    (hidx : InBounds op.resultShape idx) :
    (op.collapsed input init).newReduce.reduceAt
      (expandIndex (groupShapes op.resultShape (numberGroups (op.keptGroups.map List.length))) idx)
      = op.reduceAt idx := by
  have hsizes : (op.collapsed input init).newReduce.reducedDims.map
      (dimSize (op.collapsed input init).newReduce.shape) =
      op.reducedDims.map (dimSize op.shape) := by
    rw [collapsed_reducedDims]
    exact op.reduced_sizes
  have hkept : InBounds (op.keptGroups.flatten.map (dimSize op.shape)) idx := by
    rw [keptGroups_flatten]
    exact hidx
  have hnodup : op.keptGroups.flatten.Nodup := by
    rw [keptGroups_flatten]
    exact List.nodup_range.filter _
  have hstart := collapseIndex_expandIndex hnodup hkept
  rw [reduceAt, reduceAt, hsizes, hinputs, hinits, output_groupShapes]
  have hinitial : ((op.collapsed input init).newReduce.inits.map fun init => init.elements
      (expandIndex (op.keptGroups.map (·.map (dimSize op.shape))) idx)) = [init.elements idx] := by
    simp only [collapsed, collapseShapeOp, map_cons, map_nil, hinit, output_groupShapes,
      hstart]
  rw [hinitial]
  refine foldl_ext _ _ _ fun acc reduced hreduced => ?_
  obtain ⟨k, hk, rfl⟩ := mem_map.mp hreduced
  have hbounds := unravel_inBounds _ k (mem_range.mp hk)
  rw [resultShape, keptDims_eq] at hidx
  rw [reducedDims_eq] at hbounds
  have hreads := op.separated.reads op.groupDims_spec.grouped.flatten hidx hbounds
  have hposition : collapseIndex (groupShapes input.shape op.groupDims.reassociationMap)
      (mergeIndex ((List.range op.groupDims.collapseShape.length).map
        fun g => decide (g ∈ op.groupDims.recorded))
        (expandIndex (op.keptGroups.map (·.map (dimSize op.shape))) idx)
        (unravel (op.reducedDims.map (dimSize op.shape)) k)) =
      mergeIndex ((List.range op.rank).map fun d => decide (d ∈ op.dims)) idx
        (unravel (op.reducedDims.map (dimSize op.shape)) k) := by
    rw [recorded_flags, hinput]
    exact hreads
  exact congrArg (fun position => op.region.call ([input.elements position] ++ acc)) hposition

variable [Inhabited Value]

theorem collapsed_replaced (hop : op.Verified) (hinputs : op.inputs = [input])
    (hinits : op.inits = [init]) (htype : init.elementType = input.elementType) :
    op.Replaced (op.collapsed input init) := by
  have hinput : input.shape = op.shape := hop.input_shape input (by simp [hinputs])
  have hinit : init.shape = op.resultShape := hop.init_shape init (by simp [hinits])
  have hresults : op.results = [⟨op.resultShape, init.elementType,
      fun out => (op.reduceAt out).getD 0 default⟩] := by simp [results, hinits]
  have hnew := op.collapsed_resultShape input init
  refine ⟨?_, ?_, ?_, ?_, ?_⟩
  · intro x hx
    obtain rfl : input = x := by simpa [hinputs] using hx
    exact
      { flatten := by rw [hinput]; exact op.groupDims_spec.grouped.flatten
        nonempty := fun hnil => op.groupDims_spec.grouped.ne_nil hnil rfl
        shape := by
          rw [hinput, groupShapes, map_map]
          exact op.groupDims_spec.shape
        elementType := rfl }
  · intro x hx
    obtain rfl : init = x := by simpa [hinits] using hx
    exact
      { flatten := by rw [hinit]; exact op.output_numbers.1
        nonempty := op.output_numbers.2
        shape := by rw [hinit]; exact op.output_shape.symm
        elementType := htype.symm }
  · have hargs := hop.argTypes
    have hyields := hop.yieldTypes
    rw [hinputs, hinits] at hargs
    rw [hinits] at hyields
    refine ⟨cons_ne_nil _ _, rfl, ?_, fun g hg => ?_, ?_, ?_, ?_, ?_⟩
    · change op.groupDims.recorded.Pairwise (· < ·)
      rw [recorded_positions]
      exact List.pairwise_lt_range.filter _
    · change g ∈ op.groupDims.recorded at hg
      rw [recorded_positions] at hg
      exact (mem_range.mp (mem_of_mem_filter hg)).trans_eq op.length_collapseShape.symm
    · exact fun x hx => congrArg Tensor.shape (mem_singleton.mp hx)
    · exact fun x hx => (congrArg Tensor.shape (mem_singleton.mp hx)).trans hnew.symm
    · exact hargs.trans (by rw [map_singleton, map_singleton, htype]; rfl)
    · exact hyields.trans (by rw [map_singleton, htype]; rfl)
  · intro result hresult newResult hnewResult
    rw [hresults] at hresult
    obtain rfl : _ = result := Option.some.inj hresult
    obtain rfl : _ = newResult := Option.some.inj hnewResult
    exact
      { flatten := op.output_numbers.1
        nonempty := op.output_numbers.2
        shape := hnew.trans op.output_shape.symm
        elementType := htype.symm }
  · rw [replacement, hresults]
    refine .cons ⟨rfl, rfl, fun idx hidx => ?_⟩ .nil
    exact congrArg (fun values => values.getD 0 default)
      (collapsed_reduceAt hinputs hinits hinput hinit hidx)

theorem single_of_replaced (hop : op.Verified) (hinputs : op.inputs = input :: inputs)
    (hinits : op.inits = init :: inits) (h : op.Replaced (op.collapsed input init)) :
    inputs = [] ∧ inits = [] ∧ init.elementType = input.elementType := by
  have hlength := h.results.length_eq
  have htype := (h.init init (by simp [hinits])).elementType
  have hinitsLength := hop.inits_length
  rw [hinputs, hinits, length_cons, length_cons] at hinitsLength
  rw [results, length_map, length_zipIdx, hinits, length_cons, replacement] at hlength
  have hone : inits.length = 0 := by
    revert hlength
    split <;> simp
  exact ⟨length_eq_zero_iff.mp (by omega), length_eq_zero_iff.mp hone, htype.symm⟩

theorem Verified.preserved_iff (hop : op.Verified) :
    op.Preserved ↔ op.rank - op.dims.length ≤ 1 ∨ op.NothingToMerge ∨
      ∃ input init, op.inputs = [input] ∧ op.inits = [init] ∧
        init.elementType = input.elementType := by
  obtain ⟨input, inputs, hinputs⟩ := exists_cons_of_ne_nil hop.inputs_ne
  have hne : op.inits ≠ [] := fun hnil => by
    have hlength := hop.inits_length
    rw [hnil, hinputs] at hlength
    simp at hlength
  obtain ⟨init, inits, hinits⟩ := exists_cons_of_ne_nil hne
  constructor
  · intro h
    by_cases hrank : op.rank - op.dims.length ≤ 1
    · exact .inl hrank
    · by_cases hmerge : op.NothingToMerge
      · exact .inr (.inl hmerge)
      · obtain ⟨rfl, rfl, htype⟩ := single_of_replaced hop hinputs hinits
          (h _ ((collapse_eq_some hinputs hinits).mpr ⟨hrank, hmerge, rfl⟩))
        exact .inr (.inr ⟨input, init, hinputs, hinits, htype⟩)
  · intro h c hc
    obtain ⟨hrank, hmerge, rfl⟩ := (collapse_eq_some hinputs hinits).mp hc
    rcases h with h | h | ⟨input', init', hinputs', hinits', htype⟩
    · exact absurd h hrank
    · exact absurd h hmerge
    · obtain ⟨rfl, rfl⟩ := List.cons.inj (hinputs.symm.trans hinputs')
      obtain ⟨rfl, rfl⟩ := List.cons.inj (hinits.symm.trans hinits')
      exact collapsed_replaced hop hinputs hinits htype

end Collapse

end ReduceOp

end TritonCpu.CollapseReduce
