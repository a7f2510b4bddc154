import TritonCpu.CollapseReduce
import Mathlib.Algebra.Group.Prod
import Mathlib.Algebra.BigOperators.Group.List.Lemmas

/-!
# Collapsing broadcasts

`CollapseBroadCast` merges neighbouring dimensions of the source that are all of size
one, or all of another size. The merged broadcast reads the source where the old one
does; with `CollapseReduce` this says which operations of both kinds keep their results.
-/

set_option autoImplicit false

namespace TritonCpu.CollapseBroadCast
open TritonIR FlatTensor Reassociation CollapseReduce List

variable {E Value : Type}

/-! `linalg.generic` with `broadcastDims`. -/

/-- `none` where an assertion fails. -/
def getBroadcastDims (srcShape dstShape : List ℕ) : Option (List ℕ) :=
  let broadcastDims := (List.range srcShape.length).filter fun i =>
    dimSize dstShape i ≠ dimSize srcShape i
  if (∀ i ∈ broadcastDims, dimSize srcShape i = 1) ∧ broadcastDims ≠ [] then some broadcastDims
  else none

/-- The map from a position of the result to the position of the source. -/
def getBroadcastAffineMap (inputShape broadcastToShape idx : List ℕ) : List ℕ :=
  broadcastIndex inputShape (idx.drop (broadcastToShape.length - inputShape.length))

theorem getBroadcastAffineMap_eq {inputShape broadcastToShape : List ℕ}
    (h : inputShape.length = broadcastToShape.length) (idx : List ℕ) :
    getBroadcastAffineMap inputShape broadcastToShape idx = broadcastIndex inputShape idx := by
  rw [getBroadcastAffineMap, h, Nat.sub_self, drop_zero]

/-- The attribute is `none` where it is not set. -/
structure BroadcastOp (E Value : Type) where
  source : Tensor E Value
  init : Tensor E Value
  broadcastDims : Option (List ℕ)
  region : Region E Value

namespace BroadcastOp

variable (op : BroadcastOp E Value)

/-- What the verifier asks, and what the conversion that sets the attribute ensures. -/
structure Verified : Prop where
  rank : op.source.shape.length = op.init.shape.length
  elementType : op.source.elementType = op.init.elementType
  argTypes : op.region.argTypes = [op.source.elementType, op.init.elementType]
  yieldTypes : op.region.yieldTypes = [op.init.elementType]
  broadcastDims : op.broadcastDims = getBroadcastDims op.source.shape op.init.shape
  isSome : op.broadcastDims.isSome = true

def result [Inhabited Value] : Tensor E Value :=
  ⟨op.init.shape, op.init.elementType, fun idx =>
    (op.region.call [op.source.elements (getBroadcastAffineMap op.source.shape op.init.shape idx),
      op.init.elements idx]).headD default⟩

end BroadcastOp

/-! The pattern. -/

structure CollapsedBroadcast (E Value : Type) where
  reassociationMap : List (List ℕ)
  input : Tensor E Value
  init : Tensor E Value
  linalgOp : BroadcastOp E Value

namespace BroadcastOp

variable (op : BroadcastOp E Value)

def startsGroup (i : ℕ) : Bool :=
  !(dimSize op.source.shape i = 1 && dimSize op.source.shape (i - 1) = 1 ||
    dimSize op.source.shape i ≠ 1 && dimSize op.source.shape (i - 1) ≠ 1)

/-- The loop over the dimensions, with the sizes of the source and of the result. -/
def groupDims : CollapseState (ℕ × ℕ) :=
  collapseLoop op.startsGroup (fun _ => false)
    (fun i => (dimSize op.source.shape i, dimSize op.init.shape i)) op.source.shape.length

/-- The operations that replace a broadcast; `none` leaves it as it is. -/
def collapse : Option (CollapsedBroadcast E Value) :=
  if op.broadcastDims = none then none
  else if op.source.shape.length ≤ 1 then none
  else
    let s := op.groupDims
    if s.collapseShape.length = op.source.shape.length then none
    else
      let elementType := op.init.elementType
      let collapseShapeInput := s.collapseShape.map Prod.fst
      let collapseShapeOutput := s.collapseShape.map Prod.snd
      let input := collapseShapeOp op.source collapseShapeInput elementType s.reassociationMap
      let init := collapseShapeOp op.init collapseShapeOutput elementType s.reassociationMap
      some
        { reassociationMap := s.reassociationMap
          input
          init
          linalgOp :=
            ⟨input, init, getBroadcastDims collapseShapeInput collapseShapeOutput, op.region⟩ }

variable [Inhabited Value]

/-- The operations are valid, and the replacement is the same as the result. -/
structure Replaced (c : CollapsedBroadcast E Value) : Prop where
  input : ReshapeVerified op.source c.input c.reassociationMap
  init : ReshapeVerified op.init c.init c.reassociationMap
  linalgOp : c.linalgOp.Verified
  expand : ReshapeVerified op.result c.linalgOp.result c.reassociationMap
  result : Same
    (expandShapeOp c.linalgOp.result op.result.shape op.result.elementType c.reassociationMap)
    op.result

/-- The pattern leaves the operation, or replaces it by operations with the same result. -/
def Preserved : Prop := ∀ c, op.collapse = some c → op.Replaced c

end BroadcastOp

/-! Sizes that are one. -/

section Ones

variable {shape shape' idx : List ℕ}

theorem unravel_ones (h : ∀ d ∈ shape, d = 1) (idx : List ℕ) (hlength : idx.length = shape.length) :
    unravel shape 0 = broadcastIndex shape idx := by
  induction shape generalizing idx with
  | nil => simp [unravel, broadcastIndex]
  | cons d shape ih =>
    cases idx with
    | nil => simp at hlength
    | cons i idx =>
      have hrest := ih (fun d hd => h d (mem_cons_of_mem _ hd)) idx (Nat.succ.inj hlength)
      rw [broadcastIndex] at hrest
      simp [unravel, broadcastIndex, h d mem_cons_self, hrest]

theorem group_reads (h : (∀ d ∈ shape, d = 1) ∨ (∀ d ∈ shape, d ≠ 1) ∧ shape = shape')
    (hrank : shape.length = shape'.length) (hidx : InBounds shape' idx) (hne : shape ≠ []) :
    unravel shape (if shape.prod = 1 then 0 else ravel shape' idx) = broadcastIndex shape idx := by
  rcases h with hones | ⟨hother, rfl⟩
  · rw [if_pos (prod_eq_one hones)]
    exact unravel_ones hones idx (hidx.length_eq.symm.trans hrank.symm)
  · have hprod : shape.prod ≠ 1 := fun hone => by
      obtain ⟨d, l, rfl⟩ := exists_cons_of_ne_nil hne
      rw [prod_cons] at hone
      exact hother d mem_cons_self (Nat.eq_one_of_mul_eq_one_right hone)
    rw [if_neg hprod, unravel_ravel hidx, broadcastIndex_inBounds hidx]

end Ones

/-! The groups of a broadcast. -/

namespace BroadcastOp

section Groups

variable {op : BroadcastOp E Value} {group idx : List ℕ} {srcShape dstShape : List ℕ}

theorem getBroadcastDims_isSome : (getBroadcastDims srcShape dstShape).isSome = true ↔
    (∀ i < srcShape.length, dimSize dstShape i ≠ dimSize srcShape i → dimSize srcShape i = 1) ∧
      ∃ i < srcShape.length, dimSize dstShape i ≠ dimSize srcShape i := by
  rw [getBroadcastDims]
  simp only [Option.isSome_ite, ne_eq, filter_eq_nil_iff, mem_filter, mem_range]
  simp

theorem groupDims_spec (op : BroadcastOp E Value) : LoopInv op.startsGroup (fun _ => false)
    (fun i => (dimSize op.source.shape i, dimSize op.init.shape i)) op.source.shape.length
    op.groupDims := collapseLoop_spec _ _ _ _

theorem same_kind (hgroup : group ∈ op.groupDims.reassociationMap) :
    (∀ d ∈ group, dimSize op.source.shape d = 1) ∨
      ∀ d ∈ group, dimSize op.source.shape d ≠ 1 := by
  have huniform := fun x (hx : x ∈ group) y (hy : y ∈ group) =>
    @Grouped.uniform _ _ _ _ (fun d => decide (dimSize op.source.shape d = 1))
      op.groupDims_spec.grouped (fun b hb => by
        rw [startsGroup, Nat.add_sub_cancel] at hb
        by_cases hnext : dimSize op.source.shape (b + 1) = 1 <;>
          by_cases hprev : dimSize op.source.shape b = 1 <;> simp_all) _ hgroup x y hx hy
  obtain ⟨x, l, hcons⟩ := exists_cons_of_ne_nil (op.groupDims_spec.grouped.ne_nil hgroup)
  have hx : x ∈ group := by rw [hcons]; exact mem_cons_self
  by_cases hone : dimSize op.source.shape x = 1
  · exact .inl fun d hd => by simpa [hone] using huniform d hd x hx
  · exact .inr fun d hd => by simpa [hone] using huniform d hd x hx

theorem prod_sizes (l : List ℕ) (f g : ℕ → ℕ) :
    (l.map fun i => (f i, g i)).prod = ((l.map f).prod, (l.map g).prod) := by
  induction l with
  | nil => rfl
  | cons i l ih => rw [map_cons, prod_cons, ih]; rfl

theorem input_shape (op : BroadcastOp E Value) : op.groupDims.collapseShape.map Prod.fst =
    (groupShapes op.source.shape op.groupDims.reassociationMap).map List.prod := by
  rw [op.groupDims_spec.shape, map_map, groupShapes, map_map]
  exact map_congr_left fun group _ => congrArg Prod.fst (prod_sizes _ _ _)

theorem output_shape (op : BroadcastOp E Value) : op.groupDims.collapseShape.map Prod.snd =
    (groupShapes op.init.shape op.groupDims.reassociationMap).map List.prod := by
  rw [op.groupDims_spec.shape, map_map, groupShapes, map_map]
  exact map_congr_left fun group _ => congrArg Prod.snd (prod_sizes _ _ _)

theorem map_dimSize_range (shape : List ℕ) :
    (List.range shape.length).map (dimSize shape) = shape := map_getD_range shape 0

theorem reads (hop : op.Verified) (hidx : InBounds op.init.shape idx) :
    collapseIndex (groupShapes op.source.shape op.groupDims.reassociationMap)
      (broadcastIndex (op.groupDims.collapseShape.map Prod.fst)
        (expandIndex (groupShapes op.init.shape op.groupDims.reassociationMap) idx)) =
      broadcastIndex op.source.shape idx := by
  have hdims := hop.isSome
  rw [hop.broadcastDims, getBroadcastDims_isSome] at hdims
  have hflatten := op.groupDims_spec.grouped.flatten
  have hshape := map_dimSize_range op.init.shape
  rw [← hop.rank] at hshape
  rw [← hshape] at hidx
  obtain ⟨hentry, hbound⟩ := map_entryAt nodup_range hidx
  have hparts := @inBounds_groups op.groupDims.reassociationMap (dimSize op.init.shape)
    (entryAt (List.range op.source.shape.length) idx) (by rw [hflatten]; exact hbound)
  have hexpand := expandIndex_flatten hparts
  rw [← map_flatten, hflatten, hentry, zipWith_map, zipWith_self] at hexpand
  have hgroups : ∀ group ∈ op.groupDims.reassociationMap,
      unravel (group.map (dimSize op.source.shape))
        (if (group.map (dimSize op.source.shape)).prod = 1 then 0
          else ravel (group.map (dimSize op.init.shape))
            (group.map (entryAt (List.range op.source.shape.length) idx))) =
        group.map fun d => if dimSize op.source.shape d = 1 then 0
          else entryAt (List.range op.source.shape.length) idx d := by
    intro group hgroup
    have hmem : ∀ d ∈ group, d < op.source.shape.length := fun d hd =>
      op.groupDims_spec.grouped.mem_flatten.mp (mem_flatten.mpr ⟨group, hgroup, hd⟩)
    rw [@group_reads _ (group.map (dimSize op.init.shape)) _ ?_ (by simp) ?_ (by
      simpa using op.groupDims_spec.grouped.ne_nil hgroup), broadcastIndex, zipWith_map,
      zipWith_self]
    · rw [forall_mem_map, forall_mem_map]
      refine (same_kind hgroup).imp_right fun hother => ⟨hother, ?_⟩
      refine map_congr_left fun d hd => ?_
      by_contra hne
      exact hother d hd (hdims.1 d (hmem d hd) (Ne.symm hne))
    · rw [InBounds, forall₂_map_left_iff, forall₂_map_right_iff, forall₂_same]
      exact fun d hd => hbound d (mem_range.mpr (hmem d hd))
  have hright : broadcastIndex op.source.shape idx =
      (List.range op.source.shape.length).map fun d => if dimSize op.source.shape d = 1 then 0
        else entryAt (List.range op.source.shape.length) idx d := by
    calc broadcastIndex op.source.shape idx
        = broadcastIndex ((List.range op.source.shape.length).map (dimSize op.source.shape))
          ((List.range op.source.shape.length).map
            (entryAt (List.range op.source.shape.length) idx)) := by
          rw [map_dimSize_range, hentry]
      _ = _ := by rw [broadcastIndex, zipWith_map, zipWith_self]
  rw [groupShapes, groupShapes, hexpand, input_shape, groupShapes, map_map, broadcastIndex,
    zipWith_map, zipWith_self, collapseIndex, zipWith_map, zipWith_self,
    hright, ← hflatten, map_flatten, hflatten]
  exact congrArg List.flatten (map_congr_left hgroups)

theorem collapsed_isSome (hop : op.Verified) :
    (getBroadcastDims (op.groupDims.collapseShape.map Prod.fst)
      (op.groupDims.collapseShape.map Prod.snd)).isSome = true := by
  have hdims := hop.isSome
  rw [hop.broadcastDims, getBroadcastDims_isSome] at hdims
  have hgrouped := op.groupDims_spec.grouped
  have hgetD : ∀ {shape : List ℕ} {g : ℕ} (hg : g < op.groupDims.reassociationMap.length),
      dimSize ((groupShapes shape op.groupDims.reassociationMap).map List.prod) g =
        (op.groupDims.reassociationMap[g].map (dimSize shape)).prod := by
    intro shape g hg
    rw [dimSize, groupShapes, map_map, getD_eq_getElem _ _ (by simpa using hg),
      getElem_map]
    rfl
  rw [input_shape, output_shape, getBroadcastDims_isSome]
  refine ⟨fun g hg hne => ?_, ?_⟩
  · have hlt : g < op.groupDims.reassociationMap.length := by simpa [groupShapes] using hg
    rw [hgetD hlt, hgetD hlt] at hne
    rw [hgetD hlt]
    rcases same_kind (getElem_mem hlt) with hones | hother
    · exact prod_eq_one fun size hsize => by
        obtain ⟨d, hd, rfl⟩ := mem_map.mp hsize
        exact hones d hd
    · refine absurd (congrArg List.prod (map_congr_left fun d hd => ?_)) hne
      by_contra hne'
      exact hother d hd (hdims.1 d
        (hgrouped.mem_flatten.mp (mem_flatten.mpr ⟨_, getElem_mem hlt, hd⟩)) hne')
  · obtain ⟨d, hd, hne⟩ := hdims.2
    obtain ⟨group, hgroup, hmem⟩ := mem_flatten.mp (hgrouped.mem_flatten.mpr hd)
    obtain ⟨g, hlt, rfl⟩ := getElem_of_mem hgroup
    refine ⟨g, by simpa [groupShapes] using hlt, ?_⟩
    have hone := hdims.1 d hd hne
    have hones : ∀ d ∈ op.groupDims.reassociationMap[g], dimSize op.source.shape d = 1 :=
      (same_kind hgroup).resolve_right fun hother => hother d hmem hone
    rw [hgetD hlt, hgetD hlt, prod_eq_one (l := List.map (dimSize op.source.shape) _)
      fun size hsize => by
        obtain ⟨d, hd, rfl⟩ := mem_map.mp hsize
        exact hones d hd]
    intro hprod
    have hdvd := dvd_prod (mem_map_of_mem (f := dimSize op.init.shape) hmem)
    rw [hprod, Nat.dvd_one] at hdvd
    exact hne (hdvd.trans hone.symm)

variable [Inhabited Value]

theorem Verified.preserved (hop : op.Verified) : op.Preserved := by
  intro c hc
  simp only [collapse] at hc
  split_ifs at hc
  obtain rfl := Option.some.inj hc
  have hgrouped := op.groupDims_spec.grouped
  have hnil : [] ∉ op.groupDims.reassociationMap := fun hnil => hgrouped.ne_nil hnil rfl
  have hflatten := hgrouped.flatten.trans (congrArg List.range hop.rank)
  refine ⟨⟨hgrouped.flatten, hnil, op.input_shape, hop.elementType.symm⟩,
    ⟨hflatten, hnil, op.output_shape, rfl⟩, ?_, ⟨hflatten, hnil, op.output_shape, rfl⟩,
    ⟨rfl, rfl, fun idx hidx => ?_⟩⟩
  · exact
      { rank := by
          change (op.groupDims.collapseShape.map Prod.fst).length =
            (op.groupDims.collapseShape.map Prod.snd).length
          rw [length_map, length_map]
        elementType := rfl
        argTypes := by
          have hargs := hop.argTypes
          rw [hop.elementType] at hargs
          exact hargs
        yieldTypes := hop.yieldTypes
        broadcastDims := rfl
        isSome := collapsed_isSome hop }
  · have hinit := map_dimSize_range op.init.shape
    have hnodup := hgrouped.nodup
    have hstart := @collapseIndex_expandIndex op.groupDims.reassociationMap
      (dimSize op.init.shape) idx hnodup (by rw [hflatten, hinit]; exact hidx)
    have hposition : getBroadcastAffineMap (op.groupDims.collapseShape.map Prod.fst)
        (op.groupDims.collapseShape.map Prod.snd)
        (expandIndex (groupShapes op.init.shape op.groupDims.reassociationMap) idx) =
        broadcastIndex (op.groupDims.collapseShape.map Prod.fst)
          (expandIndex (groupShapes op.init.shape op.groupDims.reassociationMap) idx) :=
      getBroadcastAffineMap_eq (by rw [length_map, length_map]) _
    change (op.region.call [op.source.elements (collapseIndex
        (groupShapes op.source.shape op.groupDims.reassociationMap)
        (getBroadcastAffineMap (op.groupDims.collapseShape.map Prod.fst)
          (op.groupDims.collapseShape.map Prod.snd)
          (expandIndex (groupShapes op.init.shape _) idx))),
      op.init.elements (collapseIndex (groupShapes op.init.shape _)
        (expandIndex (groupShapes op.init.shape _) idx))]).headD default =
      (op.region.call [op.source.elements
        (getBroadcastAffineMap op.source.shape op.init.shape idx),
        op.init.elements idx]).headD default
    rw [hposition, reads hop hidx, getBroadcastAffineMap_eq hop.rank]
    exact congrArg (fun position => (op.region.call [_, op.init.elements position]).headD default)
      hstart

end Groups

end BroadcastOp

/-! Both patterns. -/

section Results

variable [Inhabited Value]

/-- A broadcast always keeps its result. A reduction keeps its results when the pattern
leaves it, or when it has one input and the init has the element type of the input. -/
theorem collapse_results (reduce : ReduceOp E Value) (broadcast : BroadcastOp E Value)
    (hreduce : reduce.Verified) (hbroadcast : broadcast.Verified) :
    broadcast.Preserved ∧
      (reduce.Preserved ↔ reduce.rank - reduce.dims.length ≤ 1 ∨ reduce.NothingToMerge ∨
        ∃ input init, reduce.inputs = [input] ∧ reduce.inits = [init] ∧
          init.elementType = input.elementType) :=
  ⟨hbroadcast.preserved, hreduce.preserved_iff⟩

end Results

/-! A sum and an argmax of rank three. -/

section Samples

inductive ElementType where
  | f32
  | i32
  deriving DecidableEq

def sumReduce : ReduceOp ElementType ℕ where
  shape := [2, 3, 4]
  dims := [2]
  inputs := [⟨[2, 3, 4], .i32, fun idx => idx.sum⟩]
  inits := [⟨[2, 3], .i32, fun _ => 0⟩]
  region := ⟨[.i32, .i32], [.i32], fun values => [values.sum]⟩

def sumBroadcast : BroadcastOp ElementType ℕ where
  source := ⟨[1, 1, 4], .i32, fun idx => idx.sum⟩
  init := ⟨[2, 3, 4], .i32, fun _ => 0⟩
  broadcastDims := some [0, 1]
  region := ⟨[.i32, .i32], [.i32], fun values => [values.headD 0]⟩

theorem sumReduce_verified : sumReduce.Verified where
  inputs_ne := cons_ne_nil _ _
  inits_length := rfl
  dims_sorted := by decide
  dims_lt := by decide
  input_shape := fun _ h => congrArg Tensor.shape (mem_singleton.mp h)
  init_shape := fun _ h => congrArg Tensor.shape (mem_singleton.mp h)
  argTypes := rfl
  yieldTypes := rfl

theorem sumBroadcast_verified : sumBroadcast.Verified := ⟨rfl, rfl, rfl, rfl, by decide, rfl⟩

theorem collapse_results_sample : sumBroadcast.Preserved ∧ sumReduce.Preserved := by
  have hresults := collapse_results sumReduce sumBroadcast sumReduce_verified
    sumBroadcast_verified
  exact ⟨hresults.1, hresults.2.mpr (.inr (.inr ⟨_, _, rfl, rfl, rfl⟩))⟩

/-- The reduction of values and of their positions to the greatest value. -/
def argmaxReduce : ReduceOp ElementType ℕ where
  shape := [2, 2, 2]
  dims := [2]
  inputs := [⟨[2, 2, 2], .f32, fun idx => idx.sum⟩, ⟨[2, 2, 2], .i32, fun idx => idx.getD 2 0⟩]
  inits := [⟨[2, 2], .f32, fun _ => 0⟩, ⟨[2, 2], .i32, fun _ => 0⟩]
  region := ⟨[.f32, .i32, .f32, .i32], [.f32, .i32], fun values =>
    if values.getD 2 0 < values.getD 0 0 then values.take 2 else values.drop 2⟩

theorem argmaxReduce_verified : argmaxReduce.Verified where
  inputs_ne := cons_ne_nil _ _
  inits_length := rfl
  dims_sorted := by decide
  dims_lt := by decide
  input_shape := by
    intro input h
    rcases mem_pair.mp h with rfl | rfl <;> rfl
  init_shape := by
    intro init h
    rcases mem_pair.mp h with rfl | rfl <;> rfl
  argTypes := rfl
  yieldTypes := rfl

/-- The pattern rewrites the argmax, and has no replacement for its second result. -/
theorem argmax_not_preserved : argmaxReduce.Verified ∧ ¬argmaxReduce.Preserved := by
  refine ⟨argmaxReduce_verified, fun h => ?_⟩
  rcases argmaxReduce_verified.preserved_iff.mp h with hrank | hmerge | ⟨input, init, hinputs, -⟩
  · exact absurd hrank (by decide)
  · exact absurd (hmerge 0 (by decide)) (by decide)
  · exact absurd (congrArg List.length hinputs) (by simp [argmaxReduce])

end Samples

end TritonCpu.CollapseBroadCast
