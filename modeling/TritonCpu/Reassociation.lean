import TritonCpu.FlatTensor
import Mathlib.Data.List.Nodup
import Mathlib.Data.List.Range

/-!
# Reassociated dimensions

The patterns of `CollapseShape` merge runs of neighbouring dimensions. One loop
numbers the groups: a dimension starts a new group, or joins the group before it.
`collapse_shape` and `expand_shape` go between the positions of the dimensions of a
group and the row-major position of the group.
-/

set_option autoImplicit false

namespace TritonCpu.Reassociation
open TritonIR FlatTensor List

/-! The loop over the dimensions. -/

variable {γ : Type} [CommMonoid γ]

/-- The state of the loop. `recorded` has the groups of the dimensions a pattern keeps
track of. -/
structure CollapseState (γ : Type) where
  dim : ℕ
  collapseShape : List γ
  reassociationMap : List (List ℕ)
  recorded : List ℕ

def collapseStep (starts records : ℕ → Bool) (dimSize : ℕ → γ) (s : CollapseState γ) (i : ℕ) :
    CollapseState γ :=
  let dim := if 0 < i ∧ starts i then s.dim + 1 else s.dim
  let fresh := dim = s.collapseShape.length
  let collapseShape := if fresh then s.collapseShape ++ [1] else s.collapseShape
  let reassociationMap := if fresh then s.reassociationMap ++ [[]] else s.reassociationMap
  { dim
    collapseShape := collapseShape.modify dim (· * dimSize i)
    reassociationMap := reassociationMap.modify dim (· ++ [i])
    recorded := if records i then s.recorded ++ [dim] else s.recorded }

def collapseLoop (starts records : ℕ → Bool) (dimSize : ℕ → γ) (rank : ℕ) : CollapseState γ :=
  (List.range rank).foldl (collapseStep starts records dimSize) ⟨0, [], [], []⟩

/-- The dimensions below `n` in order, each group a run that starts where it may. -/
structure Grouped (starts : ℕ → Bool) (n : ℕ) (groups : List (List ℕ)) : Prop where
  flatten : groups.flatten = List.range n
  run : ∀ group ∈ groups, ∃ a k, group = List.range' a (k + 1) ∧ (a = 0 ∨ starts a = true) ∧
    ∀ b, a < b → b ≤ a + k → starts b = false

def groupOf (groups : List (List ℕ)) (i : ℕ) : ℕ := groups.findIdx (i ∈ ·)

section Loop

variable {starts records : ℕ → Bool} {dimSize : ℕ → γ} {n : ℕ} {groups init : List (List ℕ)}
  {last : List ℕ}

theorem modify_concat {α : Type} (l : List α) (x : α) (f : α → α) :
    (l ++ [x]).modify l.length f = l ++ [f x] := by
  induction l with
  | nil => rfl
  | cons a l ih => simp [ih]

theorem Grouped.append (h : Grouped starts n groups) (hn : n = 0 ∨ starts n = true) :
    Grouped starts (n + 1) (groups ++ [[n]]) where
  flatten := by rw [flatten_append, h.flatten, flatten_singleton, range_succ]
  run := by
    intro group hgroup
    rcases List.mem_append.mp hgroup with hgroup | hgroup
    · exact h.run group hgroup
    · exact ⟨n, 0, List.mem_singleton.mp hgroup, hn, fun b hlt hle => by omega⟩

theorem Grouped.extend (h : Grouped starts n (init ++ [last])) (hn : starts n = false) :
    Grouped starts (n + 1) (init ++ [last ++ [n]]) where
  flatten := by
    have hflatten := h.flatten
    rw [flatten_append, flatten_singleton] at hflatten
    rw [flatten_append, flatten_singleton, ← append_assoc, hflatten,
      range_succ]
  run := by
    intro group hgroup
    rcases List.mem_append.mp hgroup with hgroup | hgroup
    · exact h.run group (mem_append_left _ hgroup)
    · obtain ⟨a, k, hlast, ha, hrest⟩ := h.run last (mem_append_right _ (by simp))
      have hend : a + k + 1 = n := by
        have hflatten := congrArg List.getLast? h.flatten
        rw [flatten_append, flatten_singleton, hlast, List.range'_concat] at hflatten
        cases n with
        | zero => simp at hflatten
        | succ n => simpa [range_succ] using hflatten
      refine ⟨a, k + 1, ?_, ha, fun b hlt hle => ?_⟩
      · have hnext : a + 1 * (k + 1) = n := by omega
        rw [List.mem_singleton.mp hgroup, hlast, @List.range'_concat 1 a (k + 1), hnext]
      · rcases Nat.lt_or_ge b n with hb | hb
        · exact hrest b hlt (by omega)
        · rwa [show b = n by omega]

theorem groupOf_concat (groups : List (List ℕ)) (group : List ℕ) (i : ℕ) :
    groupOf (groups ++ [group]) i =
      if i ∈ groups.flatten then groupOf groups i
      else if i ∈ group then groups.length else groups.length + 1 := by
  have hmem : groups.findIdx (i ∈ ·) < groups.length ↔ i ∈ groups.flatten := by
    rw [findIdx_lt_length, mem_flatten]
    simp
  rw [groupOf, findIdx_append]
  by_cases hi : i ∈ groups.flatten
  · rw [if_pos hi, if_pos (hmem.mpr hi), groupOf]
  · rw [if_neg hi, if_neg fun h => hi (hmem.mp h), findIdx_cons]
    by_cases hgroup : i ∈ group <;> simp [hgroup, Nat.add_comm]

theorem Grouped.ne_nil (h : Grouped starts n groups) {group : List ℕ} (hgroup : group ∈ groups) :
    group ≠ [] := by
  obtain ⟨a, k, rfl, -⟩ := h.run group hgroup
  simp

theorem Grouped.eq_nil (h : Grouped starts 0 groups) : groups = [] := by
  cases groups with
  | nil => rfl
  | cons group groups =>
    have hflatten := h.flatten
    simp only [flatten_cons, range_zero, append_eq_nil_iff] at hflatten
    exact absurd hflatten.1 (h.ne_nil mem_cons_self)

/-- What the loop knows after the dimensions below `n`. -/
structure LoopInv (starts records : ℕ → Bool) (dimSize : ℕ → γ) (n : ℕ) (s : CollapseState γ) :
    Prop where
  grouped : Grouped starts n s.reassociationMap
  shape : s.collapseShape = s.reassociationMap.map fun group => (group.map dimSize).prod
  dim : n = 0 ∧ s.dim = 0 ∨ s.dim + 1 = s.reassociationMap.length
  recorded : s.recorded = ((List.range n).filter records).map (groupOf s.reassociationMap)

theorem recorded_concat {recorded : List ℕ} {dim : ℕ} {old new : ℕ → ℕ}
    (h : recorded = ((List.range n).filter records).map old) (hold : ∀ i < n, new i = old i)
    (hnew : new n = dim) : (if records n then recorded ++ [dim] else recorded) =
      ((List.range (n + 1)).filter records).map new := by
  have hsame : ((List.range n).filter records).map new = recorded := by
    rw [h]
    exact map_congr_left fun i hi => hold i (List.mem_range.mp (mem_of_mem_filter hi))
  rw [range_succ, filter_append, map_append, hsame]
  by_cases hn : records n <;> simp [hn, hnew]

theorem collapseStep_inv {s : CollapseState γ} (h : LoopInv starts records dimSize n s) :
    LoopInv starts records dimSize (n + 1) (collapseStep starts records dimSize s n) := by
  have hlength : s.collapseShape.length = s.reassociationMap.length := by
    rw [h.shape, length_map]
  have hcase : (if 0 < n ∧ starts n then s.dim + 1 else s.dim) = s.reassociationMap.length ∧
        (n = 0 ∨ starts n = true) ∨
      starts n = false ∧ ∃ init last, s.reassociationMap = init ++ [last] ∧
        (if 0 < n ∧ starts n then s.dim + 1 else s.dim) = init.length := by
    rcases h.dim with ⟨rfl, hdim⟩ | hdim
    · rw [h.grouped.eq_nil, hdim]
      exact .inl ⟨rfl, .inl rfl⟩
    · by_cases hstarts : 0 < n ∧ starts n = true
      · rw [if_pos hstarts]
        exact .inl ⟨hdim, .inr hstarts.2⟩
      · rw [if_neg hstarts]
        have hne : s.reassociationMap ≠ [] := fun hnil => by simp [hnil] at hdim
        refine .inr ⟨?_, _, _, (dropLast_append_getLast hne).symm, ?_⟩
        · have hn : 0 < n := Nat.pos_of_ne_zero fun hz => hne ((hz ▸ h.grouped).eq_nil)
          simpa [hn] using hstarts
        · rw [length_dropLast, ← hdim, Nat.add_sub_cancel]
  have hbelow : ∀ i, i ∈ s.reassociationMap.flatten ↔ i < n := fun i => by
    rw [h.grouped.flatten, mem_range]
  rcases hcase with ⟨hdim, hn⟩ | ⟨hn, init, last, hinit, hdim⟩
  · have hmap : (collapseStep starts records dimSize s n).reassociationMap =
        s.reassociationMap ++ [[n]] := by
      simp only [collapseStep, hdim, hlength, if_true, modify_concat, nil_append]
    refine ⟨?_, ?_, .inr ?_, ?_⟩
    · rw [hmap]
      exact h.grouped.append hn
    · rw [hmap, collapseStep, hdim, if_pos hlength.symm, ← hlength, modify_concat, h.shape,
        map_append, one_mul]
      simp
    · rw [hmap, length_append, collapseStep, hdim]
      rfl
    · rw [hmap, collapseStep, hdim]
      refine recorded_concat h.recorded (fun i hi => ?_) ?_
      · rw [groupOf_concat, if_pos ((hbelow i).mpr hi)]
      · rw [groupOf_concat, if_neg (by rw [hbelow]; exact lt_irrefl n),
          if_pos (List.mem_singleton.mpr rfl)]
  · have hgrouped := h.grouped
    rw [hinit] at hgrouped hbelow
    have hnot : init.length ≠ s.collapseShape.length := by
      rw [hlength, hinit, length_append, length_singleton]
      omega
    have hmap : (collapseStep starts records dimSize s n).reassociationMap =
        init ++ [last ++ [n]] := by
      simp only [collapseStep, hdim, hnot, hinit, if_false, modify_concat]
    refine ⟨?_, ?_, .inr ?_, ?_⟩
    · rw [hmap]
      exact hgrouped.extend hn
    · have hshape := h.shape
      rw [hinit, map_append, map_singleton] at hshape
      have hmodify := modify_concat (init.map fun group => (group.map dimSize).prod)
        (last.map dimSize).prod (· * dimSize n)
      rw [length_map] at hmodify
      rw [hmap, collapseStep, hdim, if_neg hnot, hshape, hmodify, map_append]
      simp
    · rw [hmap, length_append, collapseStep, hdim]
      rfl
    · rw [hmap, collapseStep, hdim]
      refine recorded_concat h.recorded (fun i hi => ?_) ?_
      · have hmem : i ∈ last ++ [n] ↔ i ∈ last := by simp [hi.ne]
        rw [hinit, groupOf_concat, groupOf_concat]
        simp only [hmem]
      · have hn' : n ∉ init.flatten := fun hmem =>
          lt_irrefl n ((hbelow n).mp (by simp [hmem]))
        rw [groupOf_concat, if_neg hn', if_pos (mem_append_right _ (by simp))]

theorem collapseLoop_spec (starts records : ℕ → Bool) (dimSize : ℕ → γ) (rank : ℕ) :
    LoopInv starts records dimSize rank (collapseLoop starts records dimSize rank) := by
  induction rank with
  | zero => exact ⟨⟨rfl, fun _ h => absurd h not_mem_nil⟩, rfl, .inl ⟨rfl, rfl⟩, rfl⟩
  | succ rank ih =>
    rw [collapseLoop, range_succ, foldl_append]
    exact collapseStep_inv ih

theorem Grouped.uniform {α : Type} {q : ℕ → α} (h : Grouped starts n groups)
    (hq : ∀ b, starts (b + 1) = false → q (b + 1) = q b) {group : List ℕ} (hgroup : group ∈ groups)
    {x y : ℕ} (hx : x ∈ group) (hy : y ∈ group) : q x = q y := by
  obtain ⟨a, k, rfl, -, hrest⟩ := h.run group hgroup
  have hhead : ∀ j ≤ k, q (a + j) = q a := by
    intro j
    induction j with
    | zero => exact fun _ => rfl
    | succ j ih =>
      intro hj
      rw [← ih (by omega)]
      exact hq (a + j) (hrest (a + j + 1) (by omega) (by omega))
  rw [mem_range'_1] at hx hy
  obtain ⟨i, rfl⟩ := Nat.exists_eq_add_of_le hx.1
  obtain ⟨j, rfl⟩ := Nat.exists_eq_add_of_le hy.1
  rw [hhead i (by omega), hhead j (by omega)]

theorem Grouped.nodup (h : Grouped starts n groups) : groups.flatten.Nodup := by
  rw [h.flatten]
  exact nodup_range

theorem Grouped.mem_flatten (h : Grouped starts n groups) {i : ℕ} :
    i ∈ groups.flatten ↔ i < n := by
  rw [h.flatten, mem_range]

theorem length_flatten_eq_iff (h : ∀ group ∈ groups, group ≠ []) :
    groups.length ≤ groups.flatten.length ∧
      (groups.length = groups.flatten.length ↔ ∀ group ∈ groups, group.length = 1) := by
  induction groups with
  | nil => simp
  | cons group groups ih =>
    obtain ⟨hle, hiff⟩ := ih fun g hg => h g (mem_cons_of_mem _ hg)
    have hpos := List.length_pos_iff.mpr (h group mem_cons_self)
    rw [length_cons, flatten_cons, length_append, forall_mem_cons, ← hiff]
    omega

theorem Grouped.length_eq_iff (h : Grouped starts n groups) :
    groups.length = n ↔ ∀ i, 0 < i → i < n → starts i = true := by
  have hiff := (length_flatten_eq_iff fun _ hgroup => h.ne_nil hgroup).2
  rw [h.flatten, length_range] at hiff
  rw [hiff]
  constructor
  · intro hone i hpos hi
    obtain ⟨group, hgroup, hmem⟩ := List.mem_flatten.mp (h.mem_flatten.mpr hi)
    have hlength := hone group hgroup
    obtain ⟨a, k, rfl, ha, -⟩ := h.run group hgroup
    rw [length_range'] at hlength
    rw [mem_range'_1] at hmem
    obtain rfl : i = a := by omega
    exact ha.resolve_left hpos.ne'
  · intro hstarts group hgroup
    obtain ⟨a, k, rfl, -, hrest⟩ := h.run group hgroup
    rw [length_range']
    by_contra hk
    have hmem : a + 1 ∈ groups.flatten :=
      List.mem_flatten.mpr ⟨_, hgroup, mem_range'_1.mpr ⟨by omega, by omega⟩⟩
    have hnext := hrest (a + 1) (by omega) (by omega)
    rw [hstarts (a + 1) (by omega) (h.mem_flatten.mp hmem)] at hnext
    exact Bool.noConfusion hnext

theorem groupOf_eq (hnodup : groups.flatten.Nodup) {i g : ℕ} {group : List ℕ}
    (hg : groups[g]? = some group) (hi : i ∈ group) : groupOf groups i = g := by
  obtain ⟨hlt, hget⟩ := List.getElem?_eq_some_iff.mp hg
  rw [groupOf, findIdx_eq hlt]
  refine ⟨by simpa [hget] using hi, fun j hj => ?_⟩
  by_contra hmem
  rw [Bool.not_eq_false, decide_eq_true_iff] at hmem
  have hdisjoint := (List.nodup_flatten.mp hnodup).2
  have hpair := List.pairwise_iff_getElem.mp hdisjoint j g (by omega) hlt hj
  exact hpair hmem (hget ▸ hi)

end Loop

/-! Positions in the groups. -/

section Positions

def splitLengths {α : Type} : List ℕ → List α → List (List α)
  | [], _ => []
  | k :: lengths, l => l.take k :: splitLengths lengths (l.drop k)

/-- The position in the source of a position in the result of `tensor.collapse_shape`. -/
def collapseIndex (shapes : List (List ℕ)) (idx : List ℕ) : List ℕ :=
  (List.zipWith unravel shapes idx).flatten

/-- The position in the source of a position in the result of `tensor.expand_shape`. -/
def expandIndex (shapes : List (List ℕ)) (idx : List ℕ) : List ℕ :=
  List.zipWith ravel shapes (splitLengths (shapes.map List.length) idx)

/-- Groups of the given sizes: each dimension is `getAffineDimExpr(idx++)`. -/
def numberGroups (sizes : List ℕ) : List (List ℕ) :=
  (sizes.foldl (fun (s : List (List ℕ) × ℕ) size =>
    (s.1 ++ [List.range' s.2 size], s.2 + size)) ([], 0)).1

variable {shapes parts : List (List ℕ)}

theorem splitLengths_flatten {α : Type} (parts : List (List α)) :
    splitLengths (parts.map List.length) parts.flatten = parts := by
  induction parts with
  | nil => rfl
  | cons part parts ih =>
    rw [map_cons, flatten_cons, splitLengths, take_left, drop_left, ih]

theorem lengths_of_inBounds (h : List.Forall₂ InBounds shapes parts) :
    shapes.map List.length = parts.map List.length := by
  induction h with
  | nil => rfl
  | cons hfirst _ ih => rw [map_cons, map_cons, ih, hfirst.length_eq]

theorem expandIndex_flatten (h : List.Forall₂ InBounds shapes parts) :
    expandIndex shapes parts.flatten = List.zipWith ravel shapes parts := by
  rw [expandIndex, lengths_of_inBounds h, splitLengths_flatten]

theorem collapseIndex_ravel (h : List.Forall₂ InBounds shapes parts) :
    collapseIndex shapes (List.zipWith ravel shapes parts) = parts.flatten := by
  induction h with
  | nil => rfl
  | cons hfirst _ ih =>
    rw [collapseIndex] at ih ⊢
    rw [zipWith_cons_cons, zipWith_cons_cons, flatten_cons, ih,
      unravel_ravel hfirst, flatten_cons]

theorem inBounds_groups {groups : List (List ℕ)} {dimSize entry : ℕ → ℕ}
    (h : ∀ d ∈ groups.flatten, entry d < dimSize d) :
    List.Forall₂ InBounds (groups.map (·.map dimSize)) (groups.map (·.map entry)) := by
  rw [forall₂_map_left_iff, forall₂_map_right_iff, forall₂_same]
  intro group hgroup
  rw [InBounds, forall₂_map_left_iff, forall₂_map_right_iff, forall₂_same]
  exact fun d hd => h d (List.mem_flatten.mpr ⟨group, hgroup, hd⟩)

theorem pieces {α : Type} {numbers : List (List ℕ)} {l : List α} (dflt : α)
    (h : numbers.flatten = List.range l.length) :
    numbers.map (·.map fun k => l.getD k dflt) = splitLengths (numbers.map List.length) l := by
  have hflatten : (numbers.map (·.map fun k => l.getD k dflt)).flatten = l := by
    rw [← map_flatten, h]
    refine ext_getElem (by simp) fun k hk hk' => ?_
    rw [getElem_map, getElem_range, getD_eq_getElem _ _ hk']
  have hsplit := splitLengths_flatten (numbers.map (·.map fun k => l.getD k dflt))
  rw [hflatten, map_map] at hsplit
  rw [← hsplit]
  congr 1
  exact map_congr_left fun number _ => by simp

theorem map_getD_range {α : Type} (l : List α) (dflt : α) :
    (List.range l.length).map (fun k => l.getD k dflt) = l :=
  ext_getElem (by simp) fun k hk hk' => by
    rw [getElem_map, getElem_range, getD_eq_getElem _ _ hk']

theorem filter_positions {α : Type} (l : List α) (dflt : α) {f : α → Bool} {f' : ℕ → Bool}
    (h : ∀ k x, l[k]? = some x → f' k = f x) :
    ((List.range l.length).filter f').map (fun k => l.getD k dflt) = l.filter f := by
  conv_rhs => rw [← map_getD_range l dflt]
  rw [filter_map]
  congr 1
  refine filter_congr fun k hk => ?_
  have hlt := List.mem_range.mp hk
  rw [h k l[k] (List.getElem?_eq_getElem hlt), Function.comp_apply, getD_eq_getElem _ _ hlt]

def entryAt (dims idx : List ℕ) (d : ℕ) : ℕ := idx.getD (dims.idxOf d) 0

theorem map_entryAt {dims idx : List ℕ} {dimSize : ℕ → ℕ} (hnodup : dims.Nodup)
    (h : InBounds (dims.map dimSize) idx) :
    dims.map (entryAt dims idx) = idx ∧ ∀ d ∈ dims, entryAt dims idx d < dimSize d := by
  have hlength : dims.length = idx.length := by simpa using h.length_eq
  have hentry : dims.map (entryAt dims idx) = idx := by
    refine ext_getElem (by simp [hlength]) fun k hk hk' => ?_
    rw [getElem_map, entryAt, hnodup.idxOf_getElem k (by omega), getD_eq_getElem _ _ hk']
  refine ⟨hentry, ?_⟩
  rw [← hentry, InBounds, forall₂_map_left_iff, forall₂_map_right_iff,
    forall₂_same] at h
  exact h

theorem collapseIndex_expandIndex {groups : List (List ℕ)} {dimSize : ℕ → ℕ} {idx : List ℕ}
    (hnodup : groups.flatten.Nodup) (h : InBounds (groups.flatten.map dimSize) idx) :
    collapseIndex (groups.map (·.map dimSize)) (expandIndex (groups.map (·.map dimSize)) idx) =
      idx := by
  obtain ⟨hidx, hbound⟩ := map_entryAt hnodup h
  have hparts := inBounds_groups hbound
  have hexpand := expandIndex_flatten hparts
  rw [← map_flatten, hidx] at hexpand
  rw [hexpand, collapseIndex_ravel hparts, ← map_flatten, hidx]

theorem numberGroups_spec (sizes : List ℕ) :
    (numberGroups sizes).map List.length = sizes ∧
      (numberGroups sizes).flatten = List.range sizes.sum := by
  suffices h : ∀ s : List (List ℕ) × ℕ, s.1.flatten = List.range s.2 →
      let t := sizes.foldl (fun (s : List (List ℕ) × ℕ) size =>
        (s.1 ++ [List.range' s.2 size], s.2 + size)) s
      t.1.map List.length = s.1.map List.length ++ sizes ∧
        t.1.flatten = List.range (s.2 + sizes.sum) by
    have hstart := h ([], 0) rfl
    rwa [Nat.zero_add] at hstart
  induction sizes with
  | nil => exact fun s hs => ⟨(append_nil _).symm, hs⟩
  | cons size sizes ih =>
    intro s hs
    have hnext := ih (s.1 ++ [List.range' s.2 size], s.2 + size) (by
      rw [flatten_append, hs, flatten_singleton, range_eq_range',
        range_eq_range', ← List.range'_append_1, Nat.zero_add])
    rw [map_append, map_singleton, length_range', append_assoc,
      Nat.add_assoc] at hnext
    exact hnext

/-- The position before a reduction: the reduced entries and the others, each in order. -/
def mergeIndex : List Bool → List ℕ → List ℕ → List ℕ
  | true :: flags, out, r :: reduced => r :: mergeIndex flags out reduced
  | false :: flags, o :: out, reduced => o :: mergeIndex flags out reduced
  | _, _, _ => []

def positions (shape : List ℕ) : List (List ℕ) := (List.range shape.prod).map (unravel shape)

end Positions

section Tensors

/-! Tensors and reshapes. -/

structure Tensor (E Value : Type) where
  shape : List ℕ
  elementType : E
  elements : List ℕ → Value

variable {E Value : Type}

def dimSize (shape : List ℕ) (d : ℕ) : ℕ := shape.getD d 0

def groupShapes (shape : List ℕ) (reassociation : List (List ℕ)) : List (List ℕ) :=
  reassociation.map (·.map (dimSize shape))

/-- What the verifiers of `tensor.collapse_shape` and `tensor.expand_shape` ask. -/
structure ReshapeVerified (expanded collapsed : Tensor E Value) (reassociation : List (List ℕ)) :
    Prop where
  flatten : reassociation.flatten = List.range expanded.shape.length
  nonempty : [] ∉ reassociation
  shape : collapsed.shape = (groupShapes expanded.shape reassociation).map List.prod
  elementType : collapsed.elementType = expanded.elementType

/-- `tensor.collapse_shape` into the type that is given. -/
def collapseShapeOp (src : Tensor E Value) (shape : List ℕ) (elementType : E)
    (reassociation : List (List ℕ)) : Tensor E Value :=
  ⟨shape, elementType, fun idx => src.elements (collapseIndex (groupShapes src.shape reassociation)
    idx)⟩

/-- `tensor.expand_shape` into the type that is given. -/
def expandShapeOp (src : Tensor E Value) (shape : List ℕ) (elementType : E)
    (reassociation : List (List ℕ)) : Tensor E Value :=
  ⟨shape, elementType, fun idx => src.elements (expandIndex (groupShapes shape reassociation) idx)⟩

/-- The same type, and the same elements in range. -/
structure Same (x y : Tensor E Value) : Prop where
  shape : x.shape = y.shape
  elementType : x.elementType = y.elementType
  elements : ∀ idx, InBounds y.shape idx → x.elements idx = y.elements idx

end Tensors

end TritonCpu.Reassociation
