import TritonCpu.Reassociation

/-!
# Collapsing a transpose

`CollapseTranspose` merges the dimensions that stay next to each other, transposes
the groups, and expands the result. Every element is read where the transpose of all
dimensions reads it.
-/

set_option autoImplicit false

namespace TritonCpu.CollapseTranspose
open TritonIR FlatTensor Reassociation List

/-- `linalg.transpose` of a tensor of static shape. -/
structure TransposeOp where
  shape : List ℕ
  permutation : List ℕ
  isPermutation : permutation.Perm (List.range shape.length)

/-- The position in the input of a position in the result: entry `k` is entry `perm[k]` of it. -/
def transposeIndex (perm idx : List ℕ) : List ℕ :=
  (List.range perm.length).map fun d => idx.getD (perm.idxOf d) 0

/-! The pattern. -/

/-- `permIdx[perm[i]] = i` -/
def permIdx (perm : List ℕ) : List ℕ :=
  (List.range perm.length).foldl (fun permIdx i => permIdx.set (perm.getD i 0) i)
    (List.replicate perm.length 0)

def startsGroup (perm : List ℕ) (i : ℕ) : Bool :=
  let id := (permIdx perm).getD i 0
  id = 0 || perm.getD id 0 != perm.getD (id - 1) 0 + 1

/-- `newPerm.back() == d` skips `d`. -/
def pushNew (newPerm : List ℕ) (d : ℕ) : List ℕ :=
  if newPerm.getLast? = some d then newPerm else newPerm ++ [d]

def newPerm (perm mapDim : List ℕ) : List ℕ :=
  perm.foldl (fun newPerm i => pushNew newPerm (mapDim.getD i 0)) []

def reassociationMapRe (reassociationMap : List (List ℕ)) (perm : List ℕ) : List (List ℕ) :=
  numberGroups <| (List.range reassociationMap.length).map fun i =>
    (reassociationMap.getD (perm.getD i 0) []).length

/-- The operations in place of a transpose: the input's groups, the transpose of the groups,
and the result's groups. -/
structure Collapsed where
  collapseShapeInput : List ℕ
  reassociationMap : List (List ℕ)
  perm : List ℕ
  transposedShape : List ℕ
  reassociationMapRe : List (List ℕ)

namespace TransposeOp

variable (op : TransposeOp)

def dimSize (d : ℕ) : ℕ := op.shape.getD d 0

def resultShape : List ℕ := op.permutation.map op.dimSize

def collapse : Option Collapsed :=
  if op.shape.length ≤ 3 then none
  else
    let s := collapseLoop (startsGroup op.permutation) (fun _ => true) op.dimSize op.shape.length
    if s.collapseShape.length = op.shape.length then none
    else
      let perm := newPerm op.permutation s.recorded
      some
        { collapseShapeInput := s.collapseShape
          reassociationMap := s.reassociationMap
          perm
          transposedShape := perm.map fun g => s.collapseShape.getD g 0
          reassociationMapRe := reassociationMapRe s.reassociationMap perm }

/-- The position in the input that the operations read for a position in the result. -/
def collapsedIndex (c : Collapsed) (idx : List ℕ) : List ℕ :=
  collapseIndex (c.reassociationMap.map (·.map op.dimSize)) <|
    transposeIndex c.perm <|
      expandIndex (c.reassociationMapRe.map (·.map fun k => op.resultShape.getD k 0)) idx

end TransposeOp

/-! The inverse permutation. -/

section Permutation

variable {perm : List ℕ} {n i b : ℕ}

theorem getD_permIdx (hperm : perm.Perm (List.range n)) {k : ℕ} (hk : perm[k]? = some i) :
    (permIdx perm).getD i 0 = k := by
  have hlength : perm.length = n := by rw [hperm.length_eq, length_range]
  have hnodup := hperm.nodup_iff.mpr nodup_range
  obtain ⟨hklt, hget⟩ := List.getElem?_eq_some_iff.mp hk
  suffices h : ∀ m ≤ perm.length,
      let table := (List.range m).foldl (fun permIdx i => permIdx.set (perm.getD i 0) i)
        (List.replicate perm.length 0)
      table.length = perm.length ∧ ∀ k (hk : k < perm.length), k < m → table.getD perm[k] 0 = k by
    rw [← hget]
    exact (h perm.length le_rfl).2 k hklt hklt
  intro m hm
  induction m with
  | zero => exact ⟨length_replicate, fun k _ hk => absurd hk (Nat.not_lt_zero k)⟩
  | succ m ih =>
    obtain ⟨htable, hbefore⟩ := ih (by omega)
    rw [range_succ, foldl_append]
    refine ⟨by rw [foldl_cons, foldl_nil, length_set, htable], fun k hk hkm => ?_⟩
    have hmget : perm.getD m 0 = perm[m] := getD_eq_getElem perm 0 hm
    rw [foldl_cons, foldl_nil, hmget, getD_eq_getElem?_getD]
    rcases Nat.lt_succ_iff_lt_or_eq.mp hkm with hlt | rfl
    · have hne : perm[m] ≠ perm[k] := fun h => by
        have := (List.Nodup.getElem_inj_iff hnodup).mp h
        omega
      rw [List.getElem?_set_ne hne, ← getD_eq_getElem?_getD, hbefore k hk hlt]
    · have hbound : perm[k] < perm.length := by
        have hmem := hperm.mem_iff.mp (getElem_mem hk)
        rw [mem_range] at hmem
        omega
      rw [List.getElem?_set_self (by rwa [htable])]
      rfl

theorem exists_position (hperm : perm.Perm (List.range n)) (hi : i < n) :
    ∃ k : ℕ, perm[k]? = some i :=
  List.getElem?_of_mem (hperm.mem_iff.mpr (mem_range.mpr hi))

theorem follows (hperm : perm.Perm (List.range n)) (hstarts : startsGroup perm (b + 1) = false)
    (hb : b + 1 < n) : ∃ k, perm[k]? = some b ∧ perm[k + 1]? = some (b + 1) := by
  obtain ⟨k, hk⟩ := exists_position hperm hb
  rw [startsGroup, getD_permIdx hperm hk, Bool.or_eq_false_iff] at hstarts
  obtain ⟨hpos, hprev⟩ := hstarts
  cases k with
  | zero => simp at hpos
  | succ k =>
    refine ⟨k, ?_, hk⟩
    have hlt : k + 1 < perm.length := (List.getElem?_eq_some_iff.mp hk).1
    rw [Nat.add_sub_cancel, getD_eq_getElem?_getD, hk] at hprev
    have hget : b = perm.getD k 0 := Nat.succ.inj (bne_eq_false_iff_eq.mp hprev)
    rw [getD_eq_getElem perm 0 (by omega)] at hget
    rw [List.getElem?_eq_getElem (by omega), ← hget]

theorem starts_head (hperm : perm.Perm (List.range n)) (h : perm[0]? = some i) :
    startsGroup perm i = true := by
  rw [startsGroup, getD_permIdx hperm h]
  rfl

end Permutation

/-! The permutation, group by group. -/

section Walk

variable {perm : List ℕ} {n : ℕ} {groups : List (List ℕ)}

theorem foldl_pushNew_replicate (np : List ℕ) (g k : ℕ) (h : np.getLast? ≠ some g) :
    (List.replicate (k + 1) g).foldl pushNew np = np ++ [g] := by
  induction k with
  | zero => simp [pushNew, h]
  | succ k ih =>
    rw [replicate_succ', foldl_append, ih]
    simp [pushNew]

theorem group_of_start (hgroups : Grouped (startsGroup perm) n groups) {c : ℕ} (hc : c < n)
    (hstart : c = 0 ∨ startsGroup perm c = true) :
    ∃ k, groups[groupOf groups c]? = some (List.range' c (k + 1)) ∧
      ∀ b, c < b → b ≤ c + k → startsGroup perm b = false := by
  obtain ⟨group, hgroup, hmem⟩ := mem_flatten.mp (hgroups.mem_flatten.mpr hc)
  obtain ⟨g, hg⟩ := List.getElem?_of_mem hgroup
  obtain ⟨a, k, rfl, -, hrest⟩ := hgroups.run group hgroup
  rw [groupOf_eq hgroups.nodup hg hmem, hg]
  rw [mem_range'_1] at hmem
  have hac : a = c := by
    by_contra hne
    have hfalse := hrest c (by omega) (by omega)
    rcases hstart with rfl | hstart
    · omega
    · rw [hfalse] at hstart
      exact absurd hstart Bool.false_ne_true
  rw [hac] at hrest ⊢
  exact ⟨k, rfl, hrest⟩

theorem group_is_prefix (hperm : perm.Perm (List.range n))
    (hgroups : Grouped (startsGroup perm) n groups) {before rest : List ℕ} {c k : ℕ}
    (hsplit : perm = before ++ c :: rest)
    (hgroup : groups[groupOf groups c]? = some (List.range' c (k + 1)))
    (hrest : ∀ b, c < b → b ≤ c + k → startsGroup perm b = false) :
    c :: rest = List.range' c (k + 1) ++ (c :: rest).drop (k + 1) := by
  have hnodup := hperm.nodup_iff.mpr nodup_range
  have hget : ∀ j ≤ k, (c :: rest)[j]? = some (c + j) := by
    intro j
    induction j with
    | zero => exact fun _ => rfl
    | succ j ih =>
      intro hj
      have hat := ih (by omega)
      have hlt : c + j + 1 < n := hgroups.mem_flatten.mp (mem_flatten.mpr
        ⟨_, mem_of_getElem? hgroup, mem_range'_1.mpr ⟨by omega, by omega⟩⟩)
      obtain ⟨q, hq, hnext⟩ := follows hperm (hrest (c + j + 1) (by omega) (by omega)) hlt
      have hplace : perm[before.length + j]? = some (c + j) := by
        rw [hsplit, List.getElem?_append_right (by omega), Nat.add_sub_cancel_left, hat]
      have hqj : q = before.length + j := by
        obtain ⟨hlt', -⟩ := List.getElem?_eq_some_iff.mp hq
        exact (List.getElem?_inj hlt' hnodup).mp (hq.trans hplace.symm)
      rw [hqj, hsplit, Nat.add_assoc, List.getElem?_append_right (by omega),
        Nat.add_sub_cancel_left] at hnext
      exact hnext
  have htake : (c :: rest).take (k + 1) = List.range' c (k + 1) := by
    refine ext_getElem? fun j => ?_
    rw [List.getElem?_take]
    by_cases hj : j < k + 1
    · rw [if_pos hj, hget j (by omega), List.getElem?_range' hj, Nat.one_mul]
    · rw [if_neg hj, List.getElem?_eq_none (by rw [length_range']; omega)]
  rw [← htake, take_append_drop]

theorem next_starts (hperm : perm.Perm (List.range n))
    (hgroups : Grouped (startsGroup perm) n groups) {before rest : List ℕ} {c c' k : ℕ}
    (hsplit : perm = before ++ (List.range' c (k + 1) ++ c' :: rest))
    (hgroup : groups[groupOf groups c]? = some (List.range' c (k + 1))) :
    (c' = 0 ∨ startsGroup perm c' = true) ∧ groupOf groups c' ≠ groupOf groups c := by
  have hnodup := hperm.nodup_iff.mpr nodup_range
  have hmem : c' ∈ perm := by simp [hsplit]
  have hc' : c' < n := mem_range.mp (hperm.mem_iff.mp hmem)
  have hnot : c' ∉ List.range' c (k + 1) := by
    intro hin
    rw [hsplit, nodup_append] at hnodup
    exact (nodup_append.mp hnodup.2.1).2.2 c' hin c' mem_cons_self rfl
  have hother : groupOf groups c' ≠ groupOf groups c := by
    intro heq
    obtain ⟨group, hin, hmem'⟩ := mem_flatten.mp (hgroups.mem_flatten.mpr hc')
    obtain ⟨g, hg⟩ := List.getElem?_of_mem hin
    rw [← groupOf_eq hgroups.nodup hg hmem', heq, hgroup] at hg
    exact hnot (Option.some.inj hg ▸ hmem')
  refine ⟨?_, hother⟩
  by_contra hcon
  rw [not_or, Bool.not_eq_true] at hcon
  obtain ⟨b, rfl⟩ := Nat.exists_eq_succ_of_ne_zero hcon.1
  obtain ⟨q, hq, hnext⟩ := follows hperm hcon.2 hc'
  have hplace : perm[before.length + k + 1]? = some (b + 1) := by
    rw [hsplit, List.getElem?_append_right (by omega), List.getElem?_append_right (by simp; omega)]
    have hindex : before.length + k + 1 - before.length - (List.range' c (k + 1)).length = 0 := by
      rw [length_range']
      omega
    rw [hindex]
    rfl
  have hq' : q + 1 = before.length + k + 1 :=
    (List.getElem?_inj (List.getElem?_eq_some_iff.mp hnext).1 hnodup).mp (hnext.trans hplace.symm)
  have hlast : perm[before.length + k]? = some (c + k) := by
    rw [hsplit, List.getElem?_append_right (by omega), List.getElem?_append_left (by simp),
      Nat.add_sub_cancel_left, List.getElem?_range' (by omega), Nat.one_mul]
  have hbk : b = c + k := by
    obtain rfl : q = before.length + k := by omega
    exact Option.some.inj (hq.symm.trans hlast)
  subst hbk
  obtain ⟨group, hin, hmem'⟩ := mem_flatten.mp (hgroups.mem_flatten.mpr hc')
  obtain ⟨g, hg⟩ := List.getElem?_of_mem hin
  obtain ⟨a, k', rfl, ha, -⟩ := hgroups.run group hin
  have hbefore : c + k ∈ List.range' a (k' + 1) := by
    rw [mem_range'_1] at hmem' ⊢
    have hne : a ≠ c + k + 1 := by
      rintro rfl
      rcases ha with ha | ha
      · omega
      · rw [hcon.2] at ha
        exact absurd ha Bool.false_ne_true
    omega
  have hin' : c + k ∈ List.range' c (k + 1) := mem_range'_1.mpr ⟨by omega, by omega⟩
  have hsame := (groupOf_eq hgroups.nodup hg hbefore).symm.trans
    (groupOf_eq hgroups.nodup hgroup hin')
  exact hother ((groupOf_eq hgroups.nodup hg hmem').trans hsame)

theorem walk (hperm : perm.Perm (List.range n)) (hgroups : Grouped (startsGroup perm) n groups)
    (before rest : List ℕ) (hsplit : perm = before ++ rest)
    (hstart : ∀ c ∈ rest.head?, c = 0 ∨ startsGroup perm c = true) :
    ∃ gs : List ℕ, rest = gs.flatMap (fun g => groups.getD g []) ∧ (∀ g ∈ gs, g < groups.length) ∧
      ∀ np : List ℕ, (∀ c ∈ rest.head?, np.getLast? ≠ some (groupOf groups c)) →
        (rest.map (groupOf groups)).foldl pushNew np = np ++ gs := by
  induction hlen : rest.length using Nat.strong_induction_on generalizing before rest with
  | _ len ih =>
    cases rest with
    | nil => exact ⟨[], rfl, fun _ h => absurd h not_mem_nil, fun np _ => by simp⟩
    | cons c rest =>
      have hc : c < n := mem_range.mp (hperm.mem_iff.mp (by simp [hsplit]))
      obtain ⟨k, hgroup, hrest⟩ := group_of_start hgroups hc (hstart c rfl)
      have hfront := group_is_prefix hperm hgroups hsplit hgroup hrest
      generalize hrest' : (c :: rest).drop (k + 1) = rest' at hfront
      have hsplit' : perm = (before ++ List.range' c (k + 1)) ++ rest' := by
        rw [hsplit, hfront, append_assoc]
      have hnext : ∀ c' ∈ rest'.head?, (c' = 0 ∨ startsGroup perm c' = true) ∧
          groupOf groups c' ≠ groupOf groups c := by
        intro c' hc'
        cases rest' with
        | nil => simp at hc'
        | cons d rest' =>
          obtain rfl : d = c' := Option.some.inj hc'
          rw [append_assoc] at hsplit'
          exact next_starts hperm hgroups hsplit' hgroup
      have hshorter : rest'.length < len := by
        rw [← hrest', ← hlen, length_drop, length_cons]
        omega
      obtain ⟨gs, hgs, hbound, hfold⟩ := ih _ hshorter _ rest' hsplit' (fun c' h => (hnext c' h).1)
        rfl
      have hgetD : groups.getD (groupOf groups c) [] = List.range' c (k + 1) := by
        rw [getD_eq_getElem?_getD, hgroup]
        rfl
      refine ⟨groupOf groups c :: gs, ?_, ?_, ?_⟩
      · rw [flatMap_cons, hgetD, ← hgs, ← hfront]
      · intro g hg
        rcases mem_cons.mp hg with rfl | hg
        · exact (List.getElem?_eq_some_iff.mp hgroup).1
        · exact hbound g hg
      · intro np hnp
        have hsame : (List.range' c (k + 1)).map (groupOf groups) =
            List.replicate (k + 1) (groupOf groups c) := by
          rw [eq_replicate_iff]
          refine ⟨by simp, fun g hg => ?_⟩
          obtain ⟨d, hd, rfl⟩ := mem_map.mp hg
          exact groupOf_eq hgroups.nodup hgroup hd
        rw [hfront, map_append, foldl_append, hsame,
          foldl_pushNew_replicate _ _ _ (hnp c rfl), hfold, append_assoc]
        · rfl
        · intro c' hc'
          rw [List.getLast?_concat]
          exact fun heq => (hnext c' hc').2 (Option.some.inj heq).symm

end Walk

/-! The groups on both sides. -/

section Groups

variable {perm gs : List ℕ} {n : ℕ} {groups : List (List ℕ)}

/-- The permutation, cut into groups: each group of the input once, in the order of the result. -/
structure Regrouped (perm : List ℕ) (groups : List (List ℕ)) (gs : List ℕ) : Prop where
  flatten : perm = gs.flatMap fun g => groups.getD g []
  isPermutation : gs.Perm (List.range groups.length)

theorem newPerm_regroups (hperm : perm.Perm (List.range n))
    (hgroups : Grouped (startsGroup perm) n groups) :
    Regrouped perm groups (newPerm perm ((List.range n).map (groupOf groups))) := by
  have hnodup := hperm.nodup_iff.mpr nodup_range
  obtain ⟨gs, hgs, hbound, hfold⟩ := walk hperm hgroups [] perm rfl fun c hc => by
    rw [Option.mem_def, List.head?_eq_getElem?] at hc
    exact .inr (starts_head hperm hc)
  have hnew : newPerm perm ((List.range n).map (groupOf groups)) = gs := by
    have hmap : perm.map (fun i => ((List.range n).map (groupOf groups)).getD i 0) =
        perm.map (groupOf groups) := by
      refine map_congr_left fun i hi => ?_
      have hlt := mem_range.mp (hperm.mem_iff.mp hi)
      rw [getD_eq_getElem _ _ (by simpa using hlt)]
      simp
    have hrun := hfold [] fun c _ => by simp
    rw [← hmap, foldl_map, nil_append] at hrun
    exact hrun
  rw [hnew]
  refine ⟨hgs, (perm_ext_iff_of_nodup ?_ nodup_range).mpr fun g => ?_⟩
  · rw [hgs, nodup_flatMap] at hnodup
    refine hnodup.2.imp_of_mem fun {g g'} hg _ hdisjoint heq => ?_
    subst heq
    have hlt := hbound g hg
    have hne := hgroups.ne_nil (getElem_mem hlt)
    rw [← getD_eq_getElem groups [] hlt] at hne
    obtain ⟨x, hx⟩ := exists_mem_of_ne_nil _ hne
    exact hdisjoint hx hx
  · rw [mem_range]
    refine ⟨hbound g, fun hlt => ?_⟩
    obtain ⟨x, hx⟩ := exists_mem_of_ne_nil _ (hgroups.ne_nil (getElem_mem hlt))
    have hxn := hgroups.mem_flatten.mp (mem_flatten.mpr ⟨_, getElem_mem hlt, hx⟩)
    have hmem := hperm.mem_iff.mpr (mem_range.mpr hxn)
    rw [hgs, mem_flatMap] at hmem
    obtain ⟨g', hg', hx'⟩ := hmem
    have hlt' := hbound g' hg'
    rw [getD_eq_getElem _ _ hlt'] at hx'
    have hsame := (groupOf_eq hgroups.nodup (List.getElem?_eq_getElem hlt) hx).symm.trans
      (groupOf_eq hgroups.nodup (List.getElem?_eq_getElem hlt') hx')
    rwa [hsame]

end Groups

/-! Every element is read at its place. -/

section Reading

variable {perm gs idx : List ℕ} {n : ℕ} {groups : List (List ℕ)} {dimSize : ℕ → ℕ}

def resultGroups (groups : List (List ℕ)) (gs : List ℕ) : List (List ℕ) :=
  gs.map fun g => groups.getD g []

theorem Regrouped.resultGroups_flatten (h : Regrouped perm groups gs) :
    (resultGroups groups gs).flatten = perm := by
  rw [h.flatten, resultGroups, flatMap_def]

theorem Regrouped.length (h : Regrouped perm groups gs) : gs.length = groups.length := by
  rw [h.isPermutation.length_eq, length_range]

theorem Regrouped.numbers (h : Regrouped perm groups gs) :
    (reassociationMapRe groups gs).map List.length = (resultGroups groups gs).map List.length ∧
      (reassociationMapRe groups gs).flatten = List.range perm.length := by
  have hsizes : ((List.range groups.length).map fun i => (groups.getD (gs.getD i 0) []).length) =
      (resultGroups groups gs).map List.length := by
    rw [resultGroups, map_map, ← h.length]
    refine ext_getElem (by simp) fun i hi _ => ?_
    have hlt : i < gs.length := by simpa using hi
    rw [getElem_map, getElem_range, getElem_map, getD_eq_getElem gs 0 hlt]
    rfl
  have hspec := numberGroups_spec ((resultGroups groups gs).map List.length)
  rw [← length_flatten, h.resultGroups_flatten] at hspec
  rw [reassociationMapRe, hsizes]
  exact hspec

theorem Regrouped.resultShapes (h : Regrouped perm groups gs) (dimSize : ℕ → ℕ) :
    (reassociationMapRe groups gs).map (·.map fun k => (perm.map dimSize).getD k 0) =
      (resultGroups groups gs).map (·.map dimSize) := by
  obtain ⟨hlengths, hflatten⟩ := h.numbers
  rw [pieces 0 (by rw [hflatten, length_map]), hlengths]
  have hsplit := splitLengths_flatten ((resultGroups groups gs).map (·.map dimSize))
  rw [← map_flatten, h.resultGroups_flatten, map_map] at hsplit
  rw [← hsplit]
  congr 1
  exact map_congr_left fun group _ => by simp

theorem transposeIndex_map (hperm : perm.Perm (List.range n)) (v : ℕ → ℕ) :
    transposeIndex perm (perm.map v) = (List.range n).map v := by
  have hlength : perm.length = n := by rw [hperm.length_eq, length_range]
  rw [transposeIndex, hlength]
  refine map_congr_left fun d hd => ?_
  have hmem := hperm.mem_iff.mpr hd
  have hlt := idxOf_lt_length_of_mem hmem
  rw [getD_eq_getElem _ _ (by simpa using hlt), getElem_map, getElem_idxOf hlt]

theorem Regrouped.reads (h : Regrouped perm groups gs) (hperm : perm.Perm (List.range n))
    (hflatten : groups.flatten = List.range n) (hidx : InBounds (perm.map dimSize) idx) :
    collapseIndex (groups.map (·.map dimSize)) (transposeIndex gs
      (expandIndex ((resultGroups groups gs).map (·.map dimSize)) idx)) =
      transposeIndex perm idx := by
  obtain ⟨hidx, hbound⟩ := map_entryAt (hperm.nodup_iff.mpr nodup_range) hidx
  generalize entryAt perm idx = entry at hidx hbound
  subst hidx
  have hentry : ∀ d < n, entry d < dimSize d := fun d hd =>
    hbound d (hperm.mem_iff.mpr (mem_range.mpr hd))
  have hresult : List.Forall₂ InBounds ((resultGroups groups gs).map (·.map dimSize))
      ((resultGroups groups gs).map (·.map entry)) := inBounds_groups fun d hd => by
    rw [h.resultGroups_flatten] at hd
    exact hentry d (mem_range.mp (hperm.mem_iff.mp hd))
  have hinput : List.Forall₂ InBounds (groups.map (·.map dimSize)) (groups.map (·.map entry)) :=
    inBounds_groups fun d hd => by
      rw [hflatten] at hd
      exact hentry d (mem_range.mp hd)
  have hexpand := expandIndex_flatten hresult
  rw [← map_flatten, h.resultGroups_flatten, zipWith_map, resultGroups,
    zipWith_self] at hexpand
  rw [resultGroups, hexpand, map_map, transposeIndex_map h.isPermutation, ← map_map,
    map_getD_range, transposeIndex_map hperm]
  have hcollapse := collapseIndex_ravel hinput
  rwa [zipWith_map, zipWith_self, ← map_flatten, hflatten] at hcollapse

end Reading

/-! The pattern as a whole. -/

namespace TransposeOp

/-- The groups of both sides are whole neighbouring dimensions in order, the new permutation
is one, the shapes fit, and each position of the result is read where the transpose reads it. -/
structure Correct (op : TransposeOp) (c : Collapsed) : Prop where
  input : c.reassociationMap.flatten = List.range op.shape.length
  input_ne : [] ∉ c.reassociationMap
  inputShape : c.collapseShapeInput = c.reassociationMap.map fun group =>
    (group.map op.dimSize).prod
  isPermutation : c.perm.Perm (List.range c.collapseShapeInput.length)
  result : c.reassociationMapRe.flatten = List.range op.resultShape.length
  result_ne : [] ∉ c.reassociationMapRe
  transposed : c.transposedShape = c.perm.map fun g => c.collapseShapeInput.getD g 0
  resultShape : c.transposedShape = c.reassociationMapRe.map fun group =>
    (group.map fun k => op.resultShape.getD k 0).prod
  reads : ∀ idx, InBounds op.resultShape idx →
    op.collapsedIndex c idx = transposeIndex op.permutation idx

theorem collapse_correct (op : TransposeOp) (c : Collapsed) (h : op.collapse = some c) :
    op.Correct c := by
  have hspec := collapseLoop_spec (startsGroup op.permutation) (fun _ => true) op.dimSize
    op.shape.length
  simp only [collapse] at h
  generalize collapseLoop (startsGroup op.permutation) (fun _ => true) op.dimSize
    op.shape.length = s at h hspec
  split_ifs at h with hrank hsame
  obtain rfl := Option.some.inj h
  have hgroups := hspec.grouped
  have hregroups := newPerm_regroups op.isPermutation hgroups
  have hrecorded := hspec.recorded
  rw [filter_true] at hrecorded
  rw [← hrecorded] at hregroups
  obtain ⟨hnumbers, hflatten⟩ := hregroups.numbers
  have hshapes := hregroups.resultShapes op.dimSize
  refine ⟨hgroups.flatten, fun hmem => hgroups.ne_nil hmem rfl, hspec.shape, ?_, ?_, ?_, rfl, ?_,
    fun idx hidx => ?_⟩
  · rw [hspec.shape, length_map]
    exact hregroups.isPermutation
  · rw [hflatten, resultShape, length_map]
  · intro hmem
    have hzero : 0 ∈ (resultGroups s.reassociationMap (newPerm op.permutation s.recorded)).map
        List.length := hnumbers ▸ mem_map.mpr ⟨[], hmem, rfl⟩
    obtain ⟨group, hgroup, hnil⟩ := mem_map.mp hzero
    obtain ⟨g, hg, rfl⟩ := mem_map.mp hgroup
    have hlt := mem_range.mp (hregroups.isPermutation.mem_iff.mp hg)
    rw [getD_eq_getElem _ _ hlt, length_eq_zero_iff] at hnil
    exact hgroups.ne_nil (getElem_mem hlt) hnil
  · have hproducts := congrArg (List.map List.prod) hshapes
    rw [map_map, map_map, resultGroups, map_map] at hproducts
    refine Eq.trans ?_ hproducts.symm
    refine map_congr_left fun g hg => ?_
    have hlt := mem_range.mp (hregroups.isPermutation.mem_iff.mp hg)
    rw [hspec.shape, getD_eq_getElem _ _ (by simpa using hlt), getElem_map]
    simp only [Function.comp_apply]
    rw [getD_eq_getElem _ _ hlt]
  · rw [collapsedIndex]
    show collapseIndex _ (transposeIndex _ (expandIndex
      ((reassociationMapRe _ _).map (·.map fun k => (op.permutation.map op.dimSize).getD k 0))
      idx)) = _
    rw [hshapes]
    exact hregroups.reads op.isPermutation hgroups.flatten hidx

def sample : TransposeOp := ⟨[2, 1, 3, 5], [2, 3, 0, 1], by decide⟩

theorem collapse_correct_sample :
    sample.Correct ⟨[2, 15], [[0, 1], [2, 3]], [1, 0], [15, 2], [[0, 1], [2, 3]]⟩ :=
  collapse_correct sample _ rfl

end TransposeOp

end TritonCpu.CollapseTranspose
