import TritonCpu.RewriteTensorPointer
import Mathlib.Algebra.BigOperators.Group.List.Lemmas
import Mathlib.Data.List.GetD

/-!
# The tensors of pointers and masks of a block pointer

The offsets of a dimension stay one row while dimensions of size 1 are put around
them. At every index of the block the pointers and the masks are the addresses of the
block pointer that is described, and whether they are in bounds.
-/

set_option autoImplicit false

namespace TritonCpu.TensorPointer

open TritonCpu.Structured List
open TritonCpu.Combine (InBounds indices broadcastIndex)

variable {E : Type} {env : Name → Val E}

/-- What is recorded of a block pointer says what the pointer is. -/
structure RewritedInfo.Describes (info : RewritedInfo) (env : Name → Val E) (p : BlockPtr) :
    Prop where
  base : (env info.base).toWord = p.parent.base
  shape : (info.shape.map fun n => (env n).toWord) = p.parent.shape
  strides : (info.strides.map fun n => (env n).toWord) = p.parent.strides
  tensorShape : info.tensorShape = p.parent.tensorShape
  offsets : info.offsets.map env = p.offsets.map (.int 64)

section Rows

open RewritedInfo (expandOthers)

variable {i size : ℕ} {row : TensorExpr .i64}

theorem expandOthers_shape (hrow : row.shape = [size]) (j : ℕ) :
    (expandOthers i row j).shape.length = (if i < j then j else j + 1) ∧
      (expandOthers i row j).shape.getD (min i j) 0 = size := by
  induction j with
  | zero => simp [expandOthers, hrow]
  | succ j ih =>
    obtain ⟨hlength, hsize⟩ := ih
    unfold expandOthers
    by_cases hj : j = i
    · subst hj
      exact ⟨by simpa using hlength, by simpa using hsize⟩
    · have hle : j ≤ (expandOthers i row j).shape.length := by
        rw [hlength]
        split <;> omega
      rw [if_neg hj]
      simp only [TensorExpr.shape]
      rw [length_insertIdx_of_le_length hle, hlength, getD_eq_getElem?_getD,
        List.getElem?_insertIdx]
      rw [getD_eq_getElem?_getD] at hsize
      by_cases hlt : i < j
      · have hsucc : i < j + 1 := by omega
        have hmin : min i (j + 1) = i := by omega
        have hmin' : min i j = i := by omega
        rw [hmin'] at hsize
        simp [hlt, hsucc, hmin, hsize]
      · have hsucc : ¬ i < j + 1 := by omega
        have hlast : ¬ j + 1 < j := by omega
        have hmin : min i (j + 1) = j + 1 := by omega
        have hmin' : min i j = j := by omega
        rw [hmin'] at hsize
        simp [hlt, hsucc, hlast, hmin, hsize]

theorem expandOthers_eval (j : ℕ) (index : List ℕ)
    (hlength : index.length = if i < j then j else j + 1) :
    (expandOthers i row j).eval env index = row.eval env [index.getD (min i j) 0] := by
  induction j generalizing index with
  | zero =>
    obtain ⟨a, rfl⟩ := length_eq_one_iff.mp hlength
    simp [expandOthers]
  | succ j ih =>
    unfold expandOthers
    by_cases hj : j = i
    · subst hj
      rw [if_pos rfl, ih index (by simpa using hlength)]
      simp
    · rw [if_neg hj]
      simp only [TensorExpr.eval]
      by_cases hlt : i < j
      · have hsucc : i < j + 1 := by omega
        rw [if_pos hsucc] at hlength
        rw [ih _ (by rw [if_pos hlt, length_eraseIdx_of_lt (by omega)]; omega)]
        have hmin : min i (j + 1) = i := by omega
        have hmin' : min i j = i := by omega
        rw [hmin, hmin', getD_eq_getElem?_getD, List.getElem?_eraseIdx, if_pos hlt,
          getD_eq_getElem?_getD]
      · have hsucc : ¬ i < j + 1 := by omega
        rw [if_neg hsucc] at hlength
        rw [ih _ (by rw [if_neg hlt, length_eraseIdx_of_lt (by omega)]; omega)]
        have hmin : min i (j + 1) = j + 1 := by omega
        have hmin' : min i j = j := by omega
        rw [hmin, hmin', getD_eq_getElem?_getD, List.getElem?_eraseIdx, if_neg (lt_irrefl j),
          getD_eq_getElem?_getD]

end Rows

section Indices

variable {shape index : List ℕ} {i : ℕ}

theorem mem_indices (h : index ∈ indices shape) : InBounds shape index := by
  induction shape generalizing index with
  | nil =>
    obtain rfl := mem_singleton.mp h
    exact .nil
  | cons n shape ih =>
    obtain ⟨k, hk, hmem⟩ := mem_flatMap.mp h
    obtain ⟨rest, hrest, rfl⟩ := mem_map.mp hmem
    exact .cons (mem_range.mp hk) (ih hrest)

theorem getD_lt (h : InBounds shape index) (hi : i < shape.length) :
    index.getD i 0 < shape.getD i 0 := by
  have hlength := h.length_eq
  have hlt := (forall₂_iff_get.mp h).2 i (by omega) hi
  rw [getD_eq_getElem _ _ (by omega), getD_eq_getElem _ _ hi]
  exact hlt

theorem prod_pos (h : InBounds shape index) : 1 ≤ shape.prod := by
  induction h with
  | nil => rfl
  | @cons a n index shape hlt htail ih =>
    rw [prod_cons]
    exact Nat.mul_pos (by omega) ih

theorem getD_le_prod (h : InBounds shape index) : shape.getD i 0 ≤ shape.prod := by
  induction h generalizing i with
  | nil => simp
  | @cons a n index shape hlt htail ih =>
    rw [prod_cons]
    cases i with
    | zero => exact Nat.le_mul_of_pos_right n (prod_pos htail)
    | succ i => exact (ih (i := i)).trans (Nat.le_mul_of_pos_left _ (by omega))

theorem getD_broadcastIndex {shape' : List ℕ} (h : InBounds shape index) (hi : i < shape.length)
    (hlength : shape'.length = shape.length) (hsize : shape'.getD i 0 = shape.getD i 0) :
    (broadcastIndex shape' index).length = shape.length ∧
      (broadcastIndex shape' index).getD i 0 = index.getD i 0 := by
  have hindex := h.length_eq
  have hlt := getD_lt h hi
  have hi' : i < shape'.length := by omega
  have hi'' : i < index.length := by omega
  constructor
  · rw [broadcastIndex, length_zipWith]
    omega
  · rw [← hsize, getD_eq_getElem _ _ hi'', getD_eq_getElem _ _ hi'] at hlt
    simp only [broadcastIndex, getD_eq_getElem?_getD, List.getElem?_zipWith,
      List.getElem?_eq_getElem hi', List.getElem?_eq_getElem hi'']
    by_cases hone : shape'[i] = 1
    · simp [hone]
      omega
    · simp [hone]

theorem signExtend_ofNat {k : ℕ} (hk : k < 2 ^ 31) :
    (BitVec.ofNat 32 k).signExtend 64 = BitVec.ofNat 64 k := by
  have hmsb : (BitVec.ofNat 32 k).msb = false := by
    rw [BitVec.msb_eq_decide]
    simp only [BitVec.toNat_ofNat]
    rw [Nat.mod_eq_of_lt (by omega)]
    simpa using hk
  rw [BitVec.signExtend_eq_setWidth_of_msb_false hmsb]
  apply BitVec.eq_of_toNat_eq
  simp only [BitVec.toNat_setWidth, BitVec.toNat_ofNat]
  omega

end Indices

namespace RewritedInfo

variable {info : RewritedInfo} {p : BlockPtr} {index : List ℕ} {i : ℕ}

theorem getExpandedOffsetWithRange_shape (info : RewritedInfo) (hi : i < info.tensorShape.length) :
    (info.getExpandedOffsetWithRange i).shape.length = info.tensorShape.length ∧
      (info.getExpandedOffsetWithRange i).shape.getD i 0 = info.tensorShape.getD i 0 := by
  have hrow : (TensorExpr.addi (.splat [info.tensorShape.getD i 0] (info.offset i))
      (.extsi (.makeRange (info.tensorShape.getD i 0)))).shape = [info.tensorShape.getD i 0] := rfl
  have h := expandOthers_shape (i := i) hrow info.tensorShape.length
  rw [if_pos hi, Nat.min_eq_left hi.le] at h
  exact h

variable (h : info.Describes env p)
include h

theorem Describes.getD_offset (hi : i < info.tensorShape.length) :
    (env (info.offset i)).toWord = p.offsets.getD i 0 := by
  have hlength : i < info.offsets.length := by
    rw [info.length_offsets, ← info.length_tensorShape]
    exact hi
  have hlength' : i < p.offsets.length := by
    have := congrArg List.length h.offsets
    rw [length_map, length_map] at this
    omega
  have hget := congrArg (fun l => l[i]?) h.offsets
  simp only [List.getElem?_map, List.getElem?_eq_getElem hlength,
    List.getElem?_eq_getElem hlength', Option.map_some, Option.some.injEq] at hget
  rw [offset, getD_eq_getElem _ _ hlength, hget, getD_eq_getElem _ _ hlength']
  simp [Val.toWord]

theorem Describes.getD_shape (hi : i < info.tensorShape.length) :
    (env (info.shape.getD i info.base)).toWord = p.parent.shape.getD i 0 := by
  rw [info.length_tensorShape] at hi
  rw [← h.shape, getD_eq_getElem _ _ hi, getD_eq_getElem _ _ (by simpa using hi),
    getElem_map]

theorem Describes.getD_strides (hi : i < info.tensorShape.length) :
    (env (info.strides.getD i info.base)).toWord = p.parent.strides.getD i 0 := by
  rw [info.length_tensorShape, ← info.length_strides] at hi
  rw [← h.strides, getD_eq_getElem _ _ hi, getD_eq_getElem _ _ (by simpa using hi),
    getElem_map]

variable (hindex : InBounds p.parent.tensorShape index)
  (hsize : p.parent.tensorShape.prod ≤ SourceOp.maxTensorNumElements)
include hindex hsize

theorem Describes.eval_offset (hi : i < info.tensorShape.length) :
    (info.getExpandedOffsetWithRange i).eval env
        (broadcastIndex (info.getExpandedOffsetWithRange i).shape index) = p.position index i := by
  obtain ⟨hlength, hshape⟩ := info.getExpandedOffsetWithRange_shape hi
  have hi' : i < p.parent.tensorShape.length := h.tensorShape ▸ hi
  have hshape' : (info.getExpandedOffsetWithRange i).shape.getD i 0 =
      p.parent.tensorShape.getD i 0 := by rw [hshape, h.tensorShape]
  have hlength' : (info.getExpandedOffsetWithRange i).shape.length =
      p.parent.tensorShape.length := by rw [hlength, h.tensorShape]
  obtain ⟨hlen, hget⟩ := getD_broadcastIndex hindex hi' hlength' hshape'
  have hlt : index.getD i 0 < 2 ^ 31 := by
    have h1 := getD_lt hindex hi'
    have h2 := getD_le_prod hindex (i := i)
    unfold SourceOp.maxTensorNumElements at hsize
    omega
  generalize broadcastIndex (info.getExpandedOffsetWithRange i).shape index = index' at hlen hget
  unfold getExpandedOffsetWithRange
  rw [expandOthers_eval _ _ (by rw [if_pos hi, hlen, h.tensorShape]), Nat.min_eq_left hi.le, hget]
  show (env (info.offset i)).toWord + (BitVec.ofNat 32 (index.getD i 0)).signExtend 64 = _
  rw [h.getD_offset hi, signExtend_ofNat hlt, BlockPtr.position]

theorem Describes.eval_addOffsets (bytes n : ℕ) (hn : n ≤ info.tensorShape.length) :
    (info.addOffsets bytes n).eval env index = p.parent.base + ((List.range n).map fun k =>
      p.position index k * p.parent.strides.getD k 0 * BitVec.ofNat 64 bytes).sum := by
  induction n with
  | zero => simp [addOffsets, TensorExpr.eval, h.base]
  | succ n ih =>
    have hlt : n < info.tensorShape.length := hn
    simp only [addOffsets, TensorExpr.eval, TensorExpr.shape]
    rw [ih hlt.le, h.eval_offset hindex hsize hlt, h.getD_strides hlt, range_succ,
      map_append, sum_append, map_singleton, sum_singleton, add_assoc]

theorem Describes.eval_dimMask (hi : i < info.tensorShape.length) :
    (info.dimMask i).eval env index = p.inBounds index i := by
  rw [BlockPtr.inBounds, ← h.eval_offset hindex hsize hi, ← h.getD_shape hi]
  rfl

theorem Describes.eval_foldl_andDimMask (dims : List ℕ) (mask : Option (TensorExpr .i1))
    (hdims : ∀ i ∈ dims, i < info.tensorShape.length) :
    ((dims.foldl info.andDimMask mask).elim true fun m => m.eval env index) =
      ((mask.elim true fun m => m.eval env index) && dims.all (p.inBounds index)) := by
  induction dims generalizing mask with
  | nil => simp
  | cons i dims ih =>
    have hi := hdims i mem_cons_self
    rw [foldl_cons, ih _ fun k hk => hdims k (mem_cons_of_mem _ hk), all_cons,
      ← Bool.and_assoc]
    congr 1
    cases mask with
    | none => exact h.eval_dimMask hindex hsize hi
    | some mask =>
      simp only [andDimMask, Option.elim_some, TensorExpr.eval, h.eval_dimMask hindex hsize hi]

theorem Describes.eval_generateMask {boundaryCheck : List ℕ} {mask : Option (TensorExpr .i1)}
    (hmask : info.generateMask boundaryCheck = some mask) :
    (mask.elim true fun m => m.eval env index) = boundaryCheck.all (p.inBounds index) := by
  unfold generateMask at hmask
  split at hmask
  · rename_i hall
    obtain rfl := Option.some.inj hmask
    rw [h.eval_foldl_andDimMask hindex hsize]
    · rfl
    · intro i hi
      rw [info.length_tensorShape]
      exact of_decide_eq_true (all_eq_true.mp hall i hi)
  · cases hmask

omit hindex in
theorem Describes.touched_eq {boundaryCheck : List ℕ} {mask : Option (TensorExpr .i1)}
    (hmask : info.generateMask boundaryCheck = some mask) (bytes : ℕ) :
    touched env (info.generatePtr bytes) mask = p.touched bytes boundaryCheck := by
  have hshape : (info.generatePtr bytes).shape = p.parent.tensorShape := by
    have hadd : ∀ n, (info.addOffsets bytes n).shape = info.tensorShape := by
      intro n
      induction n with
      | zero => rfl
      | succ n ih => exact ih
    rw [generatePtr, hadd, h.tensorShape]
  unfold touched BlockPtr.touched
  rw [hshape]
  apply map_congr_left
  intro index hmem
  have hindex := mem_indices hmem
  rw [h.eval_generateMask hindex hsize hmask, generatePtr,
    h.eval_addOffsets hindex hsize bytes _ le_rfl, BlockPtr.address, h.tensorShape]

end RewritedInfo

end TritonCpu.TensorPointer
