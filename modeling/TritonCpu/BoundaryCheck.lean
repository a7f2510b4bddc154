import Mathlib.Data.Int.Notation
import Mathlib.Data.List.Basic
import Mathlib.Tactic.Ring
import Mathlib.Tactic.SplitIfs

/-!
# Boundary checks of block pointers

A block pointer stores its offsets in elements, and the boundary check reads the
coordinate of the tile back by dividing by the stride. What it computes for a
dimension is how many elements are moved, counted from the first one. Operands are
taken by the values they have at run time, which are 64-bit indices.
-/

set_option autoImplicit false

namespace TritonCpu.BoundaryCheck

open List

abbrev Index := BitVec 64

inductive Stop where
  | assertion (text : String)
  deriving DecidableEq, Repr

def assertThat (p : Prop) [Decidable p] (text : String) : Except Stop Unit :=
  if p then .ok () else .error (.assertion text)

/-- An attribute, a value that `arith.constant` defines, or another value. -/
inductive OpFoldResult where
  | attr (n : Index)
  | constant (n : Index)
  | value (n : Index)
  deriving DecidableEq, Repr

def OpFoldResult.eval : OpFoldResult → Index
  | .attr n => n
  | .constant n => n
  | .value n => n

/-- A dimension of a `tts.make_tptr`; the sizes of a tile are static. -/
structure Dim where
  size : ℕ
  size_lt : size < 2 ^ 63
  offset : OpFoldResult
  stride : OpFoldResult
  shape : OpFoldResult

/-- A pointer with an order is a block pointer. -/
structure MakeTensorPtrOp where
  dims : List Dim
  order : List ℤ

def MakeTensorPtrOp.isBlockPtr (op : MakeTensorPtrOp) : Bool := !op.order.isEmpty

section Folds

def hasConstZero : OpFoldResult → Bool
  | .attr n => n == 0
  | .constant n => n == 0
  | .value _ => false

def divOFRs (lhs rhs : OpFoldResult) : Except Stop OpFoldResult := do
  assertThat (hasConstZero rhs = false) "block pointer stride must be non-zero"
  match lhs, rhs with
  | .attr l, .attr r =>
    assertThat (l.srem r = 0) "scaled block pointer offset must be divisible by stride"
    return .attr (l.sdiv r)
  | lhs, rhs => return .value (lhs.eval.sdiv rhs.eval)

def subOFRs (lhs rhs : OpFoldResult) : OpFoldResult :=
  match lhs, rhs with
  | .attr l, .attr r => .attr (l - r)
  | lhs, .attr 0 => lhs
  | lhs, rhs => .value (lhs.eval - rhs.eval)

def smin (x y : Index) : Index := if x.slt y then x else y

def smax (x y : Index) : Index := if x.slt y then y else x

def minOFRs (lhs rhs : OpFoldResult) : OpFoldResult :=
  match lhs, rhs with
  | .attr l, .attr r => .attr (smin l r)
  | lhs, rhs => .value (smin lhs.eval rhs.eval)

def maxOFRs (lhs rhs : OpFoldResult) : OpFoldResult :=
  match lhs, rhs with
  | .attr l, .attr r => .attr (smax l r)
  | lhs, rhs => .value (smax lhs.eval rhs.eval)

@[simp] theorem eval_subOFRs (lhs rhs : OpFoldResult) :
    (subOFRs lhs rhs).eval = lhs.eval - rhs.eval := by
  unfold subOFRs
  split
  · rfl
  · simp [OpFoldResult.eval]
  · rfl

@[simp] theorem eval_minOFRs (lhs rhs : OpFoldResult) :
    (minOFRs lhs rhs).eval = smin lhs.eval rhs.eval := by
  cases lhs <;> cases rhs <;> rfl

@[simp] theorem eval_maxOFRs (lhs rhs : OpFoldResult) :
    (maxOFRs lhs rhs).eval = smax lhs.eval rhs.eval := by
  cases lhs <;> cases rhs <;> rfl

theorem toInt_smin (x y : Index) : (smin x y).toInt = min x.toInt y.toInt := by
  rw [smin, BitVec.slt_eq_decide]
  simp only [decide_eq_true_eq]
  split_ifs <;> omega

theorem toInt_smax (x y : Index) : (smax x y).toInt = max x.toInt y.toInt := by
  rw [smax, BitVec.slt_eq_decide]
  simp only [decide_eq_true_eq]
  split_ifs <;> omega

end Folds

section Check

def checkDim (op : MakeTensorPtrOp) (dims : List OpFoldResult) (dim : ℤ) :
    Except Stop (List OpFoldResult) := do
  assertThat (0 ≤ dim ∧ dim.toNat < dims.length) "boundary check dimension out of range"
  match op.dims[dim.toNat]?, dims[dim.toNat]? with
  | some d, some bound =>
    let logicalOffset ← divOFRs d.offset d.stride
    let remaining := maxOFRs (.attr 0) (subOFRs d.shape logicalOffset)
    return dims.set dim.toNat (minOFRs bound remaining)
  | _, _ => .error (.assertion "Invalid index!")

/-- A pointer that no `tts.make_tptr` defines is not checked. -/
def getBoundaryMaskDims (ptr : Option MakeTensorPtrOp) (boundaryCheck : List ℤ) :
    Except Stop (List OpFoldResult) :=
  if boundaryCheck.isEmpty then .ok []
  else
    match ptr with
    | none => .ok []
    | some op =>
      if !op.isBlockPtr then .ok []
      else boundaryCheck.foldlM (checkDim op) (op.dims.map fun d => .attr (BitVec.ofNat 64 d.size))

def mergeMaskDims (lhs rhs : List OpFoldResult) : Except Stop (List OpFoldResult) :=
  if lhs.isEmpty then .ok rhs
  else if rhs.isEmpty then .ok lhs
  else do
    assertThat (lhs.length = rhs.length) "mask dimensions must have same rank"
    return List.zipWith minOFRs lhs rhs

/-- The mask dimensions of an access say how many elements are moved in each
dimension; without them all are. -/
def Accessed (dims : List OpFoldResult) (k i : ℕ) : Prop :=
  ∀ d, dims[k]? = some d → (i : ℤ) < d.eval.toInt

/-- Merged mask dimensions select what both do. -/
theorem accessed_mergeMaskDims {lhs rhs dims : List OpFoldResult}
    (h : mergeMaskDims lhs rhs = .ok dims) (k i : ℕ) :
    Accessed dims k i ↔ Accessed lhs k i ∧ Accessed rhs k i := by
  have hempty : Accessed [] k i := fun d hd => by simp at hd
  unfold mergeMaskDims at h
  split_ifs at h with hlhs hrhs
  · obtain rfl := Except.ok.inj h
    rw [isEmpty_iff.mp hlhs]
    exact (and_iff_right hempty).symm
  · obtain rfl := Except.ok.inj h
    rw [isEmpty_iff.mp hrhs]
    exact (and_iff_left hempty).symm
  · rw [assertThat] at h
    split_ifs at h with hlen
    · obtain rfl := Except.ok.inj h
      unfold Accessed
      simp only [List.getElem?_zipWith]
      cases hl : lhs[k]? with
      | none =>
        have hr : rhs[k]? = none := by
          rw [List.getElem?_eq_none_iff, ← hlen]
          exact List.getElem?_eq_none_iff.mp hl
        simp [hr]
      | some l =>
        have hlt : k < rhs.length := by
          rw [← hlen]
          exact (List.getElem?_eq_some_iff.mp hl).1
        simp [List.getElem?_eq_getElem hlt, toInt_smin]
    · cases h

end Check

section Offsets

/-- The dimension stores the coordinate of the tile in elements. -/
structure Stores (d : Dim) (logicalOffset : Index) : Prop where
  stride_ne : d.stride.eval ≠ 0
  offset_eq : d.offset.eval.toInt = logicalOffset.toInt * d.stride.eval.toInt

/-- What `tt.make_tensor_ptr` stores for an offset. -/
def makeTensorPtrDim (size : ℕ) (size_lt : size < 2 ^ 63) (offset : BitVec 32)
    (stride shape : BitVec 64) : Dim :=
  ⟨size, size_lt, .value (offset.signExtend 64 * stride), .value stride, .value shape⟩

def advanceDim (d : Dim) (increment : BitVec 32) : Dim :=
  { d with offset := .value (increment.signExtend 64 * d.stride.eval + d.offset.eval) }

variable {d : Dim} {logicalOffset : Index}

theorem Stores.sdiv (h : Stores d logicalOffset) :
    d.offset.eval.sdiv d.stride.eval = logicalOffset := by
  have hstride : d.stride.eval.toInt ≠ 0 := fun hzero => h.stride_ne (BitVec.toInt_inj.mp hzero)
  apply BitVec.toInt_inj.mp
  rw [BitVec.toInt_sdiv, h.offset_eq, Int.mul_tdiv_cancel _ hstride, BitVec.toInt_bmod_cancel]

theorem Stores.srem (h : Stores d logicalOffset) :
    d.offset.eval.srem d.stride.eval = 0 := by
  apply BitVec.toInt_inj.mp
  rw [BitVec.toInt_srem, h.offset_eq, Int.mul_tmod_left]
  rfl

theorem Stores.divOFRs (h : Stores d logicalOffset) :
    ∃ x, divOFRs d.offset d.stride = .ok x ∧ x.eval = logicalOffset := by
  have hzero : hasConstZero d.stride = false := by
    have hne := h.stride_ne
    unfold hasConstZero
    split
    · next n heq => simpa [heq, OpFoldResult.eval] using hne
    · next n heq => simpa [heq, OpFoldResult.eval] using hne
    · rfl
  have hdiv := h.sdiv
  unfold BoundaryCheck.divOFRs
  simp only [assertThat, if_pos hzero, bind, Except.bind]
  split
  · next l r hl hr =>
    rw [hl, hr] at hdiv
    have hrem : l.srem r = 0 := by simpa [hl, hr, OpFoldResult.eval] using h.srem
    exact ⟨.attr (l.sdiv r), by simp [hrem, pure, Except.pure], hdiv⟩
  · exact ⟨_, rfl, hdiv⟩

/-- The word of a coordinate, of which the product with the stride may have wrapped. -/
def StoresWord (d : Dim) (x : ℤ) : Prop :=
  d.stride.eval ≠ 0 ∧ d.offset.eval = BitVec.ofInt 64 (x * d.stride.eval.toInt)

def Fits (x : ℤ) : Prop := -2 ^ 63 ≤ x ∧ x < 2 ^ 63

theorem toInt_ofInt {x : ℤ} (h : Fits x) : (BitVec.ofInt 64 x).toInt = x :=
  BitVec.toInt_ofInt_eq_self (by decide) h.1 h.2

theorem storesWord_made (size : ℕ) (size_lt : size < 2 ^ 63) (offset : BitVec 32)
    {stride : BitVec 64} (shape : BitVec 64) (hstride : stride ≠ 0) :
    StoresWord (makeTensorPtrDim size size_lt offset stride shape) offset.toInt := by
  refine ⟨hstride, ?_⟩
  change BitVec.ofInt 64 offset.toInt * stride = BitVec.ofInt 64 (offset.toInt * stride.toInt)
  rw [BitVec.ofInt_mul, BitVec.ofInt_toInt]

theorem StoresWord.advanceDim {x : ℤ} (h : StoresWord d x) (increment : BitVec 32) :
    StoresWord (advanceDim d increment) (x + increment.toInt) := by
  refine ⟨h.1, ?_⟩
  change BitVec.ofInt 64 increment.toInt * d.stride.eval + d.offset.eval =
    BitVec.ofInt 64 ((x + increment.toInt) * d.stride.eval.toInt)
  rw [h.2, add_mul, BitVec.ofInt_add, BitVec.ofInt_mul increment.toInt, BitVec.ofInt_toInt,
    BitVec.add_comm]

/-- Only what is stored in the end has to fit. -/
theorem StoresWord.stores {x : ℤ} (h : StoresWord d x) (hx : Fits x)
    (hproduct : Fits (x * d.stride.eval.toInt)) : Stores d (BitVec.ofInt 64 x) where
  stride_ne := h.1
  offset_eq := by rw [h.2, toInt_ofInt hproduct, toInt_ofInt hx]

end Offsets

section Selection

def InBounds (logicalOffset : Index) (i : ℕ) (shape : Index) : Prop :=
  0 ≤ logicalOffset.toInt + i ∧ logicalOffset.toInt + i < shape.toInt

/-- The elements of a tile in bounds are the first ones of it: the tile does not start
before the tensor, or none of its elements is in bounds and the difference of the shape
and the offset says so. -/
def PrefixInBounds (size : ℕ) (logicalOffset shape : ℤ) : Prop :=
  size = 0 ∨ (0 ≤ logicalOffset ∧ -2 ^ 63 ≤ shape - logicalOffset) ∨
    (logicalOffset < 0 ∧ (shape ≤ logicalOffset ∨ 2 ^ 63 ≤ shape - logicalOffset) ∧
      (shape ≤ 0 ∨ logicalOffset + size ≤ 0))

instance (size : ℕ) (logicalOffset shape : ℤ) :
    Decidable (PrefixInBounds size logicalOffset shape) := by
  unfold PrefixInBounds
  infer_instance

def remaining (logicalOffset shape : Index) : ℤ := max 0 (shape - logicalOffset).toInt

theorem toInt_sub_cases (x y : Index) :
    (x - y).toInt = x.toInt - y.toInt ∧ -2 ^ 63 ≤ x.toInt - y.toInt ∧ x.toInt - y.toInt < 2 ^ 63 ∨
    (x - y).toInt = x.toInt - y.toInt - 2 ^ 64 ∧ 2 ^ 63 ≤ x.toInt - y.toInt ∨
    (x - y).toInt = x.toInt - y.toInt + 2 ^ 64 ∧ x.toInt - y.toInt < -2 ^ 63 := by
  have hx := BitVec.le_toInt x
  have hx' := BitVec.toInt_lt (x := x)
  have hy := BitVec.le_toInt y
  have hy' := BitVec.toInt_lt (x := y)
  rw [BitVec.toInt_sub, Int.bmod_def]
  omega

theorem selects_iff (size : ℕ) (logicalOffset shape : Index) :
    (∀ i < size, (i : ℤ) < min (size : ℤ) (remaining logicalOffset shape) ↔
      InBounds logicalOffset i shape) ↔
      PrefixInBounds size logicalOffset.toInt shape.toInt := by
  have hsub := toInt_sub_cases shape logicalOffset
  have hshape := BitVec.toInt_lt (x := shape)
  have hshape' := BitVec.le_toInt shape
  have hoffset := BitVec.toInt_lt (x := logicalOffset)
  have hoffset' := BitVec.le_toInt logicalOffset
  unfold remaining InBounds PrefixInBounds
  simp only [lt_min_iff, lt_max_iff]
  constructor
  · intro h
    by_cases hsize : size = 0
    · exact Or.inl hsize
    · -- the first element and the one at the start of the tensor decide
      have hfirst := h 0 (by omega)
      have hstart := h (-logicalOffset.toInt).toNat
      omega
  · intro h i hi
    omega

end Selection

section Fold

variable {op : MakeTensorPtrOp} {logicalOffsets : ℕ → Index}
  (hstores : ∀ (k : ℕ) (d : Dim), op.dims[k]? = some d → Stores d (logicalOffsets k))

/-- The mask dimensions after the dimensions `done` have been checked. -/
structure Checked (op : MakeTensorPtrOp) (logicalOffsets : ℕ → Index) (done : List ℤ)
    (dims : List OpFoldResult) : Prop where
  length_eq : dims.length = op.dims.length
  bound : ∀ (k : ℕ) (d : Dim) (b : OpFoldResult), op.dims[k]? = some d → dims[k]? = some b →
    b.eval.toInt =
      if (k : ℤ) ∈ done then min (d.size : ℤ) (remaining (logicalOffsets k) d.shape.eval)
      else d.size

theorem toInt_size (d : Dim) : (BitVec.ofNat 64 d.size).toInt = d.size := by
  have hlt := d.size_lt
  rw [BitVec.toInt_eq_toNat_bmod, BitVec.toNat_ofNat, Int.bmod_def]
  omega

theorem checked_nil : Checked op logicalOffsets []
    (op.dims.map fun d => .attr (BitVec.ofNat 64 d.size)) where
  length_eq := length_map _
  bound := fun k d b hd hb => by
    rw [List.getElem?_map, hd] at hb
    obtain rfl := Option.some.inj hb
    rw [if_neg not_mem_nil]
    exact toInt_size d

include hstores

theorem Checked.step {done : List ℤ} {dims : List OpFoldResult}
    (h : Checked op logicalOffsets done dims) {dim : ℕ} (hdim : dim < op.dims.length) :
    ∃ dims', checkDim op dims dim = .ok dims' ∧
      Checked op logicalOffsets ((dim : ℤ) :: done) dims' := by
  have hlt : dim < dims.length := by rwa [h.length_eq]
  obtain ⟨x, hx, heval⟩ := (hstores dim _ (List.getElem?_eq_getElem hdim)).divOFRs
  have hrange : (0 : ℤ) ≤ (dim : ℤ) ∧ (dim : ℤ).toNat < dims.length := by simpa using hlt
  have hrun : checkDim op dims dim = .ok (dims.set dim (minOFRs dims[dim]
      (maxOFRs (.attr 0) (subOFRs op.dims[dim].shape x)))) := by
    simp [checkDim, assertThat, hlt, hdim, hx, bind, Except.bind, pure, Except.pure]
  refine ⟨_, hrun, ?_, ?_⟩
  · rw [length_set, h.length_eq]
  · intro k d b hd hb
    by_cases hk : k = dim
    · subst hk
      rw [List.getElem?_set_self hlt] at hb
      obtain rfl := Option.some.inj hb
      have hold := h.bound k d dims[k] hd (List.getElem?_eq_getElem hlt)
      have hd' : op.dims[k] = d := Option.some.inj ((List.getElem?_eq_getElem hdim).symm.trans hd)
      rw [eval_minOFRs, eval_maxOFRs, eval_subOFRs, toInt_smin, toInt_smax, heval, hd',
        if_pos mem_cons_self, hold]
      change min _ (remaining (logicalOffsets k) d.shape.eval) = _
      split_ifs
      · rw [min_assoc, min_self]
      · rfl
    · rw [List.getElem?_set_ne (Ne.symm hk)] at hb
      have hmem : ((k : ℤ) ∈ (dim : ℤ) :: done) ↔ (k : ℤ) ∈ done := by
        rw [mem_cons, or_iff_right]
        exact fun heq => hk (Int.ofNat_inj.mp heq)
      rw [h.bound k d b hd hb]
      simp only [hmem]

theorem Checked.run {done : List ℤ} {dims : List OpFoldResult}
    (h : Checked op logicalOffsets done dims) {boundaryCheck : List ℕ}
    (hcheck : ∀ dim ∈ boundaryCheck, dim < op.dims.length) :
    ∃ dims', (boundaryCheck.map Nat.cast).foldlM (checkDim op) dims = .ok dims' ∧
      Checked op logicalOffsets ((boundaryCheck.map Nat.cast).reverse ++ done) dims' := by
  induction boundaryCheck generalizing done dims with
  | nil => exact ⟨dims, rfl, h⟩
  | cons dim boundaryCheck ih =>
    obtain ⟨dims', hstep, hchecked⟩ := h.step hstores (hcheck dim mem_cons_self)
    obtain ⟨dims'', hrest, hdone⟩ := ih hchecked fun dim' hdim =>
      hcheck dim' (mem_cons_of_mem _ hdim)
    refine ⟨dims'', ?_, ?_⟩
    · rw [map_cons, foldlM_cons, hstep]
      exact hrest
    · rwa [map_cons, reverse_cons, append_assoc]

theorem getBoundaryMaskDims_accessed (hblock : op.isBlockPtr = true) {boundaryCheck : List ℕ}
    (hcheck : ∀ dim ∈ boundaryCheck, dim < op.dims.length) :
    ∃ dims, getBoundaryMaskDims (some op) (boundaryCheck.map Nat.cast) = .ok dims ∧
      ∀ (k : ℕ) (d : Dim), op.dims[k]? = some d → ∀ i < d.size, (Accessed dims k i ↔
        (k ∈ boundaryCheck →
          (i : ℤ) < min (d.size : ℤ) (remaining (logicalOffsets k) d.shape.eval))) := by
  cases boundaryCheck with
  | nil =>
    refine ⟨[], rfl, fun k d _ i _ => ?_⟩
    constructor
    · intro _ hk
      exact absurd hk not_mem_nil
    · intro _ b hb
      simp at hb
  | cons dim boundaryCheck =>
    obtain ⟨dims, hrun, hchecked⟩ := Checked.run hstores checked_nil hcheck
    refine ⟨dims, ?_, fun k d hd i hi => ?_⟩
    · rw [getBoundaryMaskDims, if_neg (by simp), hblock]
      exact hrun
    have hlt : k < dims.length := by
      rw [hchecked.length_eq]
      exact (List.getElem?_eq_some_iff.mp hd).1
    have hbound := hchecked.bound k d _ hd (List.getElem?_eq_getElem hlt)
    have hmem : (k : ℤ) ∈ ((dim :: boundaryCheck).map (Nat.cast : ℕ → ℤ)).reverse ++ [] ↔
        k ∈ dim :: boundaryCheck := by
      rw [append_nil, mem_reverse, mem_map]
      constructor
      · rintro ⟨j, hj, heq⟩
        exact Int.ofNat_inj.mp heq ▸ hj
      · exact fun hk => ⟨k, hk, rfl⟩
    simp only [hmem] at hbound
    constructor
    · intro h hk
      have hget := h _ (List.getElem?_eq_getElem hlt)
      rwa [hbound, if_pos hk] at hget
    · intro h b hb
      obtain rfl := Option.some.inj ((List.getElem?_eq_getElem hlt).symm.trans hb)
      rw [hbound]
      split_ifs with hk
      · exact h hk
      · exact Int.ofNat_lt.mpr hi

/-- The mask dimensions of a block pointer select what is in bounds exactly when, on
every checked dimension, that is a first part of the tile. -/
theorem getBoundaryMaskDims_iff (hblock : op.isBlockPtr = true) {boundaryCheck : List ℕ}
    (hcheck : ∀ dim ∈ boundaryCheck, dim < op.dims.length) :
    ∃ dims, getBoundaryMaskDims (some op) (boundaryCheck.map Nat.cast) = .ok dims ∧
      ((∀ (k : ℕ) (d : Dim), op.dims[k]? = some d → ∀ i < d.size, Accessed dims k i ↔
          (k ∈ boundaryCheck → InBounds (logicalOffsets k) i d.shape.eval)) ↔
        ∀ (k : ℕ) (d : Dim), op.dims[k]? = some d → k ∈ boundaryCheck →
          PrefixInBounds d.size (logicalOffsets k).toInt d.shape.eval.toInt) := by
  obtain ⟨dims, hrun, haccessed⟩ := getBoundaryMaskDims_accessed hstores hblock hcheck
  refine ⟨dims, hrun, ?_⟩
  constructor
  · intro h k d hd hk
    apply (selects_iff d.size (logicalOffsets k) d.shape.eval).mp
    intro i hi
    have hiff := h k d hd i hi
    rw [haccessed k d hd i hi] at hiff
    exact ⟨fun hlt => hiff.mp (fun _ => hlt) hk, fun hin => hiff.mpr (fun _ => hin) hk⟩
  · intro h k d hd i hi
    rw [haccessed k d hd i hi]
    by_cases hk : k ∈ boundaryCheck
    · have hselects := (selects_iff d.size (logicalOffsets k) d.shape.eval).mpr (h k d hd hk) i hi
      exact ⟨fun hlt _ => hselects.mp (hlt hk), fun hin _ => hselects.mpr (hin hk)⟩
    · exact ⟨fun _ hk' => absurd hk' hk, fun _ hk' => absurd hk' hk⟩

end Fold

section Advances

/-- `tt.make_tensor_ptr` makes the dimensions, with these offsets. -/
def MakeTensorPtrOp.Made (op : MakeTensorPtrOp) (offsets : ℕ → BitVec 32) : Prop :=
  ∀ (k : ℕ) (d : Dim), op.dims[k]? = some d → ∃ (size_lt : d.size < 2 ^ 63) (stride shape : Index),
    stride ≠ 0 ∧ d = makeTensorPtrDim d.size size_lt (offsets k) stride shape

/-- `tt.advance` moves every dimension. -/
def MakeTensorPtrOp.advance (op : MakeTensorPtrOp) (increments : List (BitVec 32)) :
    MakeTensorPtrOp :=
  { op with dims := List.zipWith advanceDim op.dims increments }

def MakeTensorPtrOp.advances (op : MakeTensorPtrOp) (moves : List (List (BitVec 32))) :
    MakeTensorPtrOp :=
  moves.foldl MakeTensorPtrOp.advance op

def distance (moves : List (List (BitVec 32))) (k : ℕ) : ℤ :=
  (moves.map fun increments => (increments.getD k 0).toInt).sum

variable {op : MakeTensorPtrOp} {start : ℕ → ℤ} {moves : List (List (BitVec 32))}

theorem storesWord_advance {increments : List (BitVec 32)}
    (h : ∀ (k : ℕ) (d : Dim), op.dims[k]? = some d → StoresWord d (start k)) :
    ∀ (k : ℕ) (d : Dim), (op.advance increments).dims[k]? = some d →
      StoresWord d (start k + (increments.getD k 0).toInt) := by
  intro k d hd
  obtain ⟨d', increment, hd', hincrement, rfl⟩ := List.getElem?_zipWith_eq_some.mp hd
  rw [List.getD_eq_getElem?_getD, hincrement]
  exact (h k d' hd').advanceDim increment

theorem storesWord_advances
    (h : ∀ (k : ℕ) (d : Dim), op.dims[k]? = some d → StoresWord d (start k)) :
    ∀ (k : ℕ) (d : Dim), (op.advances moves).dims[k]? = some d →
      StoresWord d (start k + distance moves k) := by
  induction moves generalizing op start with
  | nil => simpa [distance, MakeTensorPtrOp.advances] using h
  | cons increments moves ih =>
    intro k d hd
    have hrest := ih (storesWord_advance h) k d hd
    rwa [add_assoc] at hrest

theorem isBlockPtr_advances : (op.advances moves).isBlockPtr = op.isBlockPtr := by
  induction moves generalizing op with
  | nil => rfl
  | cons increments moves ih => exact ih

/-- A block pointer is moved any number of times: where it ends up not before the
tensor, an access takes what its mask and the bounds select there, although what was
stored on the way may have wrapped. -/
theorem getBoundaryMaskDims_advances {offsets : ℕ → BitVec 32} (hblock : op.isBlockPtr = true)
    (hmade : op.Made offsets)
    (hend : ∀ (k : ℕ) (d : Dim), (op.advances moves).dims[k]? = some d →
      Fits (((offsets k).toInt + distance moves k) * d.stride.eval.toInt) ∧
        Fits ((offsets k).toInt + distance moves k) ∧
          0 ≤ (offsets k).toInt + distance moves k ∧ 0 ≤ d.shape.eval.toInt)
    {boundaryCheck : List ℕ} (hcheck : ∀ dim ∈ boundaryCheck, dim < (op.advances moves).dims.length) :
    ∃ dims, getBoundaryMaskDims (some (op.advances moves)) (boundaryCheck.map Nat.cast) = .ok dims ∧
      ∀ mask merged, mergeMaskDims mask dims = .ok merged → ∀ (k : ℕ) (d : Dim),
        (op.advances moves).dims[k]? = some d → ∀ i < d.size, Accessed merged k i ↔
          Accessed mask k i ∧ (k ∈ boundaryCheck →
            (offsets k).toInt + distance moves k + i < d.shape.eval.toInt) := by
  have hstart : ∀ (k : ℕ) (d : Dim), op.dims[k]? = some d →
      StoresWord d (offsets k).toInt := by
    intro k d hd
    obtain ⟨size_lt, stride, shape, hstride, heq⟩ := hmade k d hd
    rw [heq]
    exact storesWord_made _ size_lt (offsets k) shape hstride
  have hstores : ∀ (k : ℕ) (d : Dim), (op.advances moves).dims[k]? = some d →
      Stores d (BitVec.ofInt 64 ((offsets k).toInt + distance moves k)) := fun k d hd =>
    (storesWord_advances hstart k d hd).stores (hend k d hd).2.1 (hend k d hd).1
  obtain ⟨dims, hrun, haccessed⟩ := getBoundaryMaskDims_accessed hstores
    (isBlockPtr_advances.trans hblock) hcheck
  refine ⟨dims, hrun, fun mask merged hmerged k d hd i hi => ?_⟩
  obtain ⟨-, hfits, hnonneg, hshape⟩ := hend k d hd
  rw [accessed_mergeMaskDims hmerged, haccessed k d hd i hi, remaining, lt_min_iff, lt_max_iff]
  generalize (offsets k).toInt + distance moves k = x at hfits hnonneg
  have hsub := toInt_sub_cases d.shape.eval (BitVec.ofInt 64 x)
  have hlt := BitVec.toInt_lt (x := d.shape.eval)
  rw [toInt_ofInt hfits] at hsub
  unfold Fits at hfits
  have hin : (((i : ℤ) < d.size ∧ ((i : ℤ) < 0 ∨
      (i : ℤ) < (d.shape.eval - BitVec.ofInt 64 x).toInt)) ↔ x + i < d.shape.eval.toInt) := by
    omega
  rw [hin]

end Advances

section Example

/-- A row of 4 of a tensor of 8 elements, from the given offset on. -/
def row (offset : BitVec 32) : MakeTensorPtrOp := ⟨[makeTensorPtrDim 4 (by decide) offset 1 8], [0]⟩

theorem row_stores (offset : BitVec 32) : ∀ (k : ℕ) (d : Dim), (row offset).dims[k]? = some d →
    Stores d (offset.signExtend 64) := by
  intro k d hd
  have hmem := mem_of_getElem? hd
  obtain rfl := mem_singleton.mp hmem
  constructor
  · change (1 : Index) ≠ 0
    decide
  · change (offset.signExtend 64 * 1#64).toInt = _ * (1#64).toInt
    rw [BitVec.mul_one, show (1#64).toInt = 1 from rfl, mul_one]

/-- A row that starts 2 elements before the tensor: its first element is moved, which
is out of bounds. -/
theorem row_before_selects : (∀ (k : ℕ) (d : Dim), (row (-2)).dims[k]? = some d → Stores d (-2)) ∧
    ∃ dims, getBoundaryMaskDims (some (row (-2))) [0] = .ok dims ∧ Accessed dims 0 0 ∧
      ¬ InBounds (-2) 0 8 := by
  refine ⟨row_stores (-2), [.value 4], by decide, ?_, by unfold InBounds; decide⟩
  intro d hd
  obtain rfl := Option.some.inj hd
  decide

theorem row_end_selects : ∃ dims, getBoundaryMaskDims (some (row 5)) [0] = .ok dims ∧
    ∀ (k : ℕ) (d : Dim), (row 5).dims[k]? = some d → ∀ i < d.size, Accessed dims k i ↔
      (k ∈ [0] → InBounds 5 i d.shape.eval) := by
  obtain ⟨dims, hrun, hiff⟩ := @getBoundaryMaskDims_iff (row 5) (fun _ => 5)
    (row_stores 5) rfl [0] (by decide)
  refine ⟨dims, hrun, hiff.mpr ?_⟩
  intro k d hd _
  have hmem := mem_of_getElem? hd
  obtain rfl := mem_singleton.mp hmem
  decide

theorem row_advances_selects : ∃ dims,
    getBoundaryMaskDims (some ((row (-2)).advances [[3], [4]])) [0] = .ok dims ∧
      ∀ mask merged, mergeMaskDims mask dims = .ok merged → ∀ (k : ℕ) (d : Dim),
        ((row (-2)).advances [[3], [4]]).dims[k]? = some d → ∀ i < d.size, Accessed merged k i ↔
          Accessed mask k i ∧ (k ∈ [0] →
            (-2 : BitVec 32).toInt + distance [[3], [4]] k + i < d.shape.eval.toInt) := by
  refine @getBoundaryMaskDims_advances (row (-2)) [[3], [4]] (fun _ => -2) rfl ?_ ?_ [0] (by decide)
  · rintro (_ | k) d hd
    · obtain rfl := Option.some.inj hd
      exact ⟨by decide, 1, 8, by decide, rfl⟩
    · cases hd
  · rintro (_ | k) d hd
    · obtain rfl := Option.some.inj hd
      unfold Fits
      decide
    · cases hd

end Example

end TritonCpu.BoundaryCheck
