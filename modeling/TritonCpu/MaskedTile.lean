import TritonCpu.PtrDenotation
import TritonCpu.TensorPtr
import TritonCpu.Transpose

/-!
# Masked loads and stores of a tile

A block pointer may list its dimensions in another order than the tensor: its
memref has the dimensions permuted, and values are transposed between the two.
Where the mask has the form of a boundary check, a guard at run time selects a
copy of the whole tile. The guard compares permuted mask dimensions with the
sizes as they stand.
-/

set_option autoImplicit false

namespace TritonCpu.StructuredToMemref
open TritonIR OpFoldResult MemRef AnalysisStructured

variable {rank : ℕ} {α β : Type}

def applyPermutation (values : Fin rank → β) (permutation : Fin rank → Fin rank) : Fin rank → β :=
  fun k => values (permutation k)

def getTransposePermutation (order : Fin rank → Fin rank) : Fin rank → Fin rank :=
  fun k => order k.rev

def getRecoverPermutation (order : Fin rank → Fin rank) : Fin rank → Fin rank :=
  fillTable order Fin.rev fun axis => ⟨0, axis.pos⟩

/-- The order of a pointer whose dimensions are permuted, which its cast
carries as an attribute. -/
def originalOrder (op : MakeTensorPtrOp rank) : Option (Equiv.Perm (Fin rank)) :=
  op.order.filter fun order => !decide ((List.ofFn order).Pairwise (· ≥ ·))

def storageOrder (op : MakeTensorPtrOp rank) (values : Fin rank → β) : Fin rank → β :=
  match originalOrder op with
  | some order => applyPermutation values (getTransposePermutation order)
  | none => values

def rewritePtr (ρ : Env) (op : MakeTensorPtrOp rank) : View rank :=
  let memrefSizes := storageOrder op op.sizes
  let mixedStrides := getMixedStridesForMemref memrefSizes (storageOrder op op.strides)
  ⟨accumulateTargetOffset ρ op.offsets, fun k => memrefSizes k, evals ρ mixedStrides⟩

def isConstValue (v : Value) (value : ℤ) : Bool := scalarConstant v = some value

def maskDimIsFullTile (tileSize : ℤ) : Value → ℕ → Bool
  | .binary _ .minsi lhs rhs, depth =>
    depth ≤ 8 && (isConstValue lhs tileSize || isConstValue rhs tileSize ||
      maskDimIsFullTile tileSize lhs (depth + 1) || maskDimIsFullTile tileSize rhs (depth + 1))
  | .binary _ .maxsi lhs rhs, depth | .binary _ .addi lhs rhs, depth =>
    depth ≤ 8 && (maskDimIsFullTile tileSize lhs (depth + 1) ||
      maskDimIsFullTile tileSize rhs (depth + 1))
  | .binary _ .subi lhs _, depth => depth ≤ 8 && maskDimIsFullTile tileSize lhs (depth + 1)
  | v, depth => depth ≤ 8 && isConstValue v tileSize

def dimIsFull (tileSize : ℤ) : OFR → Bool
  | .attr dim => dim = tileSize
  | .value v => maskDimIsFullTile tileSize v 0

def hasBoundaryMaskForm (op : MakeTensorPtrOp rank) (mixedDims : Fin rank → OFR) : Bool :=
  decide (∀ k, 0 < op.sizes k ∧ dimIsFull (op.sizes k) (mixedDims k) = true)

def getSubview (dims : Fin rank → ℤ) (source : View rank) : View rank :=
  source.subview (fun _ => 0) dims fun _ => 1

/-- The guard: the mask dimensions of the memref are the sizes of the tile. -/
def fullCond (ρ : Env) (op : MakeTensorPtrOp rank) (mixedDims : Fin rank → OFR) : Bool :=
  decide (∀ k, (mixedDims k).eval ρ = op.sizes k)

/-! Loads. -/

def generalMaskedLoad (ρ : Env) (op : MakeTensorPtrOp rank) (mask : LoadMask rank α)
    (base : Memory α) : List (Write α) :=
  let storageShape := storageOrder op op.sizes
  let mixedDims := storageOrder op mask.dims
  LoadMask.fill ρ storageShape ⟨mixedDims, mask.other⟩ ++
    copy base (getSubview (evals ρ mixedDims) (rewritePtr ρ op))
      (getSubview (evals ρ mixedDims) (alloc storageShape))

def guardedMaskedLoad (ρ : Env) (op : MakeTensorPtrOp rank) (mask : LoadMask rank α)
    (base : Memory α) : List (Write α) :=
  if fullCond ρ op (storageOrder op mask.dims) then
    copy base (rewritePtr ρ op) (alloc (storageOrder op op.sizes))
  else generalMaskedLoad ρ op mask base

def rewriteMaskedLoad (ρ : Env) (op : MakeTensorPtrOp rank) (mask : LoadMask rank α)
    (base : Memory α) : List (Write α) :=
  if hasBoundaryMaskForm op (storageOrder op mask.dims) then guardedMaskedLoad ρ op mask base
  else generalMaskedLoad ρ op mask base

/-- The tensor of the buffer, in the order of its own dimensions. -/
def loadedTensor (op : MakeTensorPtrOp rank) (m : Memory α) : Index rank → α :=
  let tensor := (alloc (storageOrder op op.sizes)).load m
  match originalOrder op with
  | some order => transpose (getRecoverPermutation order) tensor
  | none => tensor

/-! Stores. -/

def storedTensor (op : MakeTensorPtrOp rank) (value : Index rank → α) : Index rank → α :=
  match originalOrder op with
  | some order => transpose (getTransposePermutation order) value
  | none => value

def getExtractSlice (source : Index rank → α) : Index rank → α :=
  fun i => source fun k => 0 + i k * 1

def generalMaskedStore (ρ : Env) (op : MakeTensorPtrOp rank) (dims : Fin rank → OFR)
    (value : Index rank → α) : List (Write α) :=
  let mixedDims := storageOrder op dims
  (getSubview (evals ρ mixedDims) (rewritePtr ρ op)).store (getExtractSlice (storedTensor op value))

def guardedMaskedStore (ρ : Env) (op : MakeTensorPtrOp rank) (dims : Fin rank → OFR)
    (value : Index rank → α) : List (Write α) :=
  if fullCond ρ op (storageOrder op dims) then (rewritePtr ρ op).store (storedTensor op value)
  else generalMaskedStore ρ op dims value

def rewriteMaskedStore (ρ : Env) (op : MakeTensorPtrOp rank) (dims : Fin rank → OFR)
    (value : Index rank → α) : List (Write α) :=
  if hasBoundaryMaskForm op (storageOrder op dims) then guardedMaskedStore ρ op dims value
  else generalMaskedStore ρ op dims value

/-! The permutations. -/

/-- The order of the memref as a permutation: entry `k` of a list is the entry
of its image before. -/
def storagePerm (op : MakeTensorPtrOp rank) : Equiv.Perm (Fin rank) :=
  match originalOrder op with
  | some order => Fin.revPerm.trans order
  | none => Equiv.refl _

theorem storageOrder_apply (op : MakeTensorPtrOp rank) (values : Fin rank → β) (k : Fin rank) :
    storageOrder op values k = values (storagePerm op k) := by
  unfold storageOrder storagePerm
  cases originalOrder op with
  | some order => rfl
  | none => rfl

theorem getRecoverPermutation_apply (order : Equiv.Perm (Fin rank)) (k : Fin rank) :
    getRecoverPermutation order (order k) = k.rev := fillTable_apply order.injective ..

theorem getRecoverPermutation_injective (order : Equiv.Perm (Fin rank)) :
    Function.Injective (getRecoverPermutation order) := by
  intro a b h
  obtain ⟨k, rfl⟩ := order.surjective a
  obtain ⟨l, rfl⟩ := order.surjective b
  rw [getRecoverPermutation_apply, getRecoverPermutation_apply, Fin.rev_inj] at h
  rw [h]

theorem loadedTensor_apply (op : MakeTensorPtrOp rank) (m : Memory α) (i : Index rank) :
    loadedTensor op m i =
      m (position (storageOrder op op.sizes) fun k => i (storagePerm op k)) := by
  have hload : ∀ j, (alloc (storageOrder op op.sizes)).load m j =
      m (position (storageOrder op op.sizes) j) :=
    fun j => congrArg m (alloc_address _ j)
  unfold loadedTensor storagePerm
  cases originalOrder op with
  | none => exact hload i
  | some order =>
    refine (transpose_apply (getRecoverPermutation_injective order) _ ?_).trans (hload _)
    intro d
    obtain ⟨k, rfl⟩ := order.surjective d
    rw [getRecoverPermutation_apply]
    exact congrArg i (congrArg order (Fin.rev_rev k))

theorem storedTensor_apply (op : MakeTensorPtrOp rank) (value : Index rank → α)
    (i : Index rank) : storedTensor op value (fun k => i (storagePerm op k)) = value i := by
  unfold storedTensor storagePerm
  cases originalOrder op with
  | none => rfl
  | some order => exact transpose_apply (order.injective.comp Fin.rev_injective) _ fun d => rfl

/-! What is read and written. -/

def InDims (ρ : Env) (dims : Fin rank → OFR) (i : Index rank) : Prop :=
  ∀ k, (i k : ℤ) < (dims k).eval ρ

def tileAddress (ρ : Env) (op : MakeTensorPtrOp rank) (i : Index rank) : ℤ :=
  ∑ k, (op.offsets k).eval ρ + ∑ k, i k * (op.strides k).eval ρ

section Tile

variable {ρ : Env} {op : MakeTensorPtrOp rank} {dims : Fin rank → OFR}

theorem rewritePtr_address {i : Index rank} (hi : ∀ k, i k < op.sizes k) :
    (rewritePtr ρ op).address (fun k => i (storagePerm op k)) = tileAddress ρ op i := by
  have hstrides : ∀ k, (i (storagePerm op k) : ℤ) *
      (getMixedStridesForMemref (storageOrder op op.sizes) (storageOrder op op.strides) k).eval ρ =
        i (storagePerm op k) * (op.strides (storagePerm op k)).eval ρ := by
    intro k
    rw [mul_getMixedStridesForMemref, storageOrder_apply]
    rw [storageOrder_apply]
    exact hi _
  rw [View.address, rewritePtr, tileAddress, accumulateTargetOffset_eq]
  refine congrArg₂ _ rfl ?_
  rw [← Equiv.sum_comp (storagePerm op) fun k => (i k : ℤ) * (op.strides k).eval ρ]
  exact Finset.sum_congr rfl fun k _ => hstrides k

theorem exists_storage_index {P : Index rank → Prop} (op : MakeTensorPtrOp rank) :
    (∃ s : Index rank, P s) ↔ ∃ i : Index rank, P fun k => i (storagePerm op k) := by
  constructor
  · rintro ⟨s, hs⟩
    refine ⟨fun k => s ((storagePerm op).symm k), ?_⟩
    simpa using hs
  · rintro ⟨i, hi⟩
    exact ⟨_, hi⟩

theorem storage_inBounds {v : View rank} {i : Index rank} :
    (getSubview (evals ρ (storageOrder op dims)) v).InBounds (fun k => i (storagePerm op k)) ↔
      InDims ρ dims i := by
  have hdims : ∀ k, evals ρ (storageOrder op dims) k = (dims (storagePerm op k)).eval ρ :=
    fun k => by rw [evals, storageOrder_apply]
  constructor
  · intro h k
    have hk := h ((storagePerm op).symm k)
    rw [getSubview, View.subview_sizes, hdims] at hk
    simpa using hk
  · intro h k
    rw [getSubview, View.subview_sizes, hdims]
    exact h _

theorem mem_storageCopy {base : Memory α} {w : Write α} :
    w ∈ copy base (getSubview (evals ρ (storageOrder op dims)) (rewritePtr ρ op))
        (getSubview (evals ρ (storageOrder op dims)) (alloc (storageOrder op op.sizes))) ↔
      ∃ s, (getSubview (evals ρ (storageOrder op dims))
          (alloc (storageOrder op op.sizes))).InBounds s ∧
        ⟨position (storageOrder op op.sizes) s, base ((rewritePtr ρ op).address s)⟩ = w := by
  rw [mem_copy]
  refine exists_congr fun s => ?_
  rw [getSubview, getSubview, View.origin_address, View.origin_address, alloc_address]

def DimsInTile (ρ : Env) (op : MakeTensorPtrOp rank) (dims : Fin rank → OFR) : Prop :=
  ∀ k, 0 ≤ (dims k).eval ρ ∧ (dims k).eval ρ ≤ op.sizes k

variable (h : DimsInTile ρ op dims)

include h

theorem inDims_inTile {i : Index rank} (hi : InDims ρ dims i) (k : Fin rank) :
    i k < op.sizes k := by
  have hlt := hi k
  have hle := (h k).2
  omega

theorem full_of_fullCond (hfull : fullCond ρ op (storageOrder op dims) = true) (k : Fin rank) :
    (dims k).eval ρ = op.sizes k := by
  refine eq_of_permuted_eq (s := fun k => (op.sizes k : ℤ)) (storagePerm op)
    (fun k => (h k).2) ?_ k
  intro k
  have hdim := of_decide_eq_true hfull k
  rw [storageOrder_apply] at hdim
  exact hdim

theorem mem_generalMaskedStore {value : Index rank → α} {w : Write α} :
    w ∈ generalMaskedStore ρ op dims value ↔
      ∃ i, InDims ρ dims i ∧ ⟨tileAddress ρ op i, value i⟩ = w := by
  rw [generalMaskedStore, View.mem_store, exists_storage_index op]
  refine exists_congr fun i => ?_
  rw [storage_inBounds]
  refine and_congr_right fun hi => ?_
  have hslice : getExtractSlice (storedTensor op value) (fun k => i (storagePerm op k)) =
      value i := by
    simp only [getExtractSlice, zero_add, mul_one, storedTensor_apply]
  rw [hslice, getSubview, View.origin_address, rewritePtr_address (inDims_inTile h hi)]

theorem storage_full (hfull : fullCond ρ op (storageOrder op dims) = true) :
    evals ρ (storageOrder op dims) = fun k => ((storageOrder op op.sizes k : ℕ) : ℤ) := by
  funext k
  rw [evals, storageOrder_apply, full_of_fullCond h hfull, storageOrder_apply]

theorem guardedMaskedLoad_eq (other : Option α) (base : Memory α) :
    guardedMaskedLoad ρ op ⟨dims, other⟩ base = generalMaskedLoad ρ op ⟨dims, other⟩ base := by
  unfold guardedMaskedLoad
  split_ifs with hguard
  · have hfull := storage_full h hguard
    have hfill : LoadMask.fill ρ (storageOrder op op.sizes) ⟨storageOrder op dims, other⟩ = [] :=
      fill_full fun k => congrFun hfull k
    simp only [generalMaskedLoad, hfill, List.nil_append, hfull]
    exact (copy_whole base (rewritePtr ρ op) (alloc (storageOrder op op.sizes))).symm
  · rfl

theorem guardedMaskedStore_eq (value : Index rank → α) :
    guardedMaskedStore ρ op dims value = generalMaskedStore ρ op dims value := by
  unfold guardedMaskedStore
  split_ifs with hguard
  · have hslice : getExtractSlice (storedTensor op value) = storedTensor op value := by
      funext i
      simp only [getExtractSlice, zero_add, mul_one]
    simp only [generalMaskedStore, hslice, storage_full h hguard]
    exact (View.store_whole (rewritePtr ρ op) _).symm
  · rfl

theorem rewriteMaskedLoad_eq (other : Option α) (base : Memory α) :
    rewriteMaskedLoad ρ op ⟨dims, other⟩ base = generalMaskedLoad ρ op ⟨dims, other⟩ base := by
  unfold rewriteMaskedLoad
  split_ifs
  · exact guardedMaskedLoad_eq h other base
  · rfl

theorem rewriteMaskedStore_eq (value : Index rank → α) :
    rewriteMaskedStore ρ op dims value = generalMaskedStore ρ op dims value := by
  unfold rewriteMaskedStore
  split_ifs
  · exact guardedMaskedStore_eq h value
  · rfl

end Tile

/-- Source values where the mask is, and the other value elsewhere. -/
def LoadsTile (ρ : Env) (op : MakeTensorPtrOp rank) (mask : LoadMask rank α) (base : Memory α)
    (result : Index rank → α) : Prop :=
  ∀ i : Index rank, (∀ k, i k < op.sizes k) →
    (InDims ρ mask.dims i → result i = base (tileAddress ρ op i)) ∧
    (¬ InDims ρ mask.dims i → ∀ other ∈ mask.other, result i = other)

/-- An address of the mask holds the value of an element at that address, and
every other address what it held before. -/
def StoresTile (ρ : Env) (op : MakeTensorPtrOp rank) (dims : Fin rank → OFR)
    (value : Index rank → α) (m m' : Memory α) : Prop :=
  (∀ i, InDims ρ dims i → ∃ j, InDims ρ dims j ∧ tileAddress ρ op j = tileAddress ρ op i ∧
    m' (tileAddress ρ op i) = value j) ∧
  ∀ a, (∀ i, InDims ρ dims i → tileAddress ρ op i ≠ a) → m' a = m a

section Results

variable {ρ : Env} {op : MakeTensorPtrOp rank} {dims : Fin rank → OFR}
  (h : DimsInTile ρ op dims)

include h

theorem generalMaskedLoad_loads (other : Option α) (base init : Memory α) :
    LoadsTile ρ op ⟨dims, other⟩ base
      (loadedTensor op (run (generalMaskedLoad ρ op ⟨dims, other⟩ base) init)) := by
  intro i hi
  have hstorage : ∀ k, i (storagePerm op k) < storageOrder op op.sizes k := by
    intro k
    rw [storageOrder_apply]
    exact hi _
  have hshape : ∀ s : Index rank, (getSubview (evals ρ (storageOrder op dims))
      (alloc (storageOrder op op.sizes))).InBounds s → ∀ k, s k < storageOrder op op.sizes k := by
    intro s hs k
    have hlt := hs k
    have hle := (h (storagePerm op k)).2
    rw [getSubview, View.subview_sizes, evals, storageOrder_apply] at hlt
    rw [storageOrder_apply]
    omega
  rw [loadedTensor_apply, generalMaskedLoad, run_append]
  constructor
  · intro hin
    rw [run_position (fun w => mem_storageCopy) hshape (storage_inBounds.mpr hin),
      rewritePtr_address hi]
  · intro hout x hx
    rw [run_position_frame (fun w => mem_storageCopy) hshape hstorage
      fun hin => hout (storage_inBounds.mp hin)]
    have hother : (⟨storageOrder op dims, other⟩ : LoadMask rank α).other = some x := hx
    have hdim : ∃ k, (dims k).eval ρ ≤ i k := by simpa [InDims] using hout
    obtain ⟨k, hk⟩ := hdim
    refine run_fill hother hstorage ⟨(storagePerm op).symm k, ?_⟩
    show (storageOrder op dims _).eval ρ ≤ _
    rw [storageOrder_apply, Equiv.apply_symm_apply]
    exact hk

theorem generalMaskedStore_stores (value : Index rank → α) (m : Memory α) :
    StoresTile ρ op dims value m (run (generalMaskedStore ρ op dims value) m) := by
  constructor
  · intro i hi
    obtain ⟨w, hw, ha, hrun⟩ := run_written ⟨_, (mem_generalMaskedStore h).mpr ⟨i, hi, rfl⟩,
      rfl⟩ m
    obtain ⟨j, hj, rfl⟩ : ∃ j, InDims ρ dims j ∧ ⟨tileAddress ρ op j, value j⟩ = w :=
      (mem_generalMaskedStore h).mp hw
    exact ⟨j, hj, ha, hrun⟩
  · intro a hne
    refine run_frame (fun w hw => ?_) m
    obtain ⟨i, hi, rfl⟩ := (mem_generalMaskedStore h).mp hw
    exact hne i hi

end Results

/-- The guarded path agrees with the general one, for every order of the
dimensions: a true guard says that the whole tile is in the mask, both loads
give the masked tile, and both stores change exactly its elements. -/
theorem guarded_agrees (ρ : Env) (op : MakeTensorPtrOp rank) (mask : LoadMask rank α)
    (h : DimsInTile ρ op mask.dims) (base init : Memory α) (value : Index rank → α) :
    (fullCond ρ op (storageOrder op mask.dims) = true →
      ∀ k, (mask.dims k).eval ρ = op.sizes k) ∧
    guardedMaskedLoad ρ op mask base = generalMaskedLoad ρ op mask base ∧
    LoadsTile ρ op mask base (loadedTensor op (run (rewriteMaskedLoad ρ op mask base) init)) ∧
    guardedMaskedStore ρ op mask.dims value = generalMaskedStore ρ op mask.dims value ∧
    StoresTile ρ op mask.dims value init (run (rewriteMaskedStore ρ op mask.dims value) init) := by
  obtain ⟨dims, other⟩ := mask
  refine ⟨full_of_fullCond h, guardedMaskedLoad_eq h other base, ?_,
    guardedMaskedStore_eq h value, ?_⟩
  · rw [rewriteMaskedLoad_eq h]
    exact generalMaskedLoad_loads h other base init
  · rw [rewriteMaskedStore_eq h]
    exact generalMaskedStore_stores h value init

def transposedTile : MakeTensorPtrOp 2 where
  sizes := ![2, 2]
  strides := ![.attr 1, .attr 8]
  offsets := ![.attr 2, .attr 0]
  shape := ![.attr 8, .attr 8]
  order := some (Equiv.refl _)

/-- The guard is true for the whole tile, in a transposed order. -/
theorem guarded_agrees_transposed :
    fullCond emptyEnv transposedTile (storageOrder transposedTile ![.attr 2, .attr 2]) = true ∧
    LoadsTile emptyEnv transposedTile ⟨![.attr 2, .attr 2], some 7⟩ (fun a => a)
      (loadedTensor transposedTile (run (rewriteMaskedLoad emptyEnv transposedTile
        ⟨![.attr 2, .attr 2], some 7⟩ fun a => a) fun _ => 0)) :=
  ⟨by decide, (guarded_agrees emptyEnv transposedTile ⟨![.attr 2, .attr 2], some (7 : ℤ)⟩
    (by unfold DimsInTile; decide) (fun a => a) (fun _ => 0) fun _ => 0).2.2.1⟩

end TritonCpu.StructuredToMemref
