import TritonCpu.PtrDenotation
import TritonCpu.SplitPtr

/-!
# One-dimensional wraparound

A tile with unit stride that starts anywhere in the period of its modulo. The
first block goes up to the modulo boundary, the second starts at the base and
is repeated for the rest of the tile, by loads and by stores.
-/

set_option autoImplicit false

namespace TritonCpu.StructuredToMemref
open TritonIR OpFoldResult MemRef AnalysisStructured

attribute [local instance] neZero_one neZero_two

variable {α : Type}

/-! The store. -/

def extractSlice {rank : ℕ} (source : Index rank → α) (offsets strides : Fin rank → ℤ) :
    Index rank → α := fun i => source fun k => (offsets k + i k * strides k).toNat

/-- One round of the loop of `create1DStores`. -/
def storeChunk1D (block2 : View 1) (src : Index 1 → α) (d1 d2 iv : ℤ) : List (Write α) :=
  let remaining := d2 - iv
  let thisChunk := min (block2.sizes 0) remaining
  let srcOffset := d1 + iv
  (block2.subview ![0] ![thisChunk] ![1]).store (extractSlice src ![srcOffset] ![1])

def create1DStores (block1 block2 : View 1) (shape : Fin 1 → ℕ) (src : Index 1 → α) :
    List (Write α) :=
  let block1Elems := block1.sizes 0
  let block2Elems := block2.sizes 0
  let totalElems : ℤ := shape 0
  let d1 := min block1Elems totalElems
  let d2 := totalElems - d1
  block1.store (extractSlice src ![0] ![1]) ++
    forLoop 0 d2 (max block2Elems 1) (storeChunk1D block2 src d1 d2)

/-- One round of the loop of `create1DCopies`. -/
def copyChunk1D (base : Memory α) (block2 dst : View 1) (d1 d2 iv : ℤ) : List (Write α) :=
  let thisChunk := min (block2.sizes 0) (d2 - iv)
  copy base (block2.subview ![0] ![thisChunk] ![1]) (dst.subview ![d1 + iv] ![thisChunk] ![1])

theorem create1DCopies_eq (base : Memory α) (block1 block2 dst : View 1) (totalElems : ℤ) :
    create1DCopies base block1 block2 dst totalElems =
      copy base (block1.subview ![0] ![min (block1.sizes 0) totalElems] ![1])
          (dst.subview ![0] ![min (block1.sizes 0) totalElems] ![1]) ++
        forLoop 0 (totalElems - min (block1.sizes 0) totalElems) (max (block2.sizes 0) 1)
          (copyChunk1D base block2 dst (min (block1.sizes 0) totalElems)
            (totalElems - min (block1.sizes 0) totalElems)) := rfl

/-! What it means for both to be in bounds. -/

def SliceInside (v : View 1) (offset size : ℤ) : Prop :=
  0 ≤ offset ∧ 0 ≤ size ∧ offset + size ≤ v.sizes 0

/-- The elements of a block are among the first `modSize` of the base. -/
def BlockInside (block : View 1) (modSize : ℤ) : Prop :=
  ∀ i : Index 1, block.InBounds i → 0 ≤ block.address i ∧ block.address i < modSize

/-- The load ends, and its slices are inside the blocks and the buffer. -/
structure LoadRuns1D (base : Memory α) (block1 block2 dst : View 1) (totalElems d1 d2 : ℤ) :
    Prop where
  ends : ∃ ws, ForRuns d2 (max (block2.sizes 0) 1) (copyChunk1D base block2 dst d1 d2) 0 ws ∧
    create1DCopies base block1 block2 dst totalElems =
      copy base (block1.subview ![0] ![d1] ![1]) (dst.subview ![0] ![d1] ![1]) ++ ws
  first : SliceInside block1 0 d1 ∧ SliceInside dst 0 d1
  chunk (iv : ℤ) : 0 ≤ iv → iv < d2 → SliceInside block2 0 (min (block2.sizes 0) (d2 - iv)) ∧
    SliceInside dst (d1 + iv) (min (block2.sizes 0) (d2 - iv))

/-- The store ends, its first slice has the size of the first block, and its
other slices are inside the second block and the tile. -/
structure StoreRuns1D (block1 block2 : View 1) (shape : Fin 1 → ℕ) (src : Index 1 → α)
    (d1 d2 : ℤ) : Prop where
  ends : ∃ ws, ForRuns d2 (max (block2.sizes 0) 1) (storeChunk1D block2 src d1 d2) 0 ws ∧
    create1DStores block1 block2 shape src = block1.store (extractSlice src ![0] ![1]) ++ ws
  first : d1 = block1.sizes 0 ∧ 0 ≤ d1 ∧ d1 ≤ shape 0
  chunk (iv : ℤ) : 0 ≤ iv → iv < d2 → SliceInside block2 0 (min (block2.sizes 0) (d2 - iv)) ∧
    d1 + iv + min (block2.sizes 0) (d2 - iv) ≤ shape 0

/-! Views of one dimension with unit stride. -/

def line (offset size : ℤ) : View 1 := ⟨offset, ![size], ![1]⟩

theorem line_sizes (offset size : ℤ) : (line offset size).sizes 0 = size := rfl

theorem line_address (offset size : ℤ) (i : Index 1) :
    (line offset size).address i = offset + i 0 := by
  simp [View.address, line]

theorem line_inBounds {offset size : ℤ} {i : Index 1} :
    (line offset size).InBounds i ↔ (i 0 : ℤ) < size := Fin.forall_fin_one

theorem line_subview (offset size a n : ℤ) :
    (line offset size).subview ![a] ![n] ![1] = line (offset + a) n := by
  simp only [View.subview, line, View.mk.injEq, true_and]
  exact ⟨by simp, funext (Fin.forall_fin_one.mpr rfl)⟩

theorem alloc_line (shape : Fin 1 → ℕ) : alloc shape = line 0 (shape 0) := by
  simp only [alloc, line, View.mk.injEq, true_and]
  exact ⟨funext (Fin.forall_fin_one.mpr rfl), funext (Fin.forall_fin_one.mpr rfl)⟩

theorem eta_one (i : Index 1) : ![i 0] = i := funext (Fin.forall_fin_one.mpr rfl)

theorem mem_store_line {offset : ℤ} {n : ℕ} {values : Index 1 → α} {w : Write α} :
    w ∈ (line offset n).store values ↔ ∃ j < n, ⟨offset + (j : ℤ), values ![j]⟩ = w := by
  rw [View.mem_store]
  constructor
  · rintro ⟨i, hi, rfl⟩
    exact ⟨i 0, Int.ofNat_lt.mp (line_inBounds.mp hi), by rw [line_address, eta_one]⟩
  · rintro ⟨j, hj, rfl⟩
    exact ⟨![j], line_inBounds.mpr (Int.ofNat_lt.mpr hj), by rw [line_address]; rfl⟩

theorem mem_copy_line {base : Memory α} {a b : ℤ} {n : ℕ} {w : Write α} :
    w ∈ copy base (line a n) (line b n) ↔
      ∃ j < n, ⟨b + (j : ℤ), base (a + (j : ℤ))⟩ = w := by
  rw [copy, mem_store_line]
  simp only [View.load, line_address]
  rfl

/-! The tile. -/

section Tile

variable {modSize w0 : ℤ} {n n1 n2 : ℕ}

/-- Where an element of the tile is: `w0` is the remainder of the offset, `n1`
and `n2` are the sizes of the blocks. -/
def wrapped (w0 : ℤ) (n1 n2 i : ℕ) : ℤ := if i < n1 then w0 + i else ((i - n1) % n2 : ℕ)

variable (hw0 : 0 ≤ w0 ∧ w0 < modSize) (hn : 1 ≤ n) (hn1 : (n1 : ℤ) = min (modSize - w0) n)
  (hn2 : (n2 : ℤ) = min ((n : ℤ) - n1) modSize)

include hw0 hn1 hn2

theorem wrapped_eq {i : ℕ} (hi : i < n) : wrapped w0 n1 n2 i = (w0 + i) % modSize := by
  unfold wrapped
  split_ifs with hlt
  · exact (Int.emod_eq_of_lt (by omega) (by omega)).symm
  · have hsplit : w0 + i = ((i - n1 : ℕ) : ℤ) + modSize := by omega
    rw [hsplit, Int.add_emod_right, Int.natCast_emod]
    by_cases hlast : (n2 : ℤ) = modSize
    · rw [hlast]
    · rw [Int.emod_eq_of_lt (by omega) (by omega), Int.emod_eq_of_lt (by omega) (by omega)]

omit hw0 in
theorem wrapped_injective (hperiod : (n : ℤ) ≤ modSize) {i j : ℕ} (hi : i < n) (hj : j < n)
    (h : wrapped w0 n1 n2 i = wrapped w0 n1 n2 j) : i = j := by
  have hrest : ∀ k < n, ¬ k < n1 → (k - n1) % n2 = k - n1 :=
    fun k hk hle => Nat.mod_eq_of_lt (by omega)
  unfold wrapped at h
  split_ifs at h with h1 h2 h2
  · omega
  · rw [hrest j hj h2] at h
    omega
  · rw [hrest i hi h1] at h
    omega
  · rw [hrest i hi h1, hrest j hj h2] at h
    omega

end Tile

section Writes

variable {w0 : ℤ} {n1 n2 : ℕ} {w : Write α}

theorem mem_copyChunk1D {base : Memory α} {s : ℤ} {d1 d2 m : ℕ} (hm : m < d2) :
    w ∈ copyChunk1D base (line 0 n2) (line 0 s) d1 d2 m ↔
      ∃ j < min n2 (d2 - m), ⟨((d1 + (m + j) : ℕ) : ℤ), base (j : ℕ)⟩ = w := by
  have hchunk : min (n2 : ℤ) (d2 - m) = (min n2 (d2 - m) : ℕ) := by omega
  simp only [copyChunk1D, line_sizes, hchunk, line_subview, mem_copy_line]
  refine exists_congr fun j => and_congr_right fun _ => ?_
  rw [zero_add, zero_add, zero_add]
  push_cast
  rw [add_assoc]

theorem mem_create1DCopies {base : Memory α} {s : ℤ} {t : ℕ} (hn2 : n1 < t → 0 < n2) :
    w ∈ create1DCopies base (line w0 n1) (line 0 n2) (line 0 s) t ↔
      ∃ i < t, ⟨(i : ℤ), base (wrapped w0 n1 n2 i)⟩ = w := by
  have hloop : w ∈ forLoop 0 (t - n1 : ℕ) (max (n2 : ℤ) 1)
        (copyChunk1D base (line 0 n2) (line 0 s) (min n1 t : ℕ) (t - n1 : ℕ)) ↔
      ∃ p < t - n1, ⟨((min n1 t + p : ℕ) : ℤ), base ((p % n2 : ℕ) : ℤ)⟩ = w :=
    mem_forLoop_chunks (P := fun p j w => ⟨((min n1 t + p : ℕ) : ℤ), base (j : ℕ)⟩ = w)
      (fun h => hn2 (by omega)) (fun h => by have := hn2 (by omega); omega)
      (fun m w hm => mem_copyChunk1D hm) (by omega)
  have hunfold : create1DCopies base (line w0 n1) (line 0 n2) (line 0 s) t =
      copy base (line w0 (min n1 t : ℕ)) (line 0 (min n1 t : ℕ)) ++
        forLoop 0 (t - n1 : ℕ) (max (n2 : ℤ) 1)
          (copyChunk1D base (line 0 n2) (line 0 s) (min n1 t : ℕ) (t - n1 : ℕ)) := by
    simp only [create1DCopies_eq, line_sizes, (columns_split n1 t).1, (columns_split n1 t).2,
      line_subview, add_zero]
  rw [hunfold, List.mem_append, mem_copy_line, hloop]
  constructor
  · rintro (⟨j, hj, rfl⟩ | ⟨p, hp, rfl⟩)
    · exact ⟨j, by omega, by rw [wrapped, if_pos (by omega), zero_add]⟩
    · have hlt : ¬ min n1 t + p < n1 := by omega
      have hsub : min n1 t + p - n1 = p := by omega
      exact ⟨min n1 t + p, by omega, by rw [wrapped, if_neg hlt, hsub]⟩
  · rintro ⟨i, hi, rfl⟩
    by_cases hlt : i < n1
    · exact Or.inl ⟨i, by omega, by rw [wrapped, if_pos hlt, zero_add]⟩
    · have hmin : min n1 t = n1 := by omega
      have hsum : n1 + (i - n1) = i := by omega
      exact Or.inr ⟨i - n1, by omega, by rw [wrapped, if_neg hlt, hmin, hsum]⟩

theorem mem_storeChunk1D {src : Index 1 → α} {d1 d2 m : ℕ} (hm : m < d2) :
    w ∈ storeChunk1D (line 0 n2) src d1 d2 m ↔
      ∃ j < min n2 (d2 - m), ⟨((j : ℕ) : ℤ), src ![d1 + (m + j)]⟩ = w := by
  have hchunk : min (n2 : ℤ) (d2 - m) = (min n2 (d2 - m) : ℕ) := by omega
  simp only [storeChunk1D, line_sizes, hchunk, line_subview, mem_store_line]
  refine exists_congr fun j => and_congr_right fun _ => ?_
  have hslice : extractSlice src ![(d1 : ℤ) + m] ![1] ![j] = src ![d1 + (m + j)] := by
    refine congrArg src (funext (Fin.forall_fin_one.mpr ?_))
    show ((d1 : ℤ) + m + j * 1).toNat = d1 + (m + j)
    omega
  rw [hslice, zero_add, zero_add]

theorem mem_create1DStores {shape : Fin 1 → ℕ} {src : Index 1 → α} (hle : n1 ≤ shape 0)
    (hn2 : n1 < shape 0 → 0 < n2) :
    w ∈ create1DStores (line w0 n1) (line 0 n2) shape src ↔
      ∃ i < shape 0, ⟨wrapped w0 n1 n2 i, src ![i]⟩ = w := by
  have hd1 : min (n1 : ℤ) (shape 0) = n1 := by omega
  have hd2 : (shape 0 : ℤ) - n1 = (shape 0 - n1 : ℕ) := by omega
  have hloop : w ∈ forLoop 0 (shape 0 - n1 : ℕ) (max (n2 : ℤ) 1)
        (storeChunk1D (line 0 n2) src n1 (shape 0 - n1 : ℕ)) ↔
      ∃ p < shape 0 - n1, ⟨((p % n2 : ℕ) : ℤ), src ![n1 + p]⟩ = w :=
    mem_forLoop_chunks (P := fun p j w => ⟨((j : ℕ) : ℤ), src ![n1 + p]⟩ = w)
      (fun h => hn2 (by omega)) (fun h => by have := hn2 (by omega); omega)
      (fun m w hm => mem_storeChunk1D hm) (by omega)
  have hslice (j : ℕ) : extractSlice src ![0] ![1] ![j] = src ![j] := by
    refine congrArg src (funext (Fin.forall_fin_one.mpr ?_))
    show ((0 : ℤ) + j * 1).toNat = j
    omega
  simp only [create1DStores, line_sizes, hd1, hd2, List.mem_append, mem_store_line, hloop,
    hslice]
  constructor
  · rintro (⟨j, hj, rfl⟩ | ⟨p, hp, rfl⟩)
    · exact ⟨j, by omega, by rw [wrapped, if_pos hj]⟩
    · have hlt : ¬ n1 + p < n1 := by omega
      have hsub : n1 + p - n1 = p := by omega
      exact ⟨n1 + p, by omega, by rw [wrapped, if_neg hlt, hsub]⟩
  · rintro ⟨i, hi, rfl⟩
    by_cases hlt : i < n1
    · exact Or.inl ⟨i, hlt, by rw [wrapped, if_pos hlt]⟩
    · have hsum : n1 + (i - n1) = i := by omega
      exact Or.inr ⟨i - n1, by omega, by rw [wrapped, if_neg hlt, hsum]⟩

end Writes

/-! Runs of the load and the store. -/

section Runs

variable {n1 n2 : ℕ}

theorem line_inside {offset modSize : ℤ} {n : ℕ} (hoffset : 0 ≤ offset)
    (h : offset + n ≤ modSize) : BlockInside (line offset n) modSize := by
  intro i hi
  have hlt := line_inBounds.mp hi
  rw [line_address]
  omega

theorem chunk_inside {n : ℕ} {d2 iv : ℤ} (hiv : iv < d2) :
    SliceInside (line 0 n) 0 (min ((line 0 n).sizes 0) (d2 - iv)) := by
  rw [line_sizes]
  unfold SliceInside
  rw [line_sizes]
  omega

theorem loadRuns_line (base : Memory α) (w0 : ℤ) {size t : ℕ} (ht : t ≤ size) :
    LoadRuns1D base (line w0 n1) (line 0 n2) (line 0 size) t (min (n1 : ℤ) t)
      (t - min (n1 : ℤ) t) where
  ends := by
    have hstep : 0 < max ((line 0 n2).sizes 0) 1 := by omega
    refine ⟨_, forRuns_forLoop hstep _ 0, ?_⟩
    simp only [create1DCopies_eq, line_sizes]
  first := by
    unfold SliceInside
    rw [line_sizes, line_sizes]
    omega
  chunk iv hiv hlt := by
    refine ⟨chunk_inside hlt, ?_⟩
    unfold SliceInside
    rw [line_sizes, line_sizes]
    omega

theorem storeRuns_line (w0 : ℤ) {shape : Fin 1 → ℕ} (src : Index 1 → α) (h1 : n1 ≤ shape 0) :
    StoreRuns1D (line w0 n1) (line 0 n2) shape src n1 (shape 0 - n1) where
  ends := by
    have hstep : 0 < max ((line 0 n2).sizes 0) 1 := by omega
    have hd1 : min (n1 : ℤ) (shape 0) = n1 := by omega
    refine ⟨_, forRuns_forLoop hstep _ 0, ?_⟩
    simp only [create1DStores, line_sizes, hd1]
  first := ⟨(line_sizes w0 n1).symm, Int.natCast_nonneg n1, Int.ofNat_le.mpr h1⟩
  chunk iv hiv hlt := by
    refine ⟨chunk_inside hlt, ?_⟩
    rw [line_sizes]
    omega

end Runs

/-! The pointer. -/

/-- A tile with unit stride and a period. -/
structure UnitStride1D (ρ : Env) (op : MakeTensorPtrOp 1) : Prop where
  stride : (op.strides 0).eval ρ = 1
  offset : 0 ≤ accumulateTargetOffset ρ op.offsets
  modSize : 1 ≤ (op.shape 0).eval ρ
  size : 1 ≤ op.sizes 0

theorem ceilDiv_one (lhs : ℤ) : ceilDiv lhs 1 = lhs := by
  rw [ceilDiv, Int.tdiv_one]
  omega

theorem create1DCastOps_line {ρ : Env} {op : MakeTensorPtrOp 1} (h : UnitStride1D ρ op) {w0 : ℤ}
    (hw0 : w0 = accumulateTargetOffset ρ op.offsets % (op.shape 0).eval ρ) :
    ∃ n1 n2 : ℕ, (n1 : ℤ) = min ((op.shape 0).eval ρ - w0) (op.sizes 0) ∧
      (n2 : ℤ) = min ((op.sizes 0 : ℤ) - n1) ((op.shape 0).eval ρ) ∧
      create1DCastOps ρ op = (line w0 n1, line 0 n2) := by
  have hmod := h.modSize
  have hlt : w0 < (op.shape 0).eval ρ := hw0 ▸ Int.emod_lt_of_pos _ (by omega)
  obtain ⟨n1, hn1⟩ : ∃ n1 : ℕ, min ((op.shape 0).eval ρ - w0) (op.sizes 0) = n1 :=
    Int.eq_ofNat_of_zero_le (by omega)
  obtain ⟨n2, hn2⟩ : ∃ n2 : ℕ, min ((op.sizes 0 : ℤ) - n1) ((op.shape 0).eval ρ) = n2 :=
    Int.eq_ofNat_of_zero_le (by omega)
  refine ⟨n1, n2, hn1.symm, hn2.symm, ?_⟩
  have hrem : (accumulateTargetOffset ρ op.offsets).tmod ((op.shape 0).eval ρ) = w0 := by
    rw [Int.tmod_eq_emod_of_nonneg h.offset, hw0]
  simp only [create1DCastOps, hrem, h.stride, ceilDiv_one, hn1, hn2]
  rfl

/-- The load is right for the first `t` elements. -/
def Loads1D (ρ : Env) (op : MakeTensorPtrOp 1) (block1 block2 : View 1) (base : Memory α) (t : ℕ) :
    Prop :=
  ∀ (init : Memory α) (i : Index 1), i 0 < t →
    run (create1DCopies base block1 block2 (alloc op.sizes) t) init (position op.sizes i) =
      base ((accumulateTargetOffset ρ op.offsets + i 0) % (op.shape 0).eval ρ)

def Stores1D (ρ : Env) (op : MakeTensorPtrOp 1) (block1 block2 : View 1) (src : Index 1 → α) :
    Prop :=
  ∀ (init : Memory α) (i : Index 1), i 0 < op.sizes 0 →
    run (create1DStores block1 block2 op.sizes src) init
      ((accumulateTargetOffset ρ op.offsets + i 0) % (op.shape 0).eval ρ) = src i

section Tile

variable {ρ : Env} {op : MakeTensorPtrOp 1} {w0 : ℤ} {n1 n2 : ℕ}

theorem position_one (shape : Fin 1 → ℕ) (i : Index 1) : (position shape i : ℤ) = i 0 := by
  rw [← alloc_address, alloc_line, line_address, zero_add]

variable (h : UnitStride1D ρ op)
  (hw0 : w0 = accumulateTargetOffset ρ op.offsets % (op.shape 0).eval ρ)
  (hn1 : (n1 : ℤ) = min ((op.shape 0).eval ρ - w0) (op.sizes 0))
  (hn2 : (n2 : ℤ) = min ((op.sizes 0 : ℤ) - n1) ((op.shape 0).eval ρ))

include h hw0

theorem start_inside : 0 ≤ w0 ∧ w0 < (op.shape 0).eval ρ := by
  have hmod := h.modSize
  rw [hw0]
  exact ⟨Int.emod_nonneg _ (by omega), Int.emod_lt_of_pos _ (by omega)⟩

include hn1 hn2

theorem wrapped_offset {i : ℕ} (hi : i < op.sizes 0) : wrapped w0 n1 n2 i =
    (accumulateTargetOffset ρ op.offsets + i) % (op.shape 0).eval ρ := by
  rw [wrapped_eq (start_inside h hw0) hn1 hn2 hi, hw0, Int.emod_add_emod]

theorem loads_line (base : Memory α) {t : ℕ} (ht : t ≤ op.sizes 0) :
    Loads1D ρ op (line w0 n1) (line 0 n2) base t := by
  intro init i hi
  have hstart := start_inside h hw0
  have hmem (w : Write α) :
      w ∈ create1DCopies base (line w0 n1) (line 0 n2) (line 0 (op.sizes 0)) t ↔
        ∃ j < t, ⟨(j : ℤ), base (wrapped w0 n1 n2 j)⟩ = w :=
    mem_create1DCopies (by omega)
  rw [alloc_line, position_one, ← wrapped_offset h hw0 hn1 hn2 (hi.trans_le ht)]
  refine run_value ⟨_, (hmem _).mpr ⟨i 0, hi, rfl⟩, rfl⟩ ?_ init
  intro w hw ha
  obtain ⟨j, hj, rfl⟩ := (hmem w).mp hw
  rw [Int.ofNat_inj.mp ha]

theorem mem_stores_line (src : Index 1 → α) (w : Write α) :
    w ∈ create1DStores (line w0 n1) (line 0 n2) op.sizes src ↔
      ∃ j < op.sizes 0, ⟨wrapped w0 n1 n2 j, src ![j]⟩ = w := by
  have hstart := start_inside h hw0
  exact mem_create1DStores (by omega) (by omega)

theorem stores_inside (src : Index 1 → α) {w : Write α}
    (hw : w ∈ create1DStores (line w0 n1) (line 0 n2) op.sizes src) :
    0 ≤ w.address ∧ w.address < (op.shape 0).eval ρ := by
  have hmod := h.modSize
  obtain ⟨j, hj, rfl⟩ := (mem_stores_line h hw0 hn1 hn2 src w).mp hw
  show 0 ≤ wrapped w0 n1 n2 j ∧ wrapped w0 n1 n2 j < (op.shape 0).eval ρ
  rw [wrapped_offset h hw0 hn1 hn2 hj]
  exact ⟨Int.emod_nonneg _ (by omega), Int.emod_lt_of_pos _ (by omega)⟩

theorem stores_line (src : Index 1 → α) (hperiod : (op.sizes 0 : ℤ) ≤ (op.shape 0).eval ρ) :
    Stores1D ρ op (line w0 n1) (line 0 n2) src := by
  intro init i hi
  have hmem := mem_stores_line h hw0 hn1 hn2 src
  rw [← wrapped_offset h hw0 hn1 hn2 hi]
  refine run_value ⟨_, (hmem _).mpr ⟨i 0, hi, rfl⟩, rfl⟩ ?_ init
  intro w hw ha
  obtain ⟨j, hj, rfl⟩ := (hmem w).mp hw
  have hji : j = i 0 := wrapped_injective hn1 hn2 hperiod hj hi ha
  rw [hji, eta_one]

end Tile

/-- One-dimensional wraparound: the blocks are inside the first elements of
the base, a load of any prefix of the tile ends in bounds and reads the tile
modulo the period, and a store ends, writes the period only and, for a tile no
longer than that, writes the tile modulo the period. -/
theorem wrapAround1D_correct (ρ : Env) (op : MakeTensorPtrOp 1) (h : UnitStride1D ρ op)
    (block1 block2 : View 1) (hblocks : create1DCastOps ρ op = (block1, block2)) :
    (BlockInside block1 ((op.shape 0).eval ρ) ∧ BlockInside block2 ((op.shape 0).eval ρ)) ∧
      (∀ (base : Memory α) (t : ℕ), t ≤ op.sizes 0 →
        LoadRuns1D base block1 block2 (alloc op.sizes) t (min (block1.sizes 0) t)
            (t - min (block1.sizes 0) t) ∧
          Loads1D ρ op block1 block2 base t) ∧
      ∀ src : Index 1 → α,
        StoreRuns1D block1 block2 op.sizes src (min (block1.sizes 0) (op.sizes 0))
            (op.sizes 0 - min (block1.sizes 0) (op.sizes 0)) ∧
          (∀ w ∈ create1DStores block1 block2 op.sizes src,
            0 ≤ w.address ∧ w.address < (op.shape 0).eval ρ) ∧
          ((op.sizes 0 : ℤ) ≤ (op.shape 0).eval ρ → Stores1D ρ op block1 block2 src) := by
  obtain ⟨n1, n2, hn1, hn2, hcasts⟩ := create1DCastOps_line h rfl
  rw [hcasts, Prod.mk.injEq] at hblocks
  obtain ⟨rfl, rfl⟩ := hblocks
  have hstart := start_inside h rfl
  have hmin : min (n1 : ℤ) (op.sizes 0) = n1 := by omega
  refine ⟨⟨line_inside hstart.1 (by omega), line_inside le_rfl (by omega)⟩, ?_, ?_⟩
  · intro base t ht
    refine ⟨?_, loads_line h rfl hn1 hn2 base ht⟩
    rw [alloc_line, line_sizes]
    exact loadRuns_line base _ ht
  · intro src
    refine ⟨?_, fun w => stores_inside h rfl hn1 hn2 src, stores_line h rfl hn1 hn2 src⟩
    rw [line_sizes, hmin]
    exact storeRuns_line _ src (by omega)

def wrapping1D : MakeTensorPtrOp 1 where
  sizes := ![7]
  strides := ![.attr 1]
  offsets := ![.attr 11]
  shape := ![.attr 4]
  order := none

/-- The first block is one element, the second the whole period. -/
theorem wrapAround1D_correct_wrapping :
    create1DCastOps emptyEnv wrapping1D = (⟨3, ![1], ![1]⟩, ⟨0, ![4], ![1]⟩) ∧
      Loads1D emptyEnv wrapping1D ⟨3, ![1], ![1]⟩ ⟨0, ![4], ![1]⟩ (fun a => a) 6 :=
  have hcasts : create1DCastOps emptyEnv wrapping1D = (⟨3, ![1], ![1]⟩, ⟨0, ![4], ![1]⟩) := rfl
  ⟨hcasts, ((wrapAround1D_correct emptyEnv wrapping1D ⟨by decide, by decide, by decide, by decide⟩
    _ _ hcasts).2.1 (fun a => a) 6 (by decide)).2⟩

end TritonCpu.StructuredToMemref
