import TritonCpu.PtrDenotation
import TritonCpu.SplitPtr

/-!
# Stacked wraparound loads

The rows of the tile wrap around. The first block has the rows up to the last
one of the modulo range, the second as many of the remaining rows as the range
has. A tile that wraps around more than once has rows in neither.
-/

set_option autoImplicit false

namespace TritonCpu.StructuredToMemref
open TritonIR OpFoldResult MemRef AnalysisStructured

attribute [local instance] neZero_one neZero_two

variable {α : Type}

/-- A tile that starts at row `r` and column `c` of a range of `M` rows. -/
structure StackedStart (ρ : Env) (op : MakeTensorPtrOp 2) (M r c : ℤ) : Prop where
  strideRow_pos : 0 < (op.strides 0).eval ρ
  modRow : (op.shape 0).eval ρ = M * (op.strides 0).eval ρ
  start : ∑ k, evals ρ op.offsets k = r * (op.strides 0).eval ρ + c
  row : 0 ≤ r ∧ r < M
  column : 0 ≤ c ∧ c < (op.strides 0).eval ρ

def StackedLoads (ρ : Env) (op : MakeTensorPtrOp 2) (M r c : ℤ) (block1 block2 : View 2)
    (base init : Memory α) : Prop :=
  ∀ i : Index 2, (∀ k, i k < op.sizes k) →
    run (createStackedCopies base block1 block2 (alloc op.sizes)) init (position op.sizes i) =
      base ((r + i 0) % M * (op.strides 0).eval ρ + c + i 1 * (op.strides 1).eval ρ)

theorem rewriteSplitPtr_stacked {ρ : Env} {op : MakeTensorPtrOp 2} {block1 block2 : View 2}
    (h : rewriteSplitPtr ρ op = .ok (.stacked block1 block2)) :
    createStackedCastOps ρ op = (block1, block2) := by
  simp only [rewriteSplitPtr] at h
  split_ifs at h
  · cases h
    rfl
  · cases h

section Blocks

variable {ρ : Env} {op : MakeTensorPtrOp 2} {M r c : ℤ}

theorem createStackedCastOps_eq (h : StackedStart ρ op M r c) :
    createStackedCastOps ρ op =
      (⟨r * (op.strides 0).eval ρ + c, ![min (M - r) (op.sizes 0), op.sizes 1],
          ![(op.strides 0).eval ρ, (op.strides 1).eval ρ]⟩,
        ⟨c, ![min (op.sizes 0 - min (M - r) (op.sizes 0)) M, op.sizes 1],
          ![(op.strides 0).eval ρ, (op.strides 1).eval ρ]⟩) := by
  have hwrapped : (r * (op.strides 0).eval ρ + c).tmod ((op.strides 0).eval ρ) = c := by
    have hnonneg := Int.mul_nonneg h.row.1 h.strideRow_pos.le
    rw [Int.tmod_eq_emod_of_nonneg (by have := h.column.1; omega), Int.add_comm,
      Int.add_mul_emod_self_right, Int.emod_eq_of_lt h.column.1 h.column.2]
  have hspan : M * (op.strides 0).eval ρ + c - (r * (op.strides 0).eval ρ + c) =
      (M - r) * (op.strides 0).eval ρ := by ring
  simp only [createStackedCastOps, accumulateTargetOffset_eq, h.start, h.modRow, hwrapped, hspan,
    Int.mul_tdiv_cancel _ h.strideRow_pos.ne']

variable {block1 block2 : View 2}

def InBlocks (op : MakeTensorPtrOp 2) (M r : ℤ) (i : Index 2) : Prop :=
  (∀ k, i k < op.sizes k) ∧ r + i 0 < 2 * M

theorem mem_stackedCopies (h : StackedStart ρ op M r c)
    (hblocks : createStackedCastOps ρ op = (block1, block2)) {base : Memory α} {w : Write α} :
    w ∈ createStackedCopies base block1 block2 (alloc op.sizes) ↔
      ∃ i, InBlocks op M r i ∧ ⟨position op.sizes i, base
        ((r + i 0) % M * (op.strides 0).eval ρ + c + i 1 * (op.strides 1).eval ρ)⟩ = w := by
  have hr := h.row
  obtain ⟨n1, hn1⟩ : ∃ n1 : ℕ, min (M - r) (op.sizes 0) = n1 :=
    Int.eq_ofNat_of_zero_le (by omega)
  obtain ⟨n2, hn2⟩ : ∃ n2 : ℕ, min (op.sizes 0 - (n1 : ℤ)) M = n2 :=
    Int.eq_ofNat_of_zero_le (by omega)
  rw [createStackedCastOps_eq h, hn1, hn2, Prod.mk.injEq] at hblocks
  obtain ⟨rfl, rfl⟩ := hblocks
  rw [mem_createStackedCopies rfl rfl]
  refine exists_congr fun i => ?_
  have hrows : i 0 < n1 + n2 ↔ i 0 < op.sizes 0 ∧ r + i 0 < 2 * M := by omega
  have hsource : r + i 0 < 2 * M → i 0 < op.sizes 0 →
      (if i 0 < n1 then
        View.address ⟨r * (op.strides 0).eval ρ + c, ![(n1 : ℤ), op.sizes 1],
          ![(op.strides 0).eval ρ, (op.strides 1).eval ρ]⟩ i
      else View.address ⟨c, ![(n2 : ℤ), op.sizes 1],
          ![(op.strides 0).eval ρ, (op.strides 1).eval ρ]⟩ ![i 0 - n1, i 1]) =
        (r + i 0) % M * (op.strides 0).eval ρ + c + i 1 * (op.strides 1).eval ρ := by
    intro hM hi
    split_ifs with hlt
    · have hmod : (r + i 0) % M = r + i 0 := Int.emod_eq_of_lt (by omega) (by omega)
      rw [strided_address, hmod]
      ring
    · have hmod : (r + i 0) % M = r + i 0 - M := by
        rw [← Int.sub_emod_right]
        exact Int.emod_eq_of_lt (by omega) (by omega)
      have hrow : ((i 0 - n1 : ℕ) : ℤ) = r + i 0 - M := by omega
      rw [strided_address, hmod]
      show c + (((i 0 - n1 : ℕ) : ℤ) * _ + i 1 * _) = _
      rw [hrow]
      ring
  rw [InBlocks, Fin.forall_fin_two, hrows]
  constructor
  · rintro ⟨⟨hi0, hM⟩, hi1, rfl⟩
    exact ⟨⟨⟨hi0, hi1⟩, hM⟩, by rw [hsource hM hi0]⟩
  · rintro ⟨⟨⟨hi0, hi1⟩, hM⟩, rfl⟩
    exact ⟨⟨hi0, hM⟩, hi1, by rw [hsource hM hi0]⟩

end Blocks

/-- A stacked wraparound load fills the tile exactly when the tile ends before
the second end of the modulo range, or has no columns. -/
theorem stacked_correct_iff [Nontrivial α] (ρ : Env) (op : MakeTensorPtrOp 2) (M r c : ℤ)
    (block1 block2 : View 2) (hsplit : rewriteSplitPtr ρ op = .ok (.stacked block1 block2))
    (h : StackedStart ρ op M r c) (base : Memory α) :
    (∀ init, StackedLoads ρ op M r c block1 block2 base init) ↔
      r + op.sizes 0 ≤ 2 * M ∨ op.sizes 1 = 0 := by
  have hmem : ∀ w, w ∈ createStackedCopies base block1 block2 (alloc op.sizes) ↔ _ :=
    fun w => mem_stackedCopies h (rewriteSplitPtr_stacked hsplit)
  constructor
  · intro hloads
    by_contra hnot
    -- the first row that is in neither block
    have hrow : ∀ k, ![(2 * M - r).toNat, 0] k < op.sizes k := by
      have := h.row
      rw [Fin.forall_fin_two]
      constructor
      · show (2 * M - r).toNat < op.sizes 0
        omega
      · show 0 < op.sizes 1
        omega
    obtain ⟨x, hx⟩ := exists_ne (base ((r + ![(2 * M - r).toNat, 0] 0) % M *
      (op.strides 0).eval ρ + c + ![(2 * M - r).toNat, 0] 1 * (op.strides 1).eval ρ))
    have hload := hloads (fun _ => x) _ hrow
    have hout : ¬ InBlocks op M r ![(2 * M - r).toNat, 0] := by
      intro hin
      have hlt : r + ((2 * M - r).toNat : ℤ) < 2 * M := hin.2
      omega
    rw [run_position_frame hmem (fun j hj => hj.1) hrow hout] at hload
    exact hx hload
  · intro hcond init i hi
    have hM : r + i 0 < 2 * M := by
      have h0 := hi 0
      have h1 := hi 1
      omega
    exact run_position hmem (fun j hj => hj.1) ⟨hi, hM⟩ init

/-- A tile of two columns that starts at row 1 of a range of two rows. -/
def stackedTile (rows : ℕ) : MakeTensorPtrOp 2 where
  sizes := ![rows, 2]
  strides := ![.attr 4, .attr 1]
  offsets := ![.attr 4, .attr 1]
  shape := ![.attr 8, .attr 0]
  order := none

theorem stackedTile_start (rows : ℕ) : StackedStart emptyEnv (stackedTile rows) 2 1 1 where
  strideRow_pos := Int.natCast_pos.mpr (by decide : 0 < 4)
  modRow := rfl
  start := Fin.sum_univ_two _
  row := by decide
  column := ⟨by decide, Int.ofNat_lt.mpr (by decide : 1 < 4)⟩

/-- Three rows end with the range. -/
theorem stacked_correct_iff_three :
    StackedLoads emptyEnv (stackedTile 3) 2 1 1 (createStackedCastOps emptyEnv (stackedTile 3)).1
      (createStackedCastOps emptyEnv (stackedTile 3)).2 (fun a => a) fun _ => 0 :=
  (stacked_correct_iff emptyEnv (stackedTile 3) 2 1 1 _ _ rfl (stackedTile_start 3) _).mpr
    (Or.inl (by decide)) _

/-- The fourth row is not filled. -/
theorem stacked_incorrect : StackedStart emptyEnv (stackedTile 4) 2 1 1 ∧
    ∃ block1 block2, rewriteSplitPtr emptyEnv (stackedTile 4) = .ok (.stacked block1 block2) ∧
      ¬ StackedLoads emptyEnv (stackedTile 4) 2 1 1 block1 block2 (fun a => a) fun _ => 0 := by
  refine ⟨stackedTile_start 4, _, _, rfl, fun h => ?_⟩
  have hload := h ![3, 0] (by decide)
  revert hload
  decide

end TritonCpu.StructuredToMemref
