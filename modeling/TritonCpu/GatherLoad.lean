import TritonCpu.PtrDenotation
import TritonCpu.TensorPtr

/-!
# Gather loads

A gather load copies one slice of the source for each index of the gathered
dimension. The destination slice of the buffer is a subview whose strides are
the strides of the buffer, which the buffer applies once more: along the
dimensions that are not gathered, elements land at squared strides.
-/

set_option autoImplicit false

namespace TritonCpu.StructuredToMemref
open TritonIR OpFoldResult MemRef AnalysisStructured

/-- The offset tensor has an offset for each index of the gathered dimension. -/
structure MakeGatherScatterTensorPtrOp (rank : ℕ) where
  gatherScatterOffset : Value
  gatherScatterDim : Fin rank
  sizes : Fin rank → ℕ
  strides : Fin rank → OFR
  offsets : Fin rank → OFR
  offset_shape : gatherScatterOffset.ty.shape = some [sizes gatherScatterDim]

variable {rank : ℕ} {α : Type}

def extents (ρ : Env) (sizes : Fin rank → ℕ) : Option (LoadMask rank α) → Fin rank → ℤ
  | some mask => evals ρ mask.dims
  | none => fun k => sizes k

def accumulateGatherOffset (ρ : Env) (offsets : Fin rank → ℤ) (strides : Fin rank → OFR)
    (gatherDim : Fin rank) : ℤ :=
  (List.finRange rank).foldl (fun targetOffset k => targetOffset +
    -- the other offsets are multiplied by their strides already
    if k = gatherDim then offsets k * (strides k).eval ρ else offsets k) 0

def rewriteGatherScatterPtrElement (ρ : Env) (ptr : MakeGatherScatterTensorPtrOp rank)
    (gatherOffsetElt : ℤ) : View rank :=
  let mixedStrides := getMixedStridesForMemref ptr.sizes ptr.strides
  let offsets := Function.update (evals ρ ptr.offsets) ptr.gatherScatterDim gatherOffsetElt
  ⟨accumulateGatherOffset ρ offsets mixedStrides ptr.gatherScatterDim,
    Function.update (fun k => (ptr.sizes k : ℤ)) ptr.gatherScatterDim 1, evals ρ mixedStrides⟩

def gatherUpperBound (ρ : Env) (ptr : MakeGatherScatterTensorPtrOp rank)
    (mask : Option (LoadMask rank α)) : ℤ :=
  let offsetSize : ℤ := ptr.gatherScatterOffset.shape.headD 0
  match mask with
  | some mask => min (evals ρ mask.dims ptr.gatherScatterDim) offsetSize
  | none => offsetSize

def gatherSlice (ρ : Env) (ptr : MakeGatherScatterTensorPtrOp rank)
    (mask : Option (LoadMask rank α)) (base : Memory α) (inductionVar : ℤ) : List (Write α) :=
  let gatherOffsetElt := ptr.gatherScatterOffset.eval ρ [inductionVar.toNat]
  let srcPtr := rewriteGatherScatterPtrElement ρ ptr gatherOffsetElt
  let sizes := Function.update (extents ρ ptr.sizes mask) ptr.gatherScatterDim 1
  let srcPtr := if mask.isSome then srcPtr.subview (fun _ => 0) sizes fun _ => 1 else srcPtr
  let allocOffsets := Function.update (fun _ => (0 : ℤ)) ptr.gatherScatterDim inductionVar
  let allocStrides := (alloc ptr.sizes).strides
  copy base srcPtr ((alloc ptr.sizes).subview allocOffsets sizes allocStrides)

def rewriteGather (ρ : Env) (ptr : MakeGatherScatterTensorPtrOp rank)
    (mask : Option (LoadMask rank α)) (base : Memory α) : List (Write α) :=
  (mask.map (LoadMask.fill ρ ptr.sizes)).getD [] ++
    forLoop 0 (gatherUpperBound ρ ptr mask) 1 (gatherSlice ρ ptr mask base)

/-! What the loop writes. -/

def InMask (ρ : Env) (sizes : Fin rank → ℕ) (mask : Option (LoadMask rank α)) (i : Index rank) :
    Prop := ∀ k, (i k : ℤ) < extents ρ sizes mask k

def MaskInTile (ρ : Env) (sizes : Fin rank → ℕ) (mask : Option (LoadMask rank α)) : Prop :=
  ∀ k, 0 ≤ extents ρ sizes mask k ∧ extents ρ sizes mask k ≤ sizes k

def copiedTo (sizes : Fin rank → ℕ) (gatherDim : Fin rank) (i : Index rank) : ℕ :=
  ∑ k, i k * if k = gatherDim then rowMajor rank sizes k
    else rowMajor rank sizes k * rowMajor rank sizes k

def copiedFrom (ρ : Env) (ptr : MakeGatherScatterTensorPtrOp rank) (i : Index rank) : ℤ :=
  ∑ k, if k = ptr.gatherScatterDim then
      ptr.gatherScatterOffset.eval ρ [i k] *
        (getMixedStridesForMemref ptr.sizes ptr.strides k).eval ρ
    else (ptr.offsets k).eval ρ + i k * (getMixedStridesForMemref ptr.sizes ptr.strides k).eval ρ

section Loop

variable {ρ : Env} {ptr : MakeGatherScatterTensorPtrOp rank} {mask : Option (LoadMask rank α)}
  {base : Memory α}

theorem accumulateGatherOffset_eq (offsets : Fin rank → ℤ) (strides : Fin rank → OFR)
    (gatherDim : Fin rank) : accumulateGatherOffset ρ offsets strides gatherDim =
      ∑ k, if k = gatherDim then offsets k * (strides k).eval ρ else offsets k := by
  rw [accumulateGatherOffset, foldl_add (fun k => if k = gatherDim then _ else _), zero_add,
    Fin.sum_univ_def]

theorem sliceSource_address (i : Index rank) {j : Index rank} (hj : j ptr.gatherScatterDim = 0)
    (hother : ∀ k, k ≠ ptr.gatherScatterDim → j k = i k) :
    (rewriteGatherScatterPtrElement ρ ptr (ptr.gatherScatterOffset.eval ρ
      [i ptr.gatherScatterDim])).address j = copiedFrom ρ ptr i := by
  rw [View.address, rewriteGatherScatterPtrElement, accumulateGatherOffset_eq,
    ← Finset.sum_add_distrib]
  refine Finset.sum_congr rfl fun k _ => ?_
  by_cases hk : k = ptr.gatherScatterDim
  · subst hk
    simp [hj]
  · simp [hk, hother k hk, evals]

theorem sliceTarget_address (sizes : Fin rank → ℕ) (gatherDim : Fin rank)
    (sliceSizes : Fin rank → ℤ) (i : Index rank) {j : Index rank} (hj : j gatherDim = 0)
    (hother : ∀ k, k ≠ gatherDim → j k = i k) :
    ((alloc sizes).subview (Function.update (fun _ => 0) gatherDim (i gatherDim : ℤ)) sliceSizes
      (alloc sizes).strides).address j = copiedTo sizes gatherDim i := by
  rw [View.subview_address, copiedTo, Nat.cast_sum]
  show 0 + _ = _
  rw [zero_add]
  refine Finset.sum_congr rfl fun k _ => ?_
  by_cases hk : k = gatherDim
  · subst hk
    simp [hj, alloc]
  · simp [hk, hother k hk, alloc, mul_assoc]

theorem gatherUpperBound_eq (h : MaskInTile ρ ptr.sizes mask) :
    gatherUpperBound ρ ptr mask = extents ρ ptr.sizes mask ptr.gatherScatterDim := by
  have hshape : ptr.gatherScatterOffset.shape.headD 0 = ptr.sizes ptr.gatherScatterDim := by
    rw [shape_of_ty ptr.offset_shape]
    rfl
  cases mask with
  | none => exact congrArg _ hshape
  | some mask =>
    have hle := (h ptr.gatherScatterDim).2
    rw [gatherUpperBound, hshape]
    exact min_eq_left hle

theorem mem_gatherSlice (n : ℕ) {w : Write α} :
    w ∈ gatherSlice ρ ptr mask base n ↔
      ∃ i : Index rank, i ptr.gatherScatterDim = n ∧
        (∀ k, k ≠ ptr.gatherScatterDim → (i k : ℤ) < extents ρ ptr.sizes mask k) ∧
        ⟨copiedTo ptr.sizes ptr.gatherScatterDim i, base (copiedFrom ρ ptr i)⟩ = w := by
  have hsource : ∀ (sizes : Fin rank → ℤ) (v : View rank) (j : Index rank),
      (if mask.isSome then v.subview (fun _ => 0) sizes fun _ => 1 else v).address j =
        v.address j := by
    intro sizes v j
    split
    · exact v.origin_address sizes j
    · rfl
  rw [gatherSlice, mem_copy, Int.toNat_natCast]
  constructor
  · rintro ⟨j, hj, rfl⟩
    have hzero : j ptr.gatherScatterDim = 0 := by
      have := hj ptr.gatherScatterDim
      rw [View.subview_sizes, Function.update_self] at this
      omega
    have hother : ∀ k, k ≠ ptr.gatherScatterDim →
        j k = Function.update j ptr.gatherScatterDim n k :=
      fun k hk => (Function.update_of_ne hk _ _).symm
    have hn : Function.update j ptr.gatherScatterDim n ptr.gatherScatterDim = n :=
      Function.update_self ..
    refine ⟨Function.update j ptr.gatherScatterDim n, hn, ?_, ?_⟩
    · intro k hk
      have := hj k
      rw [View.subview_sizes, Function.update_of_ne hk] at this
      rwa [← hother k hk]
    · have hfrom := sliceSource_address (ρ := ρ) _ hzero hother
      have hto := sliceTarget_address ptr.sizes _
        (Function.update (extents ρ ptr.sizes mask) ptr.gatherScatterDim 1) _ hzero hother
      rw [hn] at hfrom hto
      rw [← hfrom, ← hto, hsource]
  · rintro ⟨i, hn, hi, rfl⟩
    have hzero : Function.update i ptr.gatherScatterDim 0 ptr.gatherScatterDim = 0 :=
      Function.update_self ..
    have hother : ∀ k, k ≠ ptr.gatherScatterDim →
        Function.update i ptr.gatherScatterDim 0 k = i k :=
      fun k hk => Function.update_of_ne hk _ _
    have hfrom := sliceSource_address (ρ := ρ) i hzero hother
    have hto := sliceTarget_address ptr.sizes _
      (Function.update (extents ρ ptr.sizes mask) ptr.gatherScatterDim 1) i hzero hother
    rw [hn] at hfrom hto
    refine ⟨Function.update i ptr.gatherScatterDim 0, ?_, ?_⟩
    · intro k
      rw [View.subview_sizes]
      by_cases hk : k = ptr.gatherScatterDim
      · subst hk
        simp
      · rw [hother k hk, Function.update_of_ne hk]
        exact hi k hk
    · rw [hsource, hfrom, hto]

theorem mem_gatherLoop (h : MaskInTile ρ ptr.sizes mask) {w : Write α} :
    w ∈ forLoop 0 (gatherUpperBound ρ ptr mask) 1 (gatherSlice ρ ptr mask base) ↔
      ∃ i, InMask ρ ptr.sizes mask i ∧
        ⟨copiedTo ptr.sizes ptr.gatherScatterDim i, base (copiedFrom ρ ptr i)⟩ = w := by
  rw [mem_forLoop one_pos, gatherUpperBound_eq h]
  simp only [zero_add, mul_one, mem_gatherSlice]
  constructor
  · rintro ⟨n, hn, i, rfl, hi, rfl⟩
    refine ⟨i, fun k => ?_, rfl⟩
    by_cases hk : k = ptr.gatherScatterDim
    · subst hk
      exact hn
    · exact hi k hk
  · rintro ⟨i, hi, rfl⟩
    exact ⟨i ptr.gatherScatterDim, hi _, i, rfl, fun k _ => hi k, rfl⟩

end Loop

/-! When the buffer holds the gathered tile. -/

def gatherAddress (ρ : Env) (ptr : MakeGatherScatterTensorPtrOp rank) (i : Index rank) : ℤ :=
  ptr.gatherScatterOffset.eval ρ [i ptr.gatherScatterDim] *
      (ptr.strides ptr.gatherScatterDim).eval ρ +
    ∑ k ∈ Finset.univ.erase ptr.gatherScatterDim,
      ((ptr.offsets k).eval ρ + i k * (ptr.strides k).eval ρ)

/-- The load leaves the tile in its buffer and writes nowhere else. -/
def GatherLoads (ρ : Env) (ptr : MakeGatherScatterTensorPtrOp rank)
    (mask : Option (LoadMask rank α)) (base init : Memory α) : Prop :=
  (∀ a : ℤ, ¬ (0 ≤ a ∧ a < (∏ k, ptr.sizes k : ℕ)) →
    run (rewriteGather ρ ptr mask base) init a = init a) ∧
  ∀ i : Index rank, (∀ k, i k < ptr.sizes k) →
    (InMask ρ ptr.sizes mask i → run (rewriteGather ρ ptr mask base) init
      (position ptr.sizes i) = base (gatherAddress ρ ptr i)) ∧
    (¬ InMask ρ ptr.sizes mask i → ∀ m ∈ mask, ∀ other ∈ m.other,
      run (rewriteGather ρ ptr mask base) init (position ptr.sizes i) = other)

/-- The squared strides agree with the strides of the buffer, and the stride
of the gathered dimension is not replaced for an offset that would count. An
empty mask copies nothing. -/
def GatherAligned (ρ : Env) (ptr : MakeGatherScatterTensorPtrOp rank)
    (mask : Option (LoadMask rank α)) : Prop :=
  (∃ k, extents ρ ptr.sizes mask k = 0) ∨
    (∀ k, k ≠ ptr.gatherScatterDim → 1 < extents ρ ptr.sizes mask k →
      rowMajor rank ptr.sizes k = 1) ∧
    ¬ (ptr.sizes ptr.gatherScatterDim = 1 ∧
      getIntAttr (ptr.strides ptr.gatherScatterDim) = some 0 ∧
      ptr.gatherScatterOffset.eval ρ [0] ≠ 0)

section Tile

variable {ρ : Env} {ptr : MakeGatherScatterTensorPtrOp rank} {mask : Option (LoadMask rank α)}

theorem inMask_inTile (h : MaskInTile ρ ptr.sizes mask) {i : Index rank}
    (hi : InMask ρ ptr.sizes mask i) (k : Fin rank) : i k < ptr.sizes k := by
  have hlt := hi k
  have hle := (h k).2
  omega

theorem copiedFrom_eq_iff {i : Index rank} (hi : ∀ k, i k < ptr.sizes k) :
    copiedFrom ρ ptr i = gatherAddress ρ ptr i ↔
      ¬ (ptr.sizes ptr.gatherScatterDim = 1 ∧
        getIntAttr (ptr.strides ptr.gatherScatterDim) = some 0 ∧
        ptr.gatherScatterOffset.eval ρ [0] ≠ 0) := by
  have hrest : ∑ k ∈ Finset.univ.erase ptr.gatherScatterDim,
      (if k = ptr.gatherScatterDim then ptr.gatherScatterOffset.eval ρ [i k] *
          (getMixedStridesForMemref ptr.sizes ptr.strides k).eval ρ
        else (ptr.offsets k).eval ρ +
          i k * (getMixedStridesForMemref ptr.sizes ptr.strides k).eval ρ) =
      ∑ k ∈ Finset.univ.erase ptr.gatherScatterDim,
        ((ptr.offsets k).eval ρ + i k * (ptr.strides k).eval ρ) := by
    refine Finset.sum_congr rfl fun k hk => ?_
    rw [if_neg (Finset.ne_of_mem_erase hk), mul_getMixedStridesForMemref ρ ptr.strides (hi k)]
  rw [copiedFrom, gatherAddress, ← Finset.add_sum_erase _ _ (Finset.mem_univ
    ptr.gatherScatterDim), hrest, if_pos rfl, add_left_inj, getMixedStridesForMemref]
  split_ifs with hone
  · have hzero : i ptr.gatherScatterDim = 0 := by
      have := hi ptr.gatherScatterDim
      omega
    have hpos := rowMajor_pos (fun k => (Nat.zero_le _).trans_lt (hi k)) ptr.gatherScatterDim
    have hstride : (ptr.strides ptr.gatherScatterDim).eval ρ = 0 := by
      cases hs : ptr.strides ptr.gatherScatterDim with
      | attr c =>
        rw [hs] at hone
        simpa [getIntAttr, OFR.eval] using hone.2
      | value v =>
        rw [hs] at hone
        simp [getIntAttr] at hone
    rw [hzero, hstride, mul_zero]
    simp only [hone, true_and, ne_eq, not_not, OFR.eval, mul_eq_zero, Nat.cast_eq_zero]
    omega
  · exact iff_of_true rfl fun h => hone ⟨h.1, h.2.1⟩

theorem copiedTo_eq (hstrides : ∀ k, k ≠ ptr.gatherScatterDim →
      1 < extents ρ ptr.sizes mask k → rowMajor rank ptr.sizes k = 1) {i : Index rank}
    (hi : InMask ρ ptr.sizes mask i) :
    copiedTo ptr.sizes ptr.gatherScatterDim i = position ptr.sizes i := by
  refine Finset.sum_congr rfl fun k _ => ?_
  split_ifs with hk
  · rfl
  · by_cases hone : 1 < extents ρ ptr.sizes mask k
    · rw [hstrides k hk hone]
    · have hzero : i k = 0 := by
        have := hi k
        omega
      rw [hzero, zero_mul, zero_mul]

theorem mem_fills {w : Write α} (h : w ∈ (mask.map (LoadMask.fill ρ ptr.sizes)).getD []) :
    ∃ m ∈ mask, w ∈ m.fill ρ ptr.sizes := by
  cases mask with
  | none => simp at h
  | some m => exact ⟨m, rfl, h⟩

theorem run_fills {c : α} (hc : ∀ m ∈ mask, ∀ other ∈ m.other, other = c) (a : ℤ) :
    run ((mask.map (LoadMask.fill ρ ptr.sizes)).getD []) (fun _ => c) a = c := by
  by_cases hw : ∃ w ∈ (mask.map (LoadMask.fill ρ ptr.sizes)).getD [], w.address = a
  · refine run_value hw (fun w hw _ => ?_) _
    obtain ⟨m, hm, hfill⟩ := mem_fills hw
    exact hc m hm _ (fill_value hfill)
  · exact run_frame (fun w hw' ha => hw ⟨w, hw', ha⟩) _

section Aligned

variable (h : MaskInTile ρ ptr.sizes mask) (hto : ∀ i, InMask ρ ptr.sizes mask i →
  copiedTo ptr.sizes ptr.gatherScatterDim i = position ptr.sizes i) {base init : Memory α}

include h hto

theorem mem_gatherLoop_position {w : Write α} :
    w ∈ forLoop 0 (gatherUpperBound ρ ptr mask) 1 (gatherSlice ρ ptr mask base) ↔
      ∃ i, InMask ρ ptr.sizes mask i ∧
        ⟨position ptr.sizes i, base (copiedFrom ρ ptr i)⟩ = w := by
  rw [mem_gatherLoop h]
  refine exists_congr fun i => and_congr_right fun hi => ?_
  rw [hto i hi]

theorem run_gather_inMask {i : Index rank} (hi : InMask ρ ptr.sizes mask i) :
    run (rewriteGather ρ ptr mask base) init (position ptr.sizes i) =
      base (copiedFrom ρ ptr i) := by
  rw [rewriteGather, run_append]
  exact run_position (fun w => mem_gatherLoop_position h hto) (fun j hj => inMask_inTile h hj) hi _

theorem run_gather_outMask {i : Index rank} (hi : ∀ k, i k < ptr.sizes k)
    (hout : ¬ InMask ρ ptr.sizes mask i) {m : LoadMask rank α} (hm : m ∈ mask) {other : α}
    (hother : other ∈ m.other) :
    run (rewriteGather ρ ptr mask base) init (position ptr.sizes i) = other := by
  rw [rewriteGather, run_append, run_position_frame (fun w => mem_gatherLoop_position h hto)
    (fun j hj => inMask_inTile h hj) hi hout]
  rw [Option.mem_def] at hm
  subst hm
  have hdim : ∃ k, (m.dims k).eval ρ ≤ i k := by simpa [InMask, extents, evals] using hout
  exact run_fill hother hi hdim

theorem run_gather_outside {a : ℤ} (ha : ¬ (0 ≤ a ∧ a < (∏ k, ptr.sizes k : ℕ))) :
    run (rewriteGather ρ ptr mask base) init a = init a := by
  have hinside : ∀ i : Index rank, (∀ k, i k < ptr.sizes k) → (position ptr.sizes i : ℤ) ≠ a := by
    intro i hi he
    have := position_lt hi
    omega
  refine run_frame (fun w hw => ?_) _
  rw [rewriteGather, List.mem_append] at hw
  rcases hw with hw | hw
  · obtain ⟨m, -, hfill⟩ := mem_fills hw
    obtain ⟨i, hi, hpos⟩ := fill_address hfill
    rw [hpos]
    exact hinside i hi
  · obtain ⟨i, hi, rfl⟩ := (mem_gatherLoop_position h hto).mp hw
    exact hinside i (inMask_inTile h hi)

end Aligned

theorem gatherLoads_of_aligned (h : MaskInTile ρ ptr.sizes mask)
    (haligned : GatherAligned ρ ptr mask) (base init : Memory α) :
    GatherLoads ρ ptr mask base init := by
  have hto : ∀ i, InMask ρ ptr.sizes mask i →
      copiedTo ptr.sizes ptr.gatherScatterDim i = position ptr.sizes i := by
    intro i hi
    rcases haligned with ⟨k, hk⟩ | ⟨hstrides, -⟩
    · have := hi k
      omega
    · exact copiedTo_eq hstrides hi
  have hfrom : ∀ i, InMask ρ ptr.sizes mask i → copiedFrom ρ ptr i = gatherAddress ρ ptr i := by
    intro i hi
    rcases haligned with ⟨k, hk⟩ | ⟨-, hstride⟩
    · have := hi k
      omega
    · exact (copiedFrom_eq_iff (inMask_inTile h hi)).mpr hstride
  refine ⟨fun a ha => run_gather_outside h hto ha, fun i hi => ⟨fun hin => ?_, ?_⟩⟩
  · rw [run_gather_inMask h hto hin, hfrom i hin]
  · exact fun hout m hm other hother => run_gather_outMask h hto hi hout hm hother

/-! The condition is needed. -/

section Needed

variable [Nontrivial α] (h : MaskInTile ρ ptr.sizes mask)
  (hloads : ∀ base init : Memory α, GatherLoads ρ ptr mask base init)

include h hloads

/-- The loop writes every position of the mask: another value there before
shows one it leaves out. -/
theorem position_written {i : Index rank} (hi : InMask ρ ptr.sizes mask i) :
    ∃ j, InMask ρ ptr.sizes mask j ∧
      copiedTo ptr.sizes ptr.gatherScatterDim j = position ptr.sizes i := by
  by_contra hnone
  obtain ⟨c, hc⟩ : ∃ c : α, ∀ m ∈ mask, ∀ other ∈ m.other, other = c := by
    obtain ⟨x⟩ : Nonempty α := inferInstance
    refine ⟨(mask.bind LoadMask.other).getD x, ?_⟩
    intro m hm other hother
    rw [Option.mem_def] at hm hother
    simp [hm, hother]
  obtain ⟨b, hb⟩ := exists_ne c
  have hload := ((hloads (fun _ => b) fun _ => c).2 i (inMask_inTile h hi)).1 hi
  rw [rewriteGather, run_append, run_frame, run_fills hc] at hload
  · exact hb hload.symm
  · intro w hw ha
    obtain ⟨j, hj, rfl⟩ := (mem_gatherLoop h).mp hw
    exact hnone ⟨j, hj, Nat.cast_inj.mp ha⟩

theorem copiedTo_of_loads (hne : ∀ k, extents ρ ptr.sizes mask k ≠ 0) :
    ∀ k, k ≠ ptr.gatherScatterDim → 1 < extents ρ ptr.sizes mask k →
      rowMajor rank ptr.sizes k = 1 := by
  have hbox : ∀ i : Index rank, InMask ρ ptr.sizes mask i ↔
      ∀ k, i k < (extents ρ ptr.sizes mask k).toNat :=
    fun i => forall_congr' fun k => Int.lt_toNat.symm
  let last : Index rank := fun k => (extents ρ ptr.sizes mask k).toNat - 1
  have hlast : InMask ρ ptr.sizes mask last := by
    intro k
    have h0 := (h k).1
    have := hne k
    show ((((extents ρ ptr.sizes mask k).toNat - 1 : ℕ)) : ℤ) < _
    omega
  obtain ⟨i, hi, hpos⟩ := exists_of_covers (p := position ptr.sizes)
    (q := copiedTo ptr.sizes ptr.gatherScatterDim)
    (fun i j hi hj => position_injective (inMask_inTile h ((hbox i).mpr hi))
      (inMask_inTile h ((hbox j).mpr hj)))
    (fun i hi => by
      obtain ⟨j, hj, heq⟩ := position_written h hloads ((hbox i).mpr hi)
      exact ⟨j, (hbox j).mp hj, heq⟩) last ((hbox last).mp hlast)
  have hpositive := rowMajor_pos fun k => (Nat.zero_le _).trans_lt (inMask_inTile h hlast k)
  have hle : ∀ k, last k * rowMajor rank ptr.sizes k ≤
      last k * if k = ptr.gatherScatterDim then rowMajor rank ptr.sizes k
        else rowMajor rank ptr.sizes k * rowMajor rank ptr.sizes k := by
    intro k
    refine Nat.mul_le_mul_left _ ?_
    split_ifs
    · exact le_refl _
    · exact Nat.le_mul_of_pos_left _ (hpositive k)
  have hsum : position ptr.sizes last = copiedTo ptr.sizes ptr.gatherScatterDim last := by
    refine le_antisymm (Finset.sum_le_sum fun k _ => hle k) ?_
    rw [← hpos]
    exact Finset.sum_le_sum fun k _ => Nat.mul_le_mul_right _ (Nat.le_sub_one_of_lt (hi k))
  intro k hk hone
  have hterm := (Finset.sum_eq_sum_iff_of_le fun k _ => hle k).mp hsum k (Finset.mem_univ k)
  have hlastk : 0 < last k := by
    show 0 < (extents ρ ptr.sizes mask k).toNat - 1
    omega
  rw [if_neg hk] at hterm
  have hsquare := Nat.eq_of_mul_eq_mul_left hlastk hterm
  exact Nat.eq_of_mul_eq_mul_left (hpositive k) (by rw [← hsquare, mul_one])

theorem aligned_of_loads : GatherAligned ρ ptr mask := by
  by_cases hempty : ∃ k, extents ρ ptr.sizes mask k = 0
  · exact Or.inl hempty
  · have hne : ∀ k, extents ρ ptr.sizes mask k ≠ 0 := fun k hk => hempty ⟨k, hk⟩
    have hstrides := copiedTo_of_loads h hloads hne
    refine Or.inr ⟨hstrides, ?_⟩
    have hfirst : InMask ρ ptr.sizes mask fun _ => 0 := by
      intro k
      have h0 := (h k).1
      have := hne k
      show ((0 : ℕ) : ℤ) < _
      omega
    rw [← copiedFrom_eq_iff (inMask_inTile h hfirst)]
    refine eq_of_forall_memory fun base : Memory α => ?_
    have hrun : run (rewriteGather ρ ptr mask base) base (position ptr.sizes fun _ => 0) =
        base (copiedFrom ρ ptr fun _ => 0) :=
      run_gather_inMask h (fun i hi => copiedTo_eq hstrides hi) hfirst
    exact hrun.symm.trans (((hloads base base).2 _ (inMask_inTile h hfirst)).1 hfirst)

end Needed

/-- A gather load leaves the gathered tile in its buffer exactly when the
squared strides agree with the strides of the buffer. -/
theorem gather_correct_iff [Nontrivial α] (ρ : Env) (ptr : MakeGatherScatterTensorPtrOp rank)
    (mask : Option (LoadMask rank α)) (h : MaskInTile ρ ptr.sizes mask) :
    (∀ base init : Memory α, GatherLoads ρ ptr mask base init) ↔ GatherAligned ρ ptr mask :=
  ⟨aligned_of_loads h, gatherLoads_of_aligned h⟩

end Tile

def gatherRows : MakeGatherScatterTensorPtrOp 2 :=
  ⟨.makeRange 0 1 2, 0, ![2, 3], ![.attr 3, .attr 1], fun _ => .attr 0, rfl⟩

/-- The gathered dimension is the leading one: the other has stride 1. -/
theorem gather_correct_iff_rows :
    GatherLoads emptyEnv gatherRows (some ⟨![.attr 2, .attr 2], some 7⟩) (fun a => a) fun _ => 0 :=
  (gather_correct_iff emptyEnv gatherRows (some ⟨![.attr 2, .attr 2], some (7 : ℤ)⟩)
    (by unfold MaskInTile; decide)).mpr (by unfold GatherAligned; decide) _ _

def gatherColumns : MakeGatherScatterTensorPtrOp 2 :=
  ⟨.makeRange 0 0 2, 1, ![2, 2], ![.attr 2, .attr 1], fun _ => .attr 0, rfl⟩

/-- The gathered dimension is the last one: the second row goes to position 4
instead of 2. -/
theorem gather_incorrect :
    MaskInTile emptyEnv gatherColumns.sizes (none : Option (LoadMask 2 ℤ)) ∧
      ¬ GatherLoads emptyEnv gatherColumns none (fun a => a) fun _ => 0 := by
  constructor
  · unfold MaskInTile
    decide
  · intro h
    have hload := (h.2 ![1, 0] (by decide)).1 (by unfold InMask; decide)
    revert hload
    decide

end TritonCpu.StructuredToMemref
