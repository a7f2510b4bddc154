import Mathlib.Logic.Equiv.Defs
import TritonCpu.MemRef
import TritonCpu.OpFoldResult

/-!
# Tensor pointers

The operations that make a tensor pointer, and what the lowerings of loads and
stores share. Operands are taken by the values they have at run time, so the
operations a helper emits are the values they compute.
-/

set_option autoImplicit false

namespace TritonCpu.StructuredToMemref
open TritonIR OpFoldResult MemRef

variable {rank : ℕ} {α : Type}

/-- The sizes are static. A tensor pointer that is no block pointer has no
order; an order lists the dimensions from the fastest to the slowest. -/
structure MakeTensorPtrOp (rank : ℕ) where
  sizes : Fin rank → ℕ
  strides : Fin rank → OFR
  offsets : Fin rank → OFR
  shape : Fin rank → OFR
  order : Option (Equiv.Perm (Fin rank))

/-- The values of the mask dimensions, and what a load gives elsewhere. -/
structure LoadMask (rank : ℕ) (α : Type) where
  dims : Fin rank → OFR
  other : Option α

def evals (ρ : Env) (xs : Fin rank → OFR) : Fin rank → ℤ := fun k => (xs k).eval ρ

def getMixedStridesForMemref (sizes : Fin rank → ℕ) (mixedStrides : Fin rank → OFR) :
    Fin rank → OFR := fun k =>
  -- `accumulate` is the row-major stride of the sizes
  if sizes k = 1 ∧ getIntAttr (mixedStrides k) = some 0 then .attr (rowMajor rank sizes k)
  else mixedStrides k

def accumulateTargetOffset (ρ : Env) (offsets : Fin rank → OFR) : ℤ :=
  (List.ofFn offsets).foldl (fun targetOffset o => targetOffset + o.eval ρ) 0

def fillWithValue (shape : Fin rank → ℕ) (dims : Fin rank → ℤ) (other : α) : List (Write α) :=
  if ∃ k, dims k < shape k then (alloc shape).store fun _ => other else []

def LoadMask.fill (ρ : Env) (shape : Fin rank → ℕ) (mask : LoadMask rank α) : List (Write α) :=
  match mask.other with
  | some other => fillWithValue shape (evals ρ mask.dims) other
  | none => []

theorem foldl_add {β : Type} (f : β → ℤ) (l : List β) (a : ℤ) :
    l.foldl (fun sum x => sum + f x) a = a + (l.map f).sum := by
  induction l generalizing a with
  | nil => simp
  | cons x l ih => rw [List.foldl_cons, ih, List.map_cons, List.sum_cons, add_assoc]

theorem accumulateTargetOffset_eq (ρ : Env) (offsets : Fin rank → OFR) :
    accumulateTargetOffset ρ offsets = ∑ k, evals ρ offsets k := by
  rw [accumulateTargetOffset, foldl_add, zero_add, List.map_ofFn, List.sum_ofFn]
  rfl

theorem mul_getMixedStridesForMemref (ρ : Env) {sizes : Fin rank → ℕ} (mixedStrides : Fin rank → OFR)
    {k : Fin rank} {n : ℕ} (h : n < sizes k) :
    (n : ℤ) * (getMixedStridesForMemref sizes mixedStrides k).eval ρ =
      n * (mixedStrides k).eval ρ := by
  unfold getMixedStridesForMemref
  split_ifs with hone
  · have hn : n = 0 := by omega
    simp [hn]
  · rfl

section Fill

variable {shape : Fin rank → ℕ} {ρ : Env} {mask : LoadMask rank α} {m : Memory α}

theorem alloc_store_address {values : Index rank → α} {w : Write α}
    (h : w ∈ (alloc shape).store values) :
    ∃ i : Index rank, (∀ k, i k < shape k) ∧ w.address = position shape i := by
  obtain ⟨i, hi, rfl⟩ := View.mem_store.mp h
  exact ⟨i, alloc_inBounds.mp hi, alloc_address shape i⟩

theorem fill_address {w : Write α} (h : w ∈ mask.fill ρ shape) :
    ∃ i : Index rank, (∀ k, i k < shape k) ∧ w.address = position shape i := by
  unfold LoadMask.fill at h
  split at h
  · unfold fillWithValue at h
    split_ifs at h with hdim
    · exact alloc_store_address h
    · simp at h
  · simp at h

theorem fill_value {w : Write α} (h : w ∈ mask.fill ρ shape) : mask.other = some w.value := by
  unfold LoadMask.fill at h
  split at h
  next other hother =>
    unfold fillWithValue at h
    split_ifs at h with hdim
    · obtain ⟨i, -, rfl⟩ := View.mem_store.mp h
      exact hother
    · simp at h
  next => simp at h

theorem run_fill {other : α} (hother : mask.other = some other) {i : Index rank}
    (hi : ∀ k, i k < shape k) (hout : ∃ k, (mask.dims k).eval ρ ≤ i k) :
    run (mask.fill ρ shape) m (position shape i) = other := by
  have hdim : ∃ k, evals ρ mask.dims k < shape k := by
    obtain ⟨k, hk⟩ := hout
    have := hi k
    exact ⟨k, by unfold evals; omega⟩
  have hfill : mask.fill ρ shape = (alloc shape).store fun _ => other := by
    simp only [LoadMask.fill, hother, fillWithValue, if_pos hdim]
  rw [hfill]
  refine run_value ⟨⟨position shape i, other⟩, ?_, rfl⟩ ?_ m
  · exact View.mem_store.mpr ⟨i, alloc_inBounds.mpr hi, by rw [alloc_address]⟩
  · intro w hw _
    obtain ⟨j, -, rfl⟩ := View.mem_store.mp hw
    rfl

theorem fill_full (hfull : ∀ k, (mask.dims k).eval ρ = shape k) : mask.fill ρ shape = [] := by
  unfold LoadMask.fill
  split
  · refine if_neg ?_
    rintro ⟨k, hk⟩
    exact absurd (hfull k) (ne_of_lt hk)
  · rfl

end Fill

end TritonCpu.StructuredToMemref
