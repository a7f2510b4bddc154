import Mathlib.Data.Fintype.EquivFin
import TritonCpu.MemRef

/-!
# Permuted dimensions

Lists of dimensions are functions on `Fin rank`. A table is filled one entry
after the other; a transposed tensor reads its source at the index whose
entries are placed by the permutation.
-/

set_option autoImplicit false

namespace TritonCpu.MemRef

variable {rank : ℕ} {α β : Type}

/-- Entry `f k` of the table is `g k`. -/
def fillTable (f : Fin rank → Fin rank) (g init : Fin rank → β) : Fin rank → β :=
  (List.finRange rank).foldl (fun table k => Function.update table (f k) (g k)) init

theorem foldl_update_apply {f : Fin rank → Fin rank} (hf : Function.Injective f)
    (g table : Fin rank → β) (l : List (Fin rank)) {k : Fin rank}
    (h : k ∈ l ∨ table (f k) = g k) :
    l.foldl (fun table k => Function.update table (f k) (g k)) table (f k) = g k := by
  induction l generalizing table with
  | nil => simpa using h
  | cons a l ih =>
    refine ih _ ?_
    show k ∈ l ∨ Function.update table (f a) (g a) (f k) = g k
    by_cases hk : k = a
    · subst hk
      exact Or.inr (Function.update_self ..)
    · rw [Function.update_of_ne (fun he => hk (hf he))]
      exact h.imp_left fun hmem => (List.mem_cons.mp hmem).resolve_left hk

theorem fillTable_apply {f : Fin rank → Fin rank} (hf : Function.Injective f)
    (g init : Fin rank → β) (k : Fin rank) : fillTable f g init (f k) = g k :=
  foldl_update_apply hf g init _ (Or.inl (List.mem_finRange k))

/-- Dimension `d` of the result is dimension `permutation d` of the source. -/
def transpose (permutation : Fin rank → Fin rank) (source : Index rank → α) : Index rank → α :=
  fun i => source (fillTable permutation i fun _ => 0)

theorem transpose_apply {permutation : Fin rank → Fin rank}
    (hinj : Function.Injective permutation) (source : Index rank → α) {i j : Index rank}
    (h : ∀ d, j (permutation d) = i d) : transpose permutation source i = source j := by
  refine congrArg source (funext fun p => ?_)
  obtain ⟨d, rfl⟩ := Finite.surjective_of_injective hinj p
  rw [fillTable_apply hinj, h]

/-- If no entry is above its bound, and the permuted entries are the bounds,
every entry is its bound: both have the same sum. -/
theorem eq_of_permuted_eq {d s : Fin rank → ℤ} (π : Equiv.Perm (Fin rank))
    (hle : ∀ k, d k ≤ s k) (h : ∀ k, d (π k) = s k) (k : Fin rank) : d k = s k := by
  have hsum : ∑ k, d k = ∑ k, s k := by
    rw [← Equiv.sum_comp π d]
    exact Finset.sum_congr rfl fun k _ => h k
  exact (Finset.sum_eq_sum_iff_of_le fun k _ => hle k).mp hsum k (Finset.mem_univ k)

end TritonCpu.MemRef
