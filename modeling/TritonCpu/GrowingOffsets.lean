import Mathlib.Data.DFinsupp.WellFounded
import Mathlib.Data.Finset.Lattice.Fold
import Mathlib.Logic.Function.Iterate
import Mathlib.Tactic.Common

/-!
# Offsets that only grow

Items in a fixed order, each with a size and an offset. In a step an item moves
up only if it starts below the end of an item before it. Such steps come to an
end: the first item that moves has come closer to the ends of the items before
it, which have not moved.
-/

set_option autoImplicit false

namespace TritonCpu.GrowingOffsets

variable {ι : Type} [LinearOrder ι] [Fintype ι] (size : ι → ℕ)

structure Step (o o' : ι → ℕ) : Prop where
  grows (x : ι) : o x ≤ o' x
  below (x : ι) : o' x ≠ o x → ∃ y < x, o x < o y + size y

def room (o : ι → ℕ) (x : ι) : ℕ :=
  (Finset.univ.filter (· < x)).sup (fun y => o y + size y) - o x

variable {size}

theorem room_congr {o o' : ι → ℕ} {x : ι} (h : ∀ y ≤ x, o' y = o y) :
    room size o' x = room size o x := by
  have hsup : (Finset.univ.filter (· < x)).sup (fun y => o' y + size y) =
      (Finset.univ.filter (· < x)).sup fun y => o y + size y :=
    Finset.sup_congr rfl fun y hy => by rw [h y (Finset.mem_filter.mp hy).2.le]
  rw [room, room, hsup, h x le_rfl]

theorem room_lt {o o' : ι → ℕ} (hstep : Step size o o') {x : ι} (hx : o' x ≠ o x)
    (hfirst : ∀ y < x, o' y = o y) : room size o' x < room size o x := by
  obtain ⟨y, hy, hbelow⟩ := hstep.below x hx
  have hgrows := hstep.grows x
  have hsup : (Finset.univ.filter (· < x)).sup (fun y => o' y + size y) =
      (Finset.univ.filter (· < x)).sup fun y => o y + size y :=
    Finset.sup_congr rfl fun z hz => by rw [hfirst z (Finset.mem_filter.mp hz).2]
  have hle : o y + size y ≤ (Finset.univ.filter (· < x)).sup fun y => o y + size y :=
    Finset.le_sup (f := fun y => o y + size y) (by simpa using hy)
  rw [room, room, hsup]
  omega

theorem room_lex {o o' : ι → ℕ} (hstep : Step size o o') (hne : o' ≠ o) :
    toLex (room size o') < toLex (room size o) := by
  classical
  have hmoved : (Finset.univ.filter fun x => o' x ≠ o x).Nonempty := by
    obtain ⟨x, hx⟩ := Function.ne_iff.mp hne
    exact ⟨x, by simpa using hx⟩
  obtain ⟨x, hx, hmin⟩ := Finset.exists_minimal hmoved
  have hfirst : ∀ y < x, o' y = o y := by
    intro y hy
    by_contra hmove
    exact absurd (hmin (by simpa using hmove) hy.le) (not_le.mpr hy)
  refine ⟨x, fun y hy => room_congr fun z hz => hfirst z (hz.trans_lt hy), ?_⟩
  exact room_lt hstep (by simpa using hx) hfirst

variable (size) in
theorem wellFounded_step :
    WellFounded fun o' o : ι → ℕ => Step size o o' ∧ o' ≠ o :=
  Subrelation.wf (fun h => room_lex h.1 h.2)
    (InvImage.wf (fun o => toLex (room size o)) wellFounded_lt)

theorem exists_fixed {f : (ι → ℕ) → ι → ℕ} (hf : ∀ o, Step size o (f o)) (o : ι → ℕ) :
    ∃ k, f (f^[k] o) = f^[k] o := by
  induction o using (wellFounded_step size).induction with
  | _ o ih =>
    by_cases hfixed : f o = o
    · exact ⟨0, hfixed⟩
    · obtain ⟨k, hk⟩ := ih (f o) ⟨hf o, hfixed⟩
      exact ⟨k + 1, hk⟩

omit [Fintype ι] in
theorem iterate_grows {f : (ι → ℕ) → ι → ℕ} (hf : ∀ o, Step size o (f o)) (o : ι → ℕ) (k : ℕ)
    (x : ι) : o x ≤ f^[k] o x := by
  induction k generalizing o with
  | zero => exact le_rfl
  | succ k ih => exact ((hf o).grows x).trans (ih (f o))

end TritonCpu.GrowingOffsets
