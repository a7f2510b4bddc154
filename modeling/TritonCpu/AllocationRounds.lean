import TritonCpu.Allocation
import TritonCpu.GrowingOffsets

/-!
# The recolouring loop over integer addresses

In a round the buffers with another colour than the first go above their
neighbours in the interference graph. First-fit colouring gives another colour
only to a buffer below an earlier one, so the rounds come to an end, and they
end without interference.
-/

set_option autoImplicit false

namespace TritonCpu.AllocationTermination
open Allocation GrowingOffsets List

/-! First-fit colouring. -/

section Colors

variable {n : ℕ}

theorem mem_neighbours {interference : Graph n} {x y : Fin n} :
    y ∈ interference.neighbours x ↔ (x, y) ∈ interference := by
  simp [Graph.neighbours]

def colorStep (available : ℕ) (interference : Graph n) (colors : Fin n → ℤ) (x : Fin n) :
    Fin n → ℤ :=
  let taken := (interference.neighbours x).map colors
  let color := (List.range available).find? fun c => !taken.contains (c : ℤ)
  Function.update colors x (color.getD available)

theorem colorBuffers_eq (buffers : List (Fin n)) (interference : Graph n) :
    colorBuffers buffers interference =
      buffers.foldl (colorStep buffers.length interference)
        fun x => if buffers.head? = some x then 0 else -1 := rfl

theorem colorStep_of_ne (available : ℕ) (interference : Graph n) (colors : Fin n → ℤ)
    {x y : Fin n} (h : y ≠ x) : colorStep available interference colors x y = colors y :=
  Function.update_of_ne h _ _

theorem range_colors (rest : ℕ) : (List.range (rest + 1)).flatMap (fun c : ℕ => [(c : ℤ)]) =
    0 :: (List.range rest).map fun c : ℕ => (c : ℤ) + 1 := by
  rw [← map_eq_flatMap, range_succ_eq_map, map_cons, map_map]
  rfl

theorem colorStep_zero {available : ℕ} (havailable : 0 < available) (interference : Graph n)
    (colors : Fin n → ℤ) (x : Fin n) : colorStep available interference colors x x = 0 ↔
      ∀ y ∈ interference.neighbours x, colors y ≠ 0 := by
  obtain ⟨rest, rfl⟩ : ∃ rest, available = rest + 1 := ⟨available - 1, by omega⟩
  have htaken : ((interference.neighbours x).map colors).contains 0 = true ↔
      ∃ y ∈ interference.neighbours x, colors y = 0 := by simp
  rw [colorStep, Function.update_self]
  show (List.find? _ ((List.range (rest + 1)).flatMap fun c : ℕ => [(c : ℤ)])).getD _ = 0 ↔ _
  rw [range_colors]
  by_cases hfree : ∃ y ∈ interference.neighbours x, colors y = 0
  · rw [List.find?_cons_of_neg (by rw [htaken.mpr hfree]; decide)]
    obtain ⟨y, hy, hcolor⟩ := hfree
    refine iff_of_false (fun hzero => ?_) fun h => h y hy hcolor
    cases hfind : ((List.range rest).map fun c : ℕ => (c : ℤ) + 1).find? fun c =>
        !((interference.neighbours x).map colors).contains c with
    | none =>
      rw [hfind, Option.getD_none] at hzero
      omega
    | some c =>
      obtain ⟨d, -, rfl⟩ := mem_map.mp (mem_of_find?_eq_some hfind)
      rw [hfind, Option.getD_some] at hzero
      omega
  · have hnot := Bool.eq_false_iff.mpr fun h => hfree (htaken.mp h)
    rw [List.find?_cons_of_pos (by rw [hnot]; rfl)]
    exact iff_of_true rfl fun y hy hcolor => hfree ⟨y, hy, hcolor⟩

/-- The edges join different buffers of the list. -/
structure Within (buffers : List (Fin n)) (interference : Graph n) : Prop where
  irrefl (x : Fin n) : (x, x) ∉ interference
  mem {x y : Fin n} : (x, y) ∈ interference → x ∈ buffers ∧ y ∈ buffers

/-- A buffer gets the first colour unless an earlier neighbour has it. -/
def FirstFit (interference : Graph n) (colors : Fin n → ℤ) (x : Fin n) : Prop :=
  colors x = 0 ↔ ∀ y ∈ interference.neighbours x, y < x → colors y ≠ 0

theorem colorStep_firstFit {buffers done rest : List (Fin n)} {x : Fin n}
    (hbuffers : buffers = done ++ x :: rest) (hsorted : buffers.Pairwise (· < ·))
    {interference : Graph n} (hwithin : Within buffers interference) {colors : Fin n → ℤ}
    (hlater : ∀ y ∉ done, buffers.head? = some y ∨ colors y = -1)
    (hdone : ∀ y ∈ done, FirstFit interference colors y) :
    ∀ y ∈ done ++ [x],
      FirstFit interference (colorStep buffers.length interference colors x) y := by
  rw [hbuffers, pairwise_append] at hsorted
  have hbefore : ∀ y ∈ done, y < x := fun y hy => hsorted.2.2 y hy x (by simp)
  have hlength : 0 < buffers.length := by
    rw [hbuffers, length_append, length_cons]
    omega
  intro y hy
  rcases mem_append.mp hy with hy | hy
  · have hrest : (∀ z ∈ interference.neighbours y, z < y →
        colorStep buffers.length interference colors x z ≠ 0) ↔
        ∀ z ∈ interference.neighbours y, z < y → colors z ≠ 0 :=
      forall₃_congr fun z _ hz => by
        rw [colorStep_of_ne _ _ _ (hz.trans (hbefore y hy)).ne]
    rw [FirstFit, hrest, colorStep_of_ne _ _ _ (hbefore y hy).ne]
    exact hdone y hy
  · rw [mem_singleton.mp hy, FirstFit, colorStep_zero hlength]
    constructor
    · intro h z hz hlt
      rw [colorStep_of_ne _ _ _ hlt.ne]
      exact h z hz
    · intro h z hz
      have hne : z ≠ x := by
        rintro rfl
        exact hwithin.irrefl _ (mem_neighbours.mp hz)
      rcases lt_or_gt_of_ne hne with hlt | hgt
      · rw [← colorStep_of_ne buffers.length interference colors hne]
        exact h z hz hlt
      · -- a later neighbour has no colour yet
        have hnotDone : z ∉ done := fun hmem => absurd (hbefore z hmem) hgt.not_gt
        rcases hlater z hnotDone with hhead | hcolor
        · rw [hbuffers] at hhead
          cases done with
          | nil => exact absurd (Option.some.inj hhead).symm hne
          | cons w ws =>
            have hw : w = z := Option.some.inj hhead
            exact absurd (by simp [hw]) hnotDone
        · rw [hcolor]
          decide

theorem colorFold_firstFit {buffers : List (Fin n)} (hsorted : buffers.Pairwise (· < ·))
    {interference : Graph n} (hwithin : Within buffers interference) (rest done : List (Fin n))
    (hbuffers : buffers = done ++ rest) (colors : Fin n → ℤ)
    (hlater : ∀ y ∉ done, buffers.head? = some y ∨ colors y = -1)
    (hdone : ∀ y ∈ done, FirstFit interference colors y) :
    ∀ y ∈ buffers,
      FirstFit interference (rest.foldl (colorStep buffers.length interference) colors) y := by
  induction rest generalizing done colors with
  | nil =>
    rw [hbuffers, append_nil]
    exact hdone
  | cons x rest ih =>
    refine ih (done ++ [x]) (by simp [hbuffers]) _ (fun y hy => ?_)
      (colorStep_firstFit hbuffers hsorted hwithin hlater hdone)
    rw [mem_append, mem_singleton, not_or] at hy
    rw [colorStep_of_ne _ _ _ hy.2]
    exact hlater y hy.1

theorem colorBuffers_firstFit {buffers : List (Fin n)} (hsorted : buffers.Pairwise (· < ·))
    {interference : Graph n} (hwithin : Within buffers interference) {x : Fin n}
    (hx : x ∈ buffers) : FirstFit interference (colorBuffers buffers interference) x := by
  rw [colorBuffers_eq]
  refine colorFold_firstFit hsorted hwithin buffers [] rfl _ (fun y _ => ?_) (by simp) x hx
  split_ifs with hhead
  · exact .inl hhead
  · exact .inr rfl

end Colors

/-! The loop over integer addresses. -/

section Rounds

variable {n : ℕ} (buffer : Fin n → BufferT)

def alignUp (value align : ℕ) : ℕ := (value + align - 1) / align * align

def overlaps (offsets : Offsets n) (x y : Fin n) : Bool :=
  ((buffer x).live.intersects (buffer y).live || inDifferentRegion (buffer x) (buffer y)) &&
    (offsets x < offsets y + (buffer y).size && offsets y < offsets x + (buffer x).size)

def integerGraph (buffers : List (Fin n)) (offsets : Offsets n) : Graph n :=
  ((buffers.product buffers).filter fun pair => pair.1 ≠ pair.2).filter fun pair =>
    overlaps buffer offsets pair.1 pair.2

def integerBump (interference : Graph n) (colors : Fin n → ℤ) (offsets : Offsets n) (x : Fin n) :
    Offsets n :=
  let newOffset := (interference.neighbours x).foldl
    (fun m y => max m (offsets y + (buffer y).size)) 0
  if colors x ≠ 0 then Function.update offsets x (alignUp newOffset (buffer x).alignment)
  else offsets

/-- One turn of the `do … while` loop. -/
def integerRound (buffers : List (Fin n)) (offsets : Offsets n) : Offsets n :=
  let interference := integerGraph buffer buffers offsets
  buffers.foldl (integerBump buffer interference (colorBuffers buffers interference)) offsets

variable {buffer}

theorem le_alignUp (value : ℕ) {align : ℕ} (h : 0 < align) : value ≤ alignUp value align := by
  have hlt : value + align - 1 < alignUp value align + align := Nat.lt_div_mul_add h
  omega

theorem alignment_pos (x : Fin n) : 0 < (buffer x).alignment := by
  obtain ⟨k, -, halign⟩ := (buffer x).alignment_pow
  rw [halign]
  exact Nat.two_pow_pos k

theorem inDifferentRegion_comm (a b : BufferT) : inDifferentRegion a b = inDifferentRegion b a := by
  have hany : (a.regionIds.any fun t1 => b.regionIds.any fun t2 => t1 != t2) =
      b.regionIds.any fun t1 => a.regionIds.any fun t2 => t1 != t2 := by
    rw [Bool.eq_iff_iff]
    simp only [any_eq_true, bne_iff_ne]
    constructor
    · rintro ⟨t1, h1, t2, h2, hne⟩
      exact ⟨t2, h2, t1, h1, hne.symm⟩
    · rintro ⟨t1, h1, t2, h2, hne⟩
      exact ⟨t2, h2, t1, h1, hne.symm⟩
  unfold inDifferentRegion
  rw [hany, Bool.and_comm, Bool.or_comm]

theorem overlaps_comm (offsets : Offsets n) (x y : Fin n) :
    overlaps buffer offsets x y = overlaps buffer offsets y x := by
  have hlive : (buffer x).live.intersects (buffer y).live =
      (buffer y).live.intersects (buffer x).live := Bool.and_comm _ _
  unfold overlaps
  rw [hlive, inDifferentRegion_comm, Bool.and_comm (decide _) (decide _)]

theorem mem_integerGraph {buffers : List (Fin n)} {offsets : Offsets n} {x y : Fin n} :
    (x, y) ∈ integerGraph buffer buffers offsets ↔
      x ∈ buffers ∧ y ∈ buffers ∧ x ≠ y ∧ overlaps buffer offsets x y = true := by
  simp only [integerGraph, mem_filter, pair_mem_product, decide_eq_true_eq]
  tauto

theorem integerGraph_within (buffers : List (Fin n)) (offsets : Offsets n) :
    Within buffers (integerGraph buffer buffers offsets) where
  irrefl _ h := (mem_integerGraph.mp h).2.2.1 rfl
  mem h := ⟨(mem_integerGraph.mp h).1, (mem_integerGraph.mp h).2.1⟩

theorem below_of_edge {buffers : List (Fin n)} {offsets : Offsets n} {x y : Fin n}
    (h : (x, y) ∈ integerGraph buffer buffers offsets) :
    offsets x < offsets y + (buffer y).size := by
  have hover := (mem_integerGraph.mp h).2.2.2
  rw [overlaps, Bool.and_eq_true, Bool.and_eq_true] at hover
  exact of_decide_eq_true hover.2.1

theorem le_foldl_max {f : Fin n → ℕ} {ys : List (Fin n)} {y : Fin n} (hy : y ∈ ys) (m : ℕ) :
    f y ≤ ys.foldl (fun m y => max m (f y)) m := by
  induction ys generalizing m with
  | nil => cases hy
  | cons z zs ih =>
    rcases mem_cons.mp hy with rfl | hy
    · have hgrow : ∀ (l : List (Fin n)) (m : ℕ), m ≤ l.foldl (fun m y => max m (f y)) m := by
        intro l
        induction l with
        | nil => exact fun m => le_rfl
        | cons w ws ih => exact fun m => (le_max_left _ _).trans (ih _)
      exact (le_max_right _ _).trans (hgrow zs _)
    · exact ih hy _

theorem integerBump_of_ne (interference : Graph n) (colors : Fin n → ℤ) (offsets : Offsets n)
    {x y : Fin n} (h : y ≠ x) :
    integerBump buffer interference colors offsets x y = offsets y := by
  unfold integerBump
  split_ifs
  · exact Function.update_of_ne h _ _
  · rfl

theorem lt_integerBump {interference : Graph n} {colors : Fin n → ℤ} {start offsets : Offsets n}
    {x y : Fin n} (hcolor : colors x ≠ 0) (hy : y ∈ interference.neighbours x)
    (hbelow : start x < start y + (buffer y).size) (hle : start y ≤ offsets y) :
    start x < integerBump buffer interference colors offsets x x := by
  simp only [integerBump, if_pos hcolor, Function.update_self]
  calc start x < offsets y + (buffer y).size := by omega
    _ ≤ (interference.neighbours x).foldl (fun m y => max m (offsets y + (buffer y).size)) 0 :=
      le_foldl_max (f := fun y => offsets y + (buffer y).size) hy 0
    _ ≤ _ := le_alignUp _ (alignment_pos x)

/-- A pass over the buffers: offsets only grow, and exactly the buffers with
another colour than the first move. -/
structure Passed (colors : Fin n → ℤ) (xs : List (Fin n)) (offsets final : Offsets n) : Prop where
  grows (y : Fin n) : offsets y ≤ final y
  moves {x : Fin n} : x ∈ xs → colors x ≠ 0 → offsets x < final x
  only {y : Fin n} : final y ≠ offsets y → y ∈ xs ∧ colors y ≠ 0

theorem integerBump_fold {interference : Graph n} {colors : Fin n → ℤ} {start : Offsets n}
    (xs : List (Fin n)) (hnodup : xs.Nodup)
    (hcolored : ∀ x ∈ xs, colors x ≠ 0 →
      ∃ y ∈ interference.neighbours x, start x < start y + (buffer y).size)
    (offsets : Offsets n) (hkept : ∀ x ∈ xs, offsets x = start x)
    (hle : ∀ y, start y ≤ offsets y) :
    Passed colors xs offsets (xs.foldl (integerBump buffer interference colors) offsets) := by
  induction xs generalizing offsets with
  | nil => exact ⟨fun y => le_rfl, fun h => (not_mem_nil h).elim, fun h => absurd rfl h⟩
  | cons x xs ih =>
    obtain ⟨hnot, hnodup⟩ := nodup_cons.mp hnodup
    have hother {y : Fin n} (hy : y ≠ x) :
        integerBump buffer interference colors offsets x y = offsets y :=
      integerBump_of_ne interference colors offsets hy
    have hself : colors x ≠ 0 →
        offsets x < integerBump buffer interference colors offsets x x := by
      intro hcolor
      obtain ⟨y, hy, hbelow⟩ := hcolored x (by simp) hcolor
      rw [hkept x (by simp)]
      exact lt_integerBump hcolor hy hbelow (hle y)
    have hfirst : colors x = 0 → integerBump buffer interference colors offsets x = offsets :=
      fun hcolor => if_neg (not_not.mpr hcolor)
    have hgrow (y : Fin n) : offsets y ≤ integerBump buffer interference colors offsets x y := by
      by_cases hy : y = x
      · subst hy
        by_cases hcolor : colors y = 0
        · rw [hfirst hcolor]
        · exact (hself hcolor).le
      · rw [hother hy]
    have hrest := ih hnodup (fun z hz => hcolored z (by simp [hz])) _
      (fun z hz => by
        rw [hother fun he => hnot (he ▸ hz)]
        exact hkept z (by simp [hz]))
      fun y => (hle y).trans (hgrow y)
    rw [foldl_cons]
    refine ⟨fun y => (hgrow y).trans (hrest.grows y), fun {z} hz hcolor => ?_, fun {y} hy => ?_⟩
    · rcases mem_cons.mp hz with rfl | hz
      · exact (hself hcolor).trans_le (hrest.grows z)
      · exact (hgrow z).trans_lt (hrest.moves hz hcolor)
    · by_cases hlater : (xs.foldl (integerBump buffer interference colors)
          (integerBump buffer interference colors offsets x)) y =
          integerBump buffer interference colors offsets x y
      · rw [hlater] at hy
        have hyx : y = x := by
          by_contra hne
          exact hy (hother hne)
        subst hyx
        exact ⟨by simp, fun hcolor => hy (by rw [hfirst hcolor])⟩
      · exact ⟨by simp [(hrest.only hlater).1], (hrest.only hlater).2⟩

section Sorted

variable {buffers : List (Fin n)} (hsorted : buffers.Pairwise (· < ·))

include hsorted

theorem integerGraph_firstFit (offsets : Offsets n) {x : Fin n} (hx : x ∈ buffers) :
    FirstFit (integerGraph buffer buffers offsets)
      (colorBuffers buffers (integerGraph buffer buffers offsets)) x :=
  colorBuffers_firstFit hsorted (integerGraph_within buffers offsets) hx

theorem exists_earlier (offsets : Offsets n) {x : Fin n} (hx : x ∈ buffers)
    (hcolor : colorBuffers buffers (integerGraph buffer buffers offsets) x ≠ 0) :
    ∃ y ∈ (integerGraph buffer buffers offsets).neighbours x, y < x ∧
      offsets x < offsets y + (buffer y).size := by
  by_contra hnone
  refine hcolor ((integerGraph_firstFit hsorted offsets hx).mpr fun y hy hlt => ?_)
  exact absurd ⟨y, hy, hlt, below_of_edge (mem_neighbours.mp hy)⟩ hnone

theorem integerRound_passed (offsets : Offsets n) :
    Passed (colorBuffers buffers (integerGraph buffer buffers offsets)) buffers offsets
      (integerRound buffer buffers offsets) :=
  integerBump_fold buffers (hsorted.imp fun h => h.ne)
    (fun x hx hcolor => by
      obtain ⟨y, hy, -, hbelow⟩ := exists_earlier hsorted offsets hx hcolor
      exact ⟨y, hy, hbelow⟩)
    offsets (fun _ _ => rfl) fun _ => le_rfl

theorem integerRound_step (offsets : Offsets n) :
    Step (fun y => (buffer y).size) offsets (integerRound buffer buffers offsets) where
  grows := (integerRound_passed hsorted offsets).grows
  below x hx := by
    obtain ⟨hmem, hcolor⟩ := (integerRound_passed hsorted offsets).only hx
    obtain ⟨y, -, hlt, hbelow⟩ := exists_earlier hsorted offsets hmem hcolor
    exact ⟨y, hlt, hbelow⟩

/-- A round moves nothing exactly when no two buffers interfere: of two that
do, only one has the first colour. -/
theorem integerRound_fixed (offsets : Offsets n) :
    integerRound buffer buffers offsets = offsets ↔
      integerGraph buffer buffers offsets = [] := by
  have hpassed : Passed _ buffers offsets (integerRound buffer buffers offsets) :=
    integerRound_passed hsorted offsets
  constructor
  · intro hfixed
    have hzero : ∀ x ∈ buffers,
        colorBuffers buffers (integerGraph buffer buffers offsets) x = 0 := by
      intro x hx
      by_contra hcolor
      have hmoves := hpassed.moves hx hcolor
      rw [hfixed] at hmoves
      exact hmoves.ne rfl
    have hno : ∀ x y, y < x → (x, y) ∉ integerGraph buffer buffers offsets := by
      intro x y hlt hedge
      obtain ⟨hx, hy⟩ := (integerGraph_within buffers offsets).mem hedge
      have hfit : FirstFit (integerGraph buffer buffers offsets) _ x :=
        integerGraph_firstFit hsorted offsets hx
      exact hfit.mp (hzero x hx) y (mem_neighbours.mpr hedge) hlt (hzero y hy)
    refine eq_nil_iff_forall_not_mem.mpr fun edge hedge => ?_
    obtain ⟨x, y⟩ := edge
    obtain ⟨hx, hy, hne, hover⟩ := mem_integerGraph.mp hedge
    rcases lt_or_gt_of_ne hne with hlt | hgt
    · exact hno y x hlt (mem_integerGraph.mpr ⟨hy, hx, hne.symm, overlaps_comm offsets x y ▸ hover⟩)
    · exact hno x y hgt hedge
  · intro hnil
    funext y
    by_contra hmoved
    obtain ⟨hy, hcolor⟩ := hpassed.only hmoved
    obtain ⟨z, hz, -⟩ := exists_earlier hsorted offsets hy hcolor
    rw [hnil] at hz
    exact not_mem_nil (mem_neighbours.mp hz)

theorem exists_settled (offsets : Offsets n) :
    ∃ k, integerGraph buffer buffers ((integerRound buffer buffers)^[k] offsets) = [] := by
  have hstep : ∀ o, Step (fun y => (buffer y).size) o (integerRound buffer buffers o) :=
    integerRound_step hsorted
  obtain ⟨k, hk⟩ := exists_fixed hstep offsets
  exact ⟨k, (integerRound_fixed hsorted _).mp hk⟩

end Sorted

end Rounds

end TritonCpu.AllocationTermination
