import Mathlib.Data.Fin.VecNotation
import TritonCpu.AllocationRounds
import TritonCpu.AllocationSharing
import TritonCpu.AllocationStarts

/-!
# Termination of the placement

The 64-bit recolouring loop is the loop over integer addresses as long as its
addresses fit. Rounding an end up to an alignment can wrap around, and then
the loop need not end.
-/

set_option autoImplicit false

namespace TritonCpu.AllocationTermination
open Allocation AllocationSound AllocationSharing GrowingOffsets

/-! The 64-bit loop. -/

section Words

variable {n : ℕ} {buffer : Fin n → BufferT} {buffers : List (Fin n)}

/-- No end of a buffer, rounded up to an alignment, passes the address space. -/
def Addressable (buffer : Fin n → BufferT) (buffers : List (Fin n)) (offsets : Offsets n) : Prop :=
  ∀ x ∈ buffers, ∀ y ∈ buffers,
    offsets y + (buffer y).size + (buffer x).alignment ≤ sizeTBound

theorem Addressable.mono {offsets final : Offsets n} (h : Addressable buffer buffers final)
    (hle : ∀ y, offsets y ≤ final y) : Addressable buffer buffers offsets := by
  intro x hx y hy
  have hfinal := h x hx y hy
  have hgrow := hle y
  omega

theorem endOf_eq {offsets : Offsets n} (h : Addressable buffer buffers offsets) {x : Fin n}
    (hx : x ∈ buffers) : endOf buffer offsets x = offsets x + (buffer x).size := by
  have hbound := h x hx x hx
  have hpos : 0 < (buffer x).alignment := alignment_pos x
  exact Nat.mod_eq_of_lt (by omega)

theorem alignTo_eq {value align : ℕ} (hpos : 0 < align) (h : value + align ≤ sizeTBound) :
    alignTo value align = alignUp value align := by
  rw [alignTo, alignUp, toSizeT, Nat.mod_eq_of_lt (by omega)]

theorem foldl_max_congr {f g : Fin n → ℕ} {ys : List (Fin n)} (h : ∀ y ∈ ys, f y = g y) (m : ℕ) :
    ys.foldl (fun m y => max m (f y)) m = ys.foldl (fun m y => max m (g y)) m := by
  induction ys generalizing m with
  | nil => rfl
  | cons y ys ih =>
    rw [List.foldl_cons, List.foldl_cons, h y (by simp)]
    exact ih (fun z hz => h z (by simp [hz])) _

theorem foldl_max_le {f : Fin n → ℕ} {ys : List (Fin n)} {b : ℕ} (h : ∀ y ∈ ys, f y ≤ b)
    {m : ℕ} (hm : m ≤ b) : ys.foldl (fun m y => max m (f y)) m ≤ b := by
  induction ys generalizing m with
  | nil => exact hm
  | cons y ys ih =>
    exact ih (fun z hz => h z (by simp [hz])) (max_le hm (h y (by simp)))

theorem bump_offsets {interference : Graph n} (hwithin : Within buffers interference)
    (colors : Fin n → ℤ) {placed : Placed n} (h : Addressable buffer buffers placed.offsets)
    {x : Fin n} (hx : x ∈ buffers) : (bump buffer interference colors placed x).offsets =
      integerBump buffer interference colors placed.offsets x := by
  have hends : (interference.neighbours x).foldl
        (fun m y => max m (endOf buffer placed.offsets y)) 0 =
      (interference.neighbours x).foldl
        (fun m y => max m (placed.offsets y + (buffer y).size)) 0 :=
    foldl_max_congr (fun y hy => endOf_eq h (hwithin.mem (mem_neighbours.mp hy)).2) 0
  have hbound : (interference.neighbours x).foldl
      (fun m y => max m (placed.offsets y + (buffer y).size)) 0 ≤
        sizeTBound - (buffer x).alignment := by
    refine foldl_max_le (fun y hy => ?_) (Nat.zero_le _)
    have hsum := h x hx y (hwithin.mem (mem_neighbours.mp hy)).2
    omega
  have hself := h x hx x hx
  simp only [bump, integerBump, hends, setOffsetAligned]
  rw [alignTo_eq (alignment_pos x) (by omega)]

theorem bump_fold_offsets {interference : Graph n} (hwithin : Within buffers interference)
    {colors : Fin n → ℤ} {start : Offsets n} (xs : List (Fin n)) (hsub : ∀ x ∈ xs, x ∈ buffers)
    (hnodup : xs.Nodup)
    (hcolored : ∀ x ∈ xs, colors x ≠ 0 →
      ∃ y ∈ interference.neighbours x, start x < start y + (buffer y).size)
    (placed : Placed n) (hkept : ∀ x ∈ xs, placed.offsets x = start x)
    (hle : ∀ y, start y ≤ placed.offsets y)
    (h : Addressable buffer buffers
      (xs.foldl (integerBump buffer interference colors) placed.offsets)) :
    (xs.foldl (bump buffer interference colors) placed).offsets =
      xs.foldl (integerBump buffer interference colors) placed.offsets := by
  induction xs generalizing placed with
  | nil => rfl
  | cons x xs ih =>
    have hpassed := integerBump_fold (x :: xs) hnodup hcolored placed.offsets hkept hle
    have hone := integerBump_fold [x] (List.nodup_singleton x)
      (fun z hz => hcolored z (by simp_all)) placed.offsets (fun z hz => hkept z (by simp_all)) hle
    obtain ⟨hnot, hnodup⟩ := List.nodup_cons.mp hnodup
    have hbump := bump_offsets hwithin colors (h.mono hpassed.grows) (hsub x (by simp))
    rw [List.foldl_cons, List.foldl_cons, ← hbump]
    rw [List.foldl_cons, ← hbump] at h
    refine ih (fun z hz => hsub z (by simp [hz])) hnodup (fun z hz => hcolored z (by simp [hz]))
      _ (fun z hz => ?_) (fun y => ?_) h
    · have hzx : z ≠ x := fun he => hnot (he ▸ hz)
      rw [bump_of_ne _ _ _ hzx]
      exact hkept z (by simp [hz])
    · rw [hbump]
      exact (hle y).trans (hone.grows y)

theorem interferes_eq {offsets : Offsets n} (h : Addressable buffer buffers offsets) {x y : Fin n}
    (hx : x ∈ buffers) (hy : y ∈ buffers) :
    interferes buffer offsets x y = .ok (overlaps buffer offsets x y) := by
  rw [interferes, endOf_eq h hx, endOf_eq h hy, makeInterval_of_le (Nat.le_add_right _ _),
    makeInterval_of_le (Nat.le_add_right _ _)]
  exact congrArg Except.ok (Bool.and_or_distrib_right ..).symm

theorem interferenceEdges_eq {offsets : Offsets n} (h : Addressable buffer buffers offsets)
    {pairs : List (Fin n × Fin n)} (hpairs : ∀ p ∈ pairs, p.1 ∈ buffers ∧ p.2 ∈ buffers) :
    interferenceEdges buffer offsets pairs =
      .ok (pairs.filter fun pair => overlaps buffer offsets pair.1 pair.2) := by
  induction pairs with
  | nil => rfl
  | cons p rest ih =>
    obtain ⟨x, y⟩ := p
    obtain ⟨hx, hy⟩ := hpairs (x, y) (by simp)
    rw [interferenceEdges, interferes_eq h hx hy, ih fun p hp => hpairs p (by simp [hp])]
    rw [List.filter_cons]
    dsimp only
    cases overlaps buffer offsets x y <;> rfl

theorem buildInterferenceGraph_eq {offsets : Offsets n}
    (h : Addressable buffer buffers offsets) :
    buildInterferenceGraph buffer buffers offsets = .ok (integerGraph buffer buffers offsets) := by
  refine interferenceEdges_eq h fun p hp => ?_
  exact List.pair_mem_product.mp (List.mem_filter.mp hp).1

variable (hsorted : buffers.Pairwise (· < ·))

include hsorted

theorem allocate_offsets (offsets : Offsets n)
    (h : Addressable buffer buffers (integerRound buffer buffers offsets)) :
    (allocate buffer buffers (integerGraph buffer buffers offsets) offsets).offsets =
      integerRound buffer buffers offsets :=
  bump_fold_offsets (integerGraph_within buffers offsets) buffers (fun _ hx => hx)
    (hsorted.imp fun h => h.ne)
    (fun x hx hcolor => by
      obtain ⟨y, hy, -, hbelow⟩ := exists_earlier hsorted offsets hx hcolor
      exact ⟨y, hy, hbelow⟩)
    { offsets, sharedMemorySize := 0 } (fun _ _ => rfl) (fun _ => le_rfl) h

theorem allocateLoop_turn (fuel : ℕ) (offsets : Offsets n)
    (h : Addressable buffer buffers (integerRound buffer buffers offsets)) :
    allocateLoop buffer buffers (fuel + 1) (integerGraph buffer buffers offsets) offsets =
      if integerGraph buffer buffers (integerRound buffer buffers offsets) = []
      then .ok (allocate buffer buffers (integerGraph buffer buffers offsets) offsets)
      else allocateLoop buffer buffers fuel
        (integerGraph buffer buffers (integerRound buffer buffers offsets))
        (integerRound buffer buffers offsets) := by
  rw [allocateLoop, allocate_offsets hsorted offsets h, buildInterferenceGraph_eq h]
  rfl

theorem allocateLoop_eq (k : ℕ) (offsets : Offsets n)
    (hgraph : integerGraph buffer buffers ((integerRound buffer buffers)^[k + 1] offsets) = [])
    (h : Addressable buffer buffers ((integerRound buffer buffers)^[k + 1] offsets)) :
    ∃ placed, allocateLoop buffer buffers (k + 1) (integerGraph buffer buffers offsets) offsets =
        .ok placed ∧
      placed.offsets = (integerRound buffer buffers)^[k + 1] offsets := by
  have hstep : ∀ o, Step (fun y => (buffer y).size) o (integerRound buffer buffers o) :=
    integerRound_step hsorted
  induction k generalizing offsets with
  | zero =>
    rw [Nat.zero_add, Function.iterate_one] at hgraph h
    rw [allocateLoop_turn hsorted 0 offsets h, if_pos hgraph]
    exact ⟨_, rfl, allocate_offsets hsorted offsets h⟩
  | succ k ih =>
    have hfirst : Addressable buffer buffers (integerRound buffer buffers offsets) :=
      h.mono (iterate_grows hstep (integerRound buffer buffers offsets) (k + 1))
    rw [allocateLoop_turn hsorted (k + 1) offsets hfirst]
    split_ifs with hnil
    · refine ⟨_, rfl, ?_⟩
      have hfixed := (integerRound_fixed hsorted _).mpr hnil
      rw [allocate_offsets hsorted offsets hfirst, Function.iterate_succ_apply,
        Function.iterate_fixed hfixed]
    · exact ih _ hgraph h

end Words

/-! The members of the sharing groups. -/

section Sharing

variable {n : ℕ} {buffer : Fin n → BufferT}

theorem sharingIdToRep_isSome (hsize : ∀ x, 0 < (buffer x).size) {group : ℤ} {x : Fin n}
    (hx : x ∈ groupMembers buffer group) : (sharingIdToRep buffer group).isSome = true := by
  suffices hgen : ∀ (xs : List (Fin n)) (best : ℕ × Option (Fin n)),
      (best.2.isSome = true ∨ best.1 = 0 ∧ x ∈ xs) →
      (xs.foldl (fun best x =>
        if (buffer x).size > best.1 then ((buffer x).size, some x) else best) best).2.isSome =
          true from
    hgen _ _ (.inr ⟨rfl, hx⟩)
  intro xs
  induction xs with
  | nil =>
    rintro best (h | ⟨-, h⟩)
    · exact h
    · cases h
  | cons y ys ih =>
    intro best h
    rw [List.foldl_cons]
    apply ih
    split_ifs with hlarger
    · exact .inl rfl
    · rcases h with h | ⟨hzero, -⟩
      · exact .inl h
      · exact absurd (hzero ▸ hsize y) hlarger

theorem setSharing_ok (hsize : ∀ x, 0 < (buffer x).size) (offsets : Offsets n) {x : Fin n}
    (hx : 0 ≤ (buffer x).sharingGroup) :
    ∃ offsets', setSharing buffer offsets x = .ok offsets' := by
  obtain ⟨rep, hrep⟩ := Option.isSome_iff_exists.mp
    (sharingIdToRep_isSome hsize (mem_groupMembers.mpr ⟨hx, rfl⟩))
  rw [setSharing, hrep]
  exact ⟨_, rfl⟩

theorem setSharing_fold_ok (hsize : ∀ x, 0 < (buffer x).size) (xs : List (Fin n))
    (hxs : ∀ x ∈ xs, 0 ≤ (buffer x).sharingGroup) (offsets : Offsets n) :
    ∃ offsets', xs.foldlM (setSharing buffer) offsets = .ok offsets' := by
  induction xs generalizing offsets with
  | nil => exact ⟨offsets, rfl⟩
  | cons x xs ih =>
    obtain ⟨next, hnext⟩ := setSharing_ok hsize offsets (hxs x (by simp))
    rw [List.foldlM_cons, hnext]
    exact ih (fun y hy => hxs y (by simp [hy])) next

theorem grouped_nonneg {x : Fin n} (hx : x ∈ (groupIds buffer).flatMap (groupMembers buffer)) :
    0 ≤ (buffer x).sharingGroup := by
  obtain ⟨group, -, hmem⟩ := List.mem_flatMap.mp hx
  obtain ⟨hgroup, hx⟩ := mem_groupMembers.mp hmem
  rwa [hx]

theorem placedBuffers_sorted : (placedBuffers buffer).Pairwise (· < ·) :=
  (List.pairwise_lt_finRange n).filter _

theorem placed_not_member {x : Fin n} (hx : x ∈ placedBuffers buffer) (rep : Fin n) :
    ¬ IsMember buffer x rep := by
  rintro ⟨hrep, hne⟩
  have hplaced := (List.mem_filter.mp hx).2
  rw [decide_eq_true_eq, hrep] at hplaced
  rcases hplaced with hneg | hself
  · have hnonneg := sharingIdToRep_mem hrep
    omega
  · exact hne (Option.some.inj hself).symm

/-- The packing always ends and places every buffer. The recolouring loop over
integer addresses always ends without interference. When its result fits in
the address space, the program ends with the same offsets. -/
theorem computeOffsets_terminates (buffer : Fin n → BufferT)
    (hlive : ∀ x, (buffer x).live.stop < sizeTBound) (hsize : ∀ x, 0 < (buffer x).size)
    (offsets : Offsets n) :
    ∃ starts, calculateStarts buffer (placedBuffers buffer) offsets = .ok starts ∧
      ∃ k settled, settled = (integerRound buffer (placedBuffers buffer))^[k + 1] starts ∧
        integerGraph buffer (placedBuffers buffer) settled = [] ∧
        (Addressable buffer (placedBuffers buffer) settled →
          ∃ final, computeOffsets buffer (k + 1) offsets = .ok final ∧
            ∀ x ∈ placedBuffers buffer, final.offsets x = settled x) := by
  obtain ⟨starts, hstarts⟩ := calculateStarts_ok hlive (placedBuffers buffer) offsets
  obtain ⟨k, hk⟩ : ∃ k, integerGraph buffer (placedBuffers buffer)
      ((integerRound buffer (placedBuffers buffer))^[k] starts) = [] :=
    exists_settled placedBuffers_sorted starts
  have hfixed := (integerRound_fixed placedBuffers_sorted _).mpr hk
  have hlast : integerGraph buffer (placedBuffers buffer)
      ((integerRound buffer (placedBuffers buffer))^[k + 1] starts) = [] := by
    rwa [Function.iterate_succ_apply', hfixed]
  refine ⟨starts, hstarts, k, _, rfl, hlast, fun haddress => ?_⟩
  have hstep : ∀ o, Step (fun y => (buffer y).size) o
      (integerRound buffer (placedBuffers buffer) o) := integerRound_step placedBuffers_sorted
  have hfirst : Addressable buffer (placedBuffers buffer) starts :=
    haddress.mono (iterate_grows hstep starts (k + 1))
  obtain ⟨placed, hplaced, hoffsets⟩ :=
    allocateLoop_eq placedBuffers_sorted k starts hlast haddress
  obtain ⟨shared, hshared⟩ := setSharing_fold_ok hsize _ (fun x hx => grouped_nonneg hx)
    placed.offsets
  refine ⟨{ placed with offsets := shared }, ?_, fun x hx => ?_⟩
  · rw [computeOffsets, hstarts]
    show (buildInterferenceGraph buffer (placedBuffers buffer) starts >>= _) = _
    rw [buildInterferenceGraph_eq hfirst]
    show (allocateLoop buffer (placedBuffers buffer) (k + 1) _ starts >>= _) = _
    rw [hplaced]
    show (List.foldlM (setSharing buffer) placed.offsets _ >>= _) = _
    rw [hshared]
    rfl
  · have hmoved := setSharing_fold _ [] ⟨by simp, fun _ _ => rfl, by simp⟩ hshared
    rw [← hoffsets]
    exact hmoved.other x (placed_not_member hx)

theorem eight_lt_bound : 8 < sizeTBound := by decide

theorem four_lt_bound : 4 < sizeTBound := by decide

theorem four_isPow : ∃ k < 64, 4 = 2 ^ k := ⟨2, by decide⟩

/-- Two buffers of different regions, live one after the other: the packing
puts both at offset zero. -/
def regionPair : Fin 2 → BufferT
  | 0 => ⟨8, 4, [1], -1, ⟨0, 1, by decide⟩, eight_lt_bound, four_isPow, by decide⟩
  | 1 => ⟨4, 4, [2], -1, ⟨1, 2, by decide⟩, four_lt_bound, four_isPow, by decide⟩

theorem ok_zero {n : ℕ} {ε : Type} {x : Except ε (Fin n → ℕ)}
    (h : ∃ starts, x = .ok starts ∧ ∀ i, starts i = 0) : x = .ok fun _ => 0 := by
  obtain ⟨starts, hstarts, hzero⟩ := h
  rw [hstarts, funext hzero]

theorem regionPair_starts :
    calculateStarts regionPair (placedBuffers regionPair) (fun _ => 0) = .ok fun _ => 0 :=
  ok_zero ⟨_, rfl, by decide⟩

theorem regionPair_settled (k : ℕ) :
    (integerRound regionPair (placedBuffers regionPair))^[k + 1] (fun _ => 0) = ![0, 8] := by
  have hround : integerRound regionPair (placedBuffers regionPair) (fun _ => 0) = ![0, 8] :=
    funext (by decide)
  have hfixed : integerRound regionPair (placedBuffers regionPair) ![0, 8] = ![0, 8] :=
    funext (by decide)
  rw [Function.iterate_succ_apply, hround, Function.iterate_fixed hfixed]

theorem computeOffsets_terminates_regionPair :
    ∃ fuel final, computeOffsets regionPair fuel (fun _ => 0) = .ok final ∧
      final.offsets 0 = 0 ∧ final.offsets 1 = 8 := by
  obtain ⟨starts, hstarts, k, settled, hsettled, -, hfits⟩ :=
    computeOffsets_terminates regionPair (by decide) (by decide) fun _ => 0
  rw [regionPair_starts] at hstarts
  cases hstarts
  rw [regionPair_settled] at hsettled
  subst hsettled
  obtain ⟨final, hfinal, hoffsets⟩ := hfits (by unfold Addressable; decide)
  exact ⟨k + 1, final, hfinal, hoffsets 0 (by decide), hoffsets 1 (by decide)⟩

/-- The first buffer ends one byte before the end of the address space, and
the second is aligned to more than that. -/
def wrapPair : Fin 2 → BufferT
  | 0 => ⟨2 ^ 64 - 1, 1, [], -1, ⟨0, 1, by decide⟩, by decide, ⟨0, by decide⟩, by decide⟩
  | 1 => ⟨1, 16, [], -1, ⟨0, 1, by decide⟩, by decide, ⟨4, by decide⟩, by decide⟩

theorem wrapPair_starts :
    calculateStarts wrapPair (placedBuffers wrapPair) (fun _ => 0) = .ok fun _ => 0 :=
  ok_zero ⟨_, rfl, by decide⟩

theorem wrapPair_graph :
    buildInterferenceGraph wrapPair (placedBuffers wrapPair) (fun _ => 0) =
      .ok [(0, 1), (1, 0)] := by decide

theorem wrapPair_allocate :
    (allocate wrapPair (placedBuffers wrapPair) [(0, 1), (1, 0)] fun _ => 0).offsets =
      fun _ => 0 := funext (by decide)

theorem wrapPair_unfinished (fuel : ℕ) :
    allocateLoop wrapPair (placedBuffers wrapPair) fuel [(0, 1), (1, 0)] (fun _ => 0) =
      .error .unfinished := by
  induction fuel with
  | zero => rfl
  | succ fuel ih =>
    rw [allocateLoop, wrapPair_allocate, wrapPair_graph]
    exact ih

/-- The 64-bit loop can go on for ever. -/
theorem computeOffsets_wraps :
    (∀ x, (wrapPair x).live.stop < sizeTBound) ∧ (∀ x, 0 < (wrapPair x).size) ∧
      ¬ ∃ fuel final, computeOffsets wrapPair fuel (fun _ => 0) = .ok final := by
  refine ⟨by decide, by decide, ?_⟩
  rintro ⟨fuel, final, h⟩
  obtain ⟨starts, hstarts, h⟩ := except_bind_ok h
  rw [wrapPair_starts] at hstarts
  cases hstarts
  obtain ⟨interference, hgraph, h⟩ := except_bind_ok h
  rw [wrapPair_graph] at hgraph
  cases hgraph
  obtain ⟨placed, hplaced, -⟩ := except_bind_ok h
  rw [wrapPair_unfinished] at hplaced
  cases hplaced

end Sharing

end TritonCpu.AllocationTermination
