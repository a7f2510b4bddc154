import TritonCpu.AllocationSound

/-!
# Termination of the packing

`calculateStarts` drops a triple when no buffer fits it. It never runs out of
triples: every buffer that is still to be placed meets one of them.
-/

set_option autoImplicit false

namespace TritonCpu.AllocationTermination
open Allocation AllocationSound

/-! The triples. -/

theorem mem_insert {key : ℕ} {range : Interval} {tripleMap : TripleMap} {entry : ℕ × Interval} :
    entry ∈ TripleMap.insert key range tripleMap ↔ entry = (key, range) ∨ entry ∈ tripleMap := by
  induction tripleMap with
  | nil => simp [TripleMap.insert]
  | cons first rest ih =>
    unfold TripleMap.insert
    split_ifs
    · exact List.mem_cons
    · rw [List.mem_cons, ih, List.mem_cons]
      tauto

theorem makeInterval_of_le {start stop : ℕ} (h : start ≤ stop) :
    makeInterval start stop = .ok ⟨start, stop, h⟩ := dif_pos h

def Covered (tripleMap : TripleMap) (live : Interval) : Prop :=
  ∃ entry ∈ tripleMap, live.start < entry.2.stop ∧ entry.2.start < live.stop

theorem Covered.mono {tripleMap next : TripleMap} {live : Interval}
    (hsub : ∀ entry ∈ tripleMap, entry ∈ next) (h : Covered tripleMap live) :
    Covered next live := by
  obtain ⟨entry, hentry, hmeets⟩ := h
  exact ⟨entry, hsub entry hentry, hmeets⟩

theorem insertIf_ok {c : Prop} [Decidable c] {start stop : ℕ} (key : ℕ) (tripleMap : TripleMap)
    (hle : c → start ≤ stop) :
    ∃ next, insertIf c key start stop tripleMap = .ok next ∧
      (∀ entry ∈ tripleMap, entry ∈ next) ∧
      (c → ∀ live : Interval, live.start < stop → start < live.stop → Covered next live) := by
  unfold insertIf
  split_ifs with hc
  · rw [makeInterval_of_le (hle hc)]
    refine ⟨_, rfl, fun entry h => mem_insert.mpr (.inr h), fun _ live hstart hstop => ?_⟩
    exact ⟨_, mem_insert.mpr (.inl rfl), hstart, hstop⟩
  · exact ⟨tripleMap, rfl, fun _ h => h, fun h => absurd h hc⟩

theorem splitTriple_covers (offset top : ℕ) {range xRange : Interval} (tripleMap : TripleMap)
    (hx : xRange.start < xRange.stop) (hmeets : xRange.intersects range = true) :
    ∃ next, splitTriple offset range xRange top tripleMap = .ok next ∧
      ∀ live : Interval, live.start < live.stop → Covered ((offset, range) :: tripleMap) live →
        Covered next live := by
  rw [Interval.intersects_iff] at hmeets
  have hrange := range.start_le_stop
  have hplaced : max range.start xRange.start ≤ min range.stop xRange.stop := by omega
  obtain ⟨mid, hmid, hmono, hlow⟩ := insertIf_ok (c := range.start < xRange.start) offset
    (TripleMap.insert top ⟨_, _, hplaced⟩ tripleMap)
    (show _ → range.start ≤ xRange.stop by omega)
  obtain ⟨next, hnext, hmono', hhigh⟩ := insertIf_ok (c := xRange.stop < range.stop) offset mid
    (show _ → xRange.start ≤ range.stop by omega)
  refine ⟨next, ?_, fun live hlive hcov => ?_⟩
  · rw [splitTriple, makeInterval_of_le hplaced]
    show (insertIf _ _ _ _ _ >>= _) = _
    rw [hmid]
    exact hnext
  have hkeep (entry) (h : entry ∈ TripleMap.insert top ⟨_, _, hplaced⟩ tripleMap) :
      entry ∈ next := hmono' entry (hmono entry h)
  obtain ⟨entry, hentry, hstart, hstop⟩ := hcov
  rcases List.mem_cons.mp hentry with rfl | hentry
  · dsimp only at hstart hstop
    by_cases hl : range.start < xRange.start ∧ live.start < xRange.stop
    · exact (hlow hl.1 live hl.2 hstop).mono hmono'
    · by_cases hh : xRange.stop < range.stop
      · exact hhigh hh live hstart (by omega)
      · refine ⟨_, hkeep _ (mem_insert.mpr (.inl rfl)), ?_, ?_⟩
        · show live.start < min range.stop xRange.stop
          omega
        · show max range.start xRange.start < live.stop
          omega
  · exact ⟨entry, hkeep entry (mem_insert.mpr (.inr hentry)), hstart, hstop⟩

section Starts

variable {n : ℕ} {buffer : Fin n → BufferT}

theorem covered_of_find {range : Interval} {offset : ℕ} {xs : List (Fin n)} {tripleMap : TripleMap}
    (hnone : xs.find? (fitsTriple buffer range tripleMap) = none) {x : Fin n} (hx : x ∈ xs)
    (hcov : Covered ((offset, range) :: tripleMap) (buffer x).live) :
    Covered tripleMap (buffer x).live := by
  have hunfit : fitsTriple buffer range tripleMap x = false :=
    Bool.eq_false_iff.mpr (List.find?_eq_none.mp hnone x hx)
  obtain ⟨entry, hentry, hstart, hstop⟩ := hcov
  rcases List.mem_cons.mp hentry with rfl | hentry
  · have hmeets : (buffer x).live.intersects range = true :=
      (Interval.intersects_iff _ _).mpr ⟨hstart, hstop⟩
    rw [fitsTriple, hmeets, Bool.true_and, List.all_eq_false] at hunfit
    obtain ⟨other, hother, hmeets⟩ := hunfit
    have hmeets : other.2.intersects (buffer x).live = true := by simpa using hmeets
    rw [Interval.intersects_iff] at hmeets
    exact ⟨other, hother, hmeets.2, hmeets.1⟩
  · exact ⟨entry, hentry, hstart, hstop⟩

theorem calculateStartsLoop_unfinished (fuel : ℕ) (xs : List (Fin n)) (tripleMap : TripleMap)
    (offsets : Offsets n) (hcov : ∀ x ∈ xs, Covered tripleMap (buffer x).live) {e : Halt}
    (h : calculateStartsLoop buffer fuel xs tripleMap offsets = .error e) : e = .unfinished := by
  induction fuel generalizing xs tripleMap offsets with
  | zero =>
    cases xs with
    | nil => cases h
    | cons y ys =>
      cases h
      rfl
  | succ fuel ih =>
    cases xs with
    | nil => cases h
    | cons y ys =>
      cases tripleMap with
      | nil =>
        obtain ⟨entry, hentry, -⟩ := hcov y (by simp)
        cases hentry
      | cons triple tripleMap =>
        obtain ⟨offset, range⟩ := triple
        unfold calculateStartsLoop at h
        split at h
        · next hnone => exact ih _ _ _ (fun x hx => covered_of_find hnone hx (hcov x hx)) h
        · next z hz =>
          have hfits := List.find?_some hz
          rw [fitsTriple, Bool.and_eq_true] at hfits
          obtain ⟨next, hnext, hcovers⟩ := splitTriple_covers offset
            (endOf buffer (setOffsetAligned buffer offsets z offset) z) tripleMap
            (buffer z).live_nonempty hfits.1
          dsimp only at h
          rw [hnext] at h
          refine ih _ _ _ (fun x hx => ?_) h
          exact hcovers _ (buffer x).live_nonempty (hcov x (List.mem_of_mem_erase hx))

theorem calculateStarts_ok (hlive : ∀ x, (buffer x).live.stop < sizeTBound)
    (buffers : List (Fin n)) (offsets : Offsets n) :
    ∃ starts, calculateStarts buffer buffers offsets = .ok starts := by
  cases h : calculateStarts buffer buffers offsets with
  | ok starts => exact ⟨starts, rfl⟩
  | error e =>
    have hcov : ∀ x ∈ buffers, Covered [(0, fullRange)] (buffer x).live := by
      intro x hx
      have hnonempty := (buffer x).live_nonempty
      have hstop := hlive x
      refine ⟨_, List.mem_singleton.mpr rfl, ?_, ?_⟩
      · show (buffer x).live.start < sizeTBound - 1
        omega
      · show 0 < (buffer x).live.stop
        omega
    have hunfinished := calculateStartsLoop_unfinished _ _ _ _ hcov h
    rw [hunfinished] at h
    exact absurd h (calculateStarts_finishes _ _)

end Starts

end TritonCpu.AllocationTermination
