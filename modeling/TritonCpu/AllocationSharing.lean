import Mathlib.Data.List.Dedup
import TritonCpu.AllocationSound

/-!
# Sharing groups

`computeOffsets` places one representative of each sharing group by its own
liveness and regions and gives the other members its offset, each realigned to
its own alignment. The placement is correct when every member fits into the
bytes of its representative and interferes only where the representative does.
-/

set_option autoImplicit false

namespace TritonCpu.AllocationSharing
open Allocation AllocationSound

variable {n : ℕ} (buffer : Fin n → BufferT)

/-- The buffer whose placement decides where `x` goes. -/
def representative (x : Fin n) : Fin n :=
  if (buffer x).sharingGroup < 0 then x
  else (sharingIdToRep buffer (buffer x).sharingGroup).getD x

def SameGroup (x y : Fin n) : Prop :=
  0 ≤ (buffer x).sharingGroup ∧ (buffer x).sharingGroup = (buffer y).sharingGroup

/-- Every member fits into its representative at any address, and interferes
with a buffer outside its group only if the representatives interfere. -/
structure MembersCovered : Prop where
  size : ∀ x, (buffer x).size +
    ((buffer x).alignment - (buffer (representative buffer x)).alignment) ≤
      (buffer (representative buffer x)).size
  interfering : ∀ x y, x ≠ y → ¬ SameGroup buffer x y → Interfering (buffer x) (buffer y) →
    Interfering (buffer (representative buffer x)) (buffer (representative buffer y))

def bytes (placed : Placed n) (x : Fin n) : Set ℕ :=
  Set.Ico (placed.offsets x) (placed.offsets x + (buffer x).size)

/-- What the placement promises about every buffer. -/
structure Correct (placed : Placed n) : Prop where
  disjoint : ∀ x y, x ≠ y → ¬ SameGroup buffer x y → Interfering (buffer x) (buffer y) →
    Disjoint (bytes buffer placed x) (bytes buffer placed y)
  aligned : ∀ x, (buffer x).alignment ∣ placed.offsets x
  inside : ∀ x, placed.offsets x + (buffer x).size ≤ placed.sharedMemorySize

variable {buffer}

theorem mem_groupMembers {group : ℤ} {x : Fin n} :
    x ∈ groupMembers buffer group ↔ 0 ≤ group ∧ (buffer x).sharingGroup = group := by
  simp [groupMembers]

theorem sharingIdToRep_mem {group : ℤ} {rep : Fin n}
    (h : sharingIdToRep buffer group = some rep) :
    0 ≤ group ∧ (buffer rep).sharingGroup = group := by
  rw [← mem_groupMembers]
  unfold sharingIdToRep at h
  suffices hgen : ∀ (xs : List (Fin n)) (best : ℕ × Option (Fin n)),
      (∀ r, best.2 = some r → r ∈ groupMembers buffer group) →
      (∀ x ∈ xs, x ∈ groupMembers buffer group) →
      ∀ r, (xs.foldl (fun best x =>
        if (buffer x).size > best.1 then ((buffer x).size, some x) else best) best).2 = some r →
          r ∈ groupMembers buffer group from
    hgen _ _ (by simp) (fun x hx => hx) rep h
  intro xs
  induction xs with
  | nil => exact fun best hb _ => hb
  | cons x xs ih =>
    intro best hb hxs
    apply ih
    · dsimp only
      split_ifs
      · intro r hr
        cases hr
        exact hxs x (by simp)
      · exact hb
    · exact fun y hy => hxs y (by simp [hy])

def IsMember (buffer : Fin n → BufferT) (x rep : Fin n) : Prop :=
  sharingIdToRep buffer (buffer x).sharingGroup = some rep ∧ x ≠ rep

theorem rep_not_member {x rep other : Fin n} (h : IsMember buffer x rep) :
    ¬ IsMember buffer rep other := by
  rintro ⟨hrep, hne⟩
  obtain ⟨-, hgroup⟩ := sharingIdToRep_mem h.1
  rw [hgroup, h.1] at hrep
  cases hrep
  exact hne rfl

/-- The offsets after some members were moved to their representatives. -/
structure Moved (buffer : Fin n → BufferT) (offsets : Offsets n) (done : List (Fin n))
    (offsets' : Offsets n) : Prop where
  member : ∀ x ∈ done, ∀ rep, IsMember buffer x rep →
    offsets' x = alignTo (offsets rep) (buffer x).alignment
  other : ∀ x, (∀ rep, ¬ IsMember buffer x rep) → offsets' x = offsets x
  found : ∀ x ∈ done, ∃ rep, sharingIdToRep buffer (buffer x).sharingGroup = some rep

theorem setSharing_moved {offsets offsets₁ offsets₂ : Offsets n} {done : List (Fin n)}
    {x : Fin n} (hm : Moved buffer offsets done offsets₁)
    (h : setSharing buffer offsets₁ x = .ok offsets₂) :
    Moved buffer offsets (done ++ [x]) offsets₂ := by
  unfold setSharing at h
  split at h
  · cases h
  · next rep hrep =>
    cases h
    have hfound : ∀ y ∈ done ++ [x],
        ∃ rep, sharingIdToRep buffer (buffer y).sharingGroup = some rep := by
      intro y hy
      rcases List.mem_append.mp hy with hy | hy
      · exact hm.found y hy
      · rw [List.mem_singleton.mp hy]
        exact ⟨rep, hrep⟩
    by_cases hx : x = rep
    · rw [if_neg (not_not.mpr hx)]
      refine ⟨fun y hy r hr => ?_, hm.other, hfound⟩
      rcases List.mem_append.mp hy with hy | hy
      · exact hm.member y hy r hr
      · rw [List.mem_singleton.mp hy] at hr
        have hsame : rep = r := Option.some.inj (hrep.symm.trans hr.1)
        exact absurd (hx.trans hsame) hr.2
    · rw [if_pos hx]
      have hmember : IsMember buffer x rep := ⟨hrep, hx⟩
      refine ⟨fun y hy r hr => ?_, fun y hy => ?_, hfound⟩
      · by_cases hyx : y = x
        · subst hyx
          have hsame : rep = r := Option.some.inj (hrep.symm.trans hr.1)
          rw [setOffsetAligned, Function.update_self, ← hsame,
            hm.other rep fun other => rep_not_member hmember]
        · rw [setOffsetAligned_of_ne _ _ hyx]
          exact hm.member y (by simpa [hyx] using hy) r hr
      · have hyx : y ≠ x := by
          rintro rfl
          exact hy rep hmember
        rw [setOffsetAligned_of_ne _ _ hyx]
        exact hm.other y hy

theorem setSharing_fold {offsets offsets₁ offsets₂ : Offsets n} (xs done : List (Fin n))
    (hm : Moved buffer offsets done offsets₁)
    (h : xs.foldlM (setSharing buffer) offsets₁ = .ok offsets₂) :
    Moved buffer offsets (done ++ xs) offsets₂ := by
  induction xs generalizing done offsets₁ with
  | nil =>
    cases h
    simpa using hm
  | cons x xs ih =>
    rw [List.foldlM_cons] at h
    obtain ⟨mid, hmid, h⟩ := except_bind_ok h
    simpa using ih (done ++ [x]) (setSharing_moved hm hmid) h

theorem mem_grouped {x : Fin n} (h : 0 ≤ (buffer x).sharingGroup) :
    x ∈ (groupIds buffer).flatMap (groupMembers buffer) := by
  apply List.mem_flatMap.mpr
  refine ⟨(buffer x).sharingGroup, ?_, mem_groupMembers.mpr ⟨h, rfl⟩⟩
  simpa [groupIds] using h

/-- What a run of `computeOffsets` leaves: the placed buffers are settled, and
every other buffer sits on its representative. -/
structure Ran (buffer : Fin n → BufferT) (placed final : Placed n) : Prop where
  settled : Settled buffer (placedBuffers buffer) placed
  single : ∀ x, placedBuffers buffer = [x] → placed.offsets x = 0
  moved : Moved buffer placed.offsets ((groupIds buffer).flatMap (groupMembers buffer))
    final.offsets
  size : final.sharedMemorySize = placed.sharedMemorySize

theorem computeOffsets_ran {fuel : ℕ} {offsets : Offsets n} {final : Placed n}
    (h : computeOffsets buffer fuel offsets = .ok final) :
    ∃ placed, Ran buffer placed final := by
  obtain ⟨starts, hstarts, h⟩ := except_bind_ok h
  obtain ⟨interference, hgraph, h⟩ := except_bind_ok h
  obtain ⟨placed, hplaced, h⟩ := except_bind_ok h
  obtain ⟨offsets', hshare, h⟩ := except_bind_ok h
  cases h
  refine ⟨placed, ?_, fun x hx => ?_, ?_, rfl⟩
  · exact allocateLoop_settled _ _ _ _ (calculateStarts_fits hstarts) hplaced
  · rw [hx] at hstarts hgraph hplaced
    have hnil : interference = [] := by
      have hpairs : (([x] : List (Fin n)).product [x]).filter (fun pair => pair.1 ≠ pair.2) = [] := by
        simp [List.product]
      rw [buildInterferenceGraph, hpairs] at hgraph
      cases hgraph
      rfl
    subst hnil
    exact (allocateLoop_single hplaced).trans (calculateStarts_single hstarts)
  · simpa using setSharing_fold _ [] ⟨by simp, fun _ _ => rfl, by simp⟩ hshare

section Slots

variable {placed final : Placed n}

theorem representative_placed (h : Ran buffer placed final) (x : Fin n) :
    representative buffer x ∈ placedBuffers buffer := by
  unfold representative placedBuffers
  split_ifs with hneg
  · simp [hneg]
  · obtain ⟨rep, hrep⟩ := h.moved.found x (mem_grouped (not_lt.mp hneg))
    rw [hrep, Option.getD_some]
    obtain ⟨-, hgroup⟩ := sharingIdToRep_mem hrep
    simp [hgroup, hrep]

theorem offset_eq (h : Ran buffer placed final) (x : Fin n) :
    (x = representative buffer x ∧ final.offsets x = placed.offsets x) ∨
      final.offsets x =
        alignTo (placed.offsets (representative buffer x)) (buffer x).alignment := by
  unfold representative
  split_ifs with hneg
  · refine .inl ⟨rfl, h.moved.other x fun rep hm => ?_⟩
    have hnonneg := (sharingIdToRep_mem hm.1).1
    omega
  · have hmem := mem_grouped (not_lt.mp hneg)
    obtain ⟨rep, hrep⟩ := h.moved.found x hmem
    rw [hrep, Option.getD_some]
    by_cases hx : x = rep
    · refine .inl ⟨hx, h.moved.other x fun r hm => ?_⟩
      have hsame : rep = r := Option.some.inj (hrep.symm.trans hm.1)
      exact hm.2 (hx.trans hsame)
    · exact .inr (h.moved.member x hmem rep ⟨hrep, hx⟩)

theorem placedBuffers_nodup : (placedBuffers buffer).Nodup :=
  (List.nodup_finRange n).filter _

theorem slot (h : Ran buffer placed final) (hcov : MembersCovered buffer) (x : Fin n) :
    (buffer x).alignment ∣ final.offsets x ∧
      placed.offsets (representative buffer x) ≤ final.offsets x ∧
      final.offsets x + (buffer x).size ≤
        endOf buffer placed.offsets (representative buffer x) := by
  have hmem := representative_placed h x
  have hfit := h.settled.fits _ hmem
  have hend := settled_no_wrap h.settled (h.single _) placedBuffers_nodup hmem
  have hlt : endOf buffer placed.offsets (representative buffer x) < sizeTBound := toSizeT_lt _
  have hsize := hcov.size x
  rcases offset_eq h x with ⟨hx, heq⟩ | heq
  · rw [hend, heq]
    rw [← hx] at hfit ⊢
    exact ⟨hfit.1, le_refl _, le_refl _⟩
  · obtain ⟨k, hk, hkeq⟩ := (buffer (representative buffer x)).alignment_pow
    obtain ⟨l, hl, hleq⟩ := (buffer x).alignment_pow
    have hdvd := hfit.1
    rw [hkeq] at hdvd hsize
    rw [hleq] at heq hsize ⊢
    have hbetween := alignTo_between hk hl hdvd (by omega)
    rw [heq]
    refine ⟨dvd_alignTo _ _, hbetween.1, ?_⟩
    omega

theorem representative_ne {x y : Fin n} (h : Ran buffer placed final) (hxy : x ≠ y)
    (hgroup : ¬ SameGroup buffer x y) : representative buffer x ≠ representative buffer y := by
  have hrep : ∀ z, (buffer z).sharingGroup < 0 ∧ representative buffer z = z ∨
      0 ≤ (buffer z).sharingGroup ∧
        (buffer (representative buffer z)).sharingGroup = (buffer z).sharingGroup := by
    intro z
    unfold representative
    split_ifs with hneg
    · exact .inl ⟨hneg, rfl⟩
    · obtain ⟨rep, hr⟩ := h.moved.found z (mem_grouped (not_lt.mp hneg))
      rw [hr, Option.getD_some]
      exact .inr (sharingIdToRep_mem hr)
  intro heq
  rcases hrep x with ⟨hx, hxr⟩ | ⟨hx, hxr⟩ <;> rcases hrep y with ⟨hy, hyr⟩ | ⟨hy, hyr⟩
  · exact hxy (by rw [← hxr, ← hyr, heq])
  · rw [← heq, hxr] at hyr
    omega
  · rw [heq, hyr] at hxr
    omega
  · exact hgroup ⟨hx, by rw [← hxr, ← hyr, heq]⟩

end Slots

/-- A placement is correct whenever every member of a sharing group is covered
by its representative. -/
theorem computeOffsets_correct (buffer : Fin n → BufferT) (fuel : ℕ) (offsets : Offsets n)
    (final : Placed n) (hcov : MembersCovered buffer)
    (h : computeOffsets buffer fuel offsets = .ok final) : Correct buffer final := by
  obtain ⟨placed, hran⟩ := computeOffsets_ran h
  constructor
  · intro x y hxy hgroup hint
    have hx := slot hran hcov x
    have hy := slot hran hcov y
    have hfalse := buildInterferenceGraph_nil hran.settled.graph (representative_placed hran x)
      (representative_placed hran y) (representative_ne hran hxy hgroup)
    have happart := (interferes_false hfalse).2 (hcov.interfering x y hxy hgroup hint)
    apply Set.disjoint_left.mpr
    intro byte hbx hby
    have hbx' := Set.mem_Ico.mp hbx
    have hby' := Set.mem_Ico.mp hby
    omega
  · exact fun x => (slot hran hcov x).1
  · intro x
    have hx := (slot hran hcov x).2.2
    have hsize := hran.settled.size _ (representative_placed hran x)
    rw [hran.size]
    omega

/-- A group of two buffers and a third buffer, live together with the second.
The first is live up to `stop`. -/
def sharedPair (stop : ℕ) (h : 0 < stop) : Fin 3 → BufferT
  | 0 => ⟨8, 4, [], 0, ⟨0, stop, h.le⟩, by decide, ⟨2, by decide⟩, h⟩
  | 1 => ⟨4, 4, [], 0, ⟨2, 3, by decide⟩, by decide, ⟨2, by decide⟩, by decide⟩
  | 2 => ⟨4, 4, [], -1, ⟨2, 3, by decide⟩, by decide, ⟨2, by decide⟩, by decide⟩

theorem sharedPair_covered : MembersCovered (sharedPair 4 (by decide)) := by
  constructor
  · decide
  · unfold Interfering SameGroup
    decide

theorem computeOffsets_correct_sharedPair :
    ∃ final, computeOffsets (sharedPair 4 (by decide)) 2 (fun _ => 0) = .ok final ∧
      Correct (sharedPair 4 (by decide)) final := by
  obtain ⟨final, h⟩ : ∃ final,
      computeOffsets (sharedPair 4 (by decide)) 2 (fun _ => 0) = .ok final := ⟨_, rfl⟩
  exact ⟨final, h, computeOffsets_correct _ 2 _ final sharedPair_covered h⟩

/-- The representative is dead before the other member becomes live, so the
third buffer is put on the bytes they share. -/
theorem computeOffsets_overlap :
    ∃ final, computeOffsets (sharedPair 1 (by decide)) 2 (fun _ => 0) = .ok final ∧
      ¬ Correct (sharedPair 1 (by decide)) final := by
  refine ⟨_, rfl, fun h => ?_⟩
  have hdisjoint := h.disjoint 1 2 (by decide) (by unfold SameGroup; decide) (.inl rfl)
  apply Set.disjoint_left.mp hdisjoint (show 0 ∈ bytes _ _ _ from ⟨by decide, by decide⟩)
  exact ⟨by decide, by decide⟩

end TritonCpu.AllocationSharing
