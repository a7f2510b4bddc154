import Mathlib

/-!
# Threads that share a range of indices

Every worker runs a range of indices. A worker that has finished its range is
done, or fetches the next chunk from a shared counter. A schedule is the list
of the workers in the order in which they take their steps, so a statement
about all schedules is one about all interleavings.
-/

set_option autoImplicit false

namespace TritonCpu.WorkSharing

open List

/-- What a worker does next. -/
inductive Worker where
  | fetch
  | run (i stop : ℕ)
  | done
  deriving DecidableEq

/-- The indices below `limit` are shared, in chunks if the counter is used. -/
structure Pool where
  limit : ℕ
  chunk : Option ℕ

structure Team where
  next : ℕ
  workers : List Worker
  log : List ℕ

def pending : Worker → List ℕ
  | .run i stop => List.range' i (stop - i)
  | _ => []

namespace Pool

variable (P : Pool)

def after : Worker := if P.chunk.isSome then .fetch else .done

/-- The step of worker `t`; a worker that is done has none. -/
def step (s : Team) (t : ℕ) : Option Team :=
  match s.workers[t]? with
  | some .fetch =>
    match P.chunk with
    | none => none
    | some chunk =>
      if s.next < P.limit then
        some ⟨s.next + chunk, s.workers.set t (.run s.next (min (s.next + chunk) P.limit)), s.log⟩
      else some ⟨s.next + chunk, s.workers.set t .done, s.log⟩
  | some (.run i stop) =>
    if i < stop then some ⟨s.next, s.workers.set t (.run (i + 1) stop), s.log ++ [i]⟩
    else some ⟨s.next, s.workers.set t P.after, s.log⟩
  | _ => none

def run (s : Team) : List ℕ → Option Team
  | [] => some s
  | t :: ts => (P.step s t).bind fun s' => run s' ts

def Stopped (s : Team) : Prop := ∀ t, P.step s t = none

/-- Every index is run, pending at one worker, or still in the pool. -/
structure Shared (s : Team) : Prop where
  perm : (s.log ++ s.workers.flatMap pending ++
    List.range' s.next (P.limit - s.next)).Perm (List.range P.limit)
  used_up : .done ∈ s.workers → P.limit ≤ s.next
  no_fetch : P.chunk = none → P.limit ≤ s.next ∧ .fetch ∉ s.workers
  chunk_pos : ∀ chunk ∈ P.chunk, 0 < chunk
  nonempty : s.workers ≠ []

end Pool

/-- An upper bound of the steps that a worker has left, its next chunks apart. -/
def weight : Worker → ℕ
  | .fetch => 1
  | .run i stop => stop - i + 2
  | .done => 0

def Pool.work (P : Pool) (s : Team) : ℕ := 4 * (P.limit - s.next) + (s.workers.map weight).sum

section Replace

variable {ws : List Worker} {t : ℕ} {w : Worker}

theorem perm_set (h : ws[t]? = some w) (w' : Worker) :
    ws.Perm (w :: ws.eraseIdx t) ∧ (ws.set t w').Perm (w' :: ws.eraseIdx t) := by
  obtain ⟨ht, rfl⟩ := List.getElem?_eq_some_iff.mp h
  exact ⟨(getElem_cons_eraseIdx_perm ht).symm, set_perm_cons_eraseIdx ht w'⟩

theorem count_set (h : ws[t]? = some w) (w' : Worker) (x : ℕ) :
    ((ws.set t w').flatMap pending).count x + (pending w).count x =
      (ws.flatMap pending).count x + (pending w').count x := by
  obtain ⟨hold, hnew⟩ := perm_set h w'
  rw [(hold.flatMap_right pending).count_eq, (hnew.flatMap_right pending).count_eq,
    flatMap_cons, flatMap_cons, count_append, count_append]
  omega

theorem weight_set (h : ws[t]? = some w) (w' : Worker) :
    ((ws.set t w').map weight).sum + weight w = (ws.map weight).sum + weight w' := by
  obtain ⟨hold, hnew⟩ := perm_set h w'
  rw [(hold.map weight).sum_nat, (hnew.map weight).sum_nat, map_cons, map_cons,
    sum_cons, sum_cons]
  omega

end Replace

namespace Pool

variable {P : Pool} {s s' : Team} {t : ℕ}

theorem step_cases (h : P.step s t = some s') :
    (∃ chunk, P.chunk = some chunk ∧ s.workers[t]? = some .fetch ∧ s.next < P.limit ∧
      s' = ⟨s.next + chunk, s.workers.set t (.run s.next (min (s.next + chunk) P.limit)), s.log⟩) ∨
    (∃ chunk, P.chunk = some chunk ∧ s.workers[t]? = some .fetch ∧ P.limit ≤ s.next ∧
      s' = ⟨s.next + chunk, s.workers.set t .done, s.log⟩) ∨
    (∃ i stop, s.workers[t]? = some (.run i stop) ∧ i < stop ∧
      s' = ⟨s.next, s.workers.set t (.run (i + 1) stop), s.log ++ [i]⟩) ∨
    (∃ i stop, s.workers[t]? = some (.run i stop) ∧ stop ≤ i ∧
      s' = ⟨s.next, s.workers.set t P.after, s.log⟩) := by
  rw [step] at h
  cases hw : s.workers[t]? with
  | none => simp [hw] at h
  | some w =>
    cases w with
    | done => simp [hw] at h
    | fetch =>
      cases hchunk : P.chunk with
      | none => simp [hw, hchunk] at h
      | some chunk =>
        simp only [hw, hchunk] at h
        by_cases hlt : s.next < P.limit
        · rw [if_pos hlt] at h
          exact Or.inl ⟨chunk, rfl, rfl, hlt, (Option.some.inj h).symm⟩
        · rw [if_neg hlt] at h
          exact Or.inr (Or.inl ⟨chunk, rfl, rfl, by omega, (Option.some.inj h).symm⟩)
    | run i stop =>
      simp only [hw] at h
      by_cases hlt : i < stop
      · rw [if_pos hlt] at h
        exact Or.inr (Or.inr (Or.inl ⟨i, stop, rfl, hlt, (Option.some.inj h).symm⟩))
      · rw [if_neg hlt] at h
        exact Or.inr (Or.inr (Or.inr ⟨i, stop, rfl, by omega, (Option.some.inj h).symm⟩))

theorem count_chunk (next chunk limit x : ℕ) (h : next ≤ limit) :
    (List.range' next (limit - next)).count x =
      (List.range' next (min (next + chunk) limit - next)).count x +
        (List.range' (next + chunk) (limit - (next + chunk))).count x := by
  by_cases hlast : limit ≤ next + chunk
  · rw [Nat.min_eq_right hlast, Nat.sub_eq_zero_of_le hlast]
    simp
  · have hsplit := @List.range'_append_1 next chunk (limit - (next + chunk))
    rw [show chunk + (limit - (next + chunk)) = limit - next by omega] at hsplit
    rw [Nat.min_eq_left (by omega), Nat.add_sub_cancel_left, ← hsplit, count_append]

theorem Shared.step (hs : P.Shared s) (h : P.step s t = some s') : P.Shared s' := by
  have hcount := fun x => hs.perm.count_eq x
  simp only [count_append] at hcount
  rcases step_cases h with ⟨chunk, hchunk, hw, hlt, rfl⟩ | ⟨chunk, hchunk, hw, hle, rfl⟩ |
    ⟨i, stop, hw, hlt, rfl⟩ | ⟨i, stop, hw, hle, rfl⟩
  · refine ⟨?_, ?_, ?_, hs.chunk_pos, by simpa using hs.nonempty⟩
    · rw [perm_iff_count]
      intro x
      have hset := count_set hw (.run s.next (min (s.next + chunk) P.limit)) x
      have hsplit := count_chunk s.next chunk P.limit x hlt.le
      have htotal := hcount x
      simp only [pending, count_nil, Nat.add_zero] at hset
      simp only [count_append]
      omega
    · intro hdone
      rcases mem_or_eq_of_mem_set hdone with hmem | heq
      · have := hs.used_up hmem
        omega
      · simp at heq
    · intro hnone
      rw [hchunk] at hnone
      exact absurd hnone (by simp)
  · refine ⟨?_, fun _ => by simp only; omega, ?_, hs.chunk_pos, by simpa using hs.nonempty⟩
    · rw [perm_iff_count]
      intro x
      have hset := count_set hw .done x
      have htotal := hcount x
      rw [Nat.sub_eq_zero_of_le hle] at htotal
      simp only [pending, count_nil, Nat.add_zero] at hset
      simp only [count_append, Nat.sub_eq_zero_of_le (hle.trans (Nat.le_add_right _ chunk))]
      simp only [List.range'_zero, count_nil] at htotal ⊢
      omega
    · intro hnone
      rw [hchunk] at hnone
      exact absurd hnone (by simp)
  · refine ⟨?_, ?_, ?_, hs.chunk_pos, by simpa using hs.nonempty⟩
    · rw [perm_iff_count]
      intro x
      have hset := count_set hw (.run (i + 1) stop) x
      have htotal := hcount x
      have hhead : List.range' i (stop - i) = i :: List.range' (i + 1) (stop - (i + 1)) := by
        rw [show stop - i = stop - (i + 1) + 1 by omega, List.range'_succ]
      simp only [pending] at hset
      rw [hhead, ← singleton_append, count_append] at hset
      simp only [count_append]
      omega
    · intro hdone
      rcases mem_or_eq_of_mem_set hdone with hmem | heq
      · exact hs.used_up hmem
      · simp at heq
    · intro hnone
      refine ⟨(hs.no_fetch hnone).1, fun hfetch => ?_⟩
      rcases mem_or_eq_of_mem_set hfetch with hmem | heq
      · exact (hs.no_fetch hnone).2 hmem
      · simp at heq
  · have hafter : pending P.after = [] := by
      rw [after]
      split_ifs <;> rfl
    refine ⟨?_, ?_, ?_, hs.chunk_pos, by simpa using hs.nonempty⟩
    · rw [perm_iff_count]
      intro x
      have hset := count_set hw P.after x
      have htotal := hcount x
      rw [hafter] at hset
      simp only [pending, Nat.sub_eq_zero_of_le hle, List.range'_zero, count_nil] at hset
      simp only [count_append]
      omega
    · intro hdone
      rcases mem_or_eq_of_mem_set hdone with hmem | heq
      · exact hs.used_up hmem
      · cases hchunk : P.chunk with
        | none => exact (hs.no_fetch hchunk).1
        | some chunk => simp [after, hchunk] at heq
    · intro hnone
      refine ⟨(hs.no_fetch hnone).1, fun hfetch => ?_⟩
      rcases mem_or_eq_of_mem_set hfetch with hmem | heq
      · exact (hs.no_fetch hnone).2 hmem
      · simp [after, hnone] at heq

theorem Shared.run (hs : P.Shared s) {ts : List ℕ} (h : P.run s ts = some s') : P.Shared s' := by
  induction ts generalizing s with
  | nil =>
    obtain rfl := Option.some.inj h
    exact hs
  | cons t ts ih =>
    obtain ⟨s₁, hstep, hrun⟩ := Option.bind_eq_some_iff.mp h
    exact ih (hs.step hstep) hrun

theorem work_step (hs : P.Shared s) (h : P.step s t = some s') : P.work s' < P.work s := by
  rcases step_cases h with ⟨chunk, hchunk, hw, hlt, rfl⟩ | ⟨chunk, hchunk, hw, hle, rfl⟩ |
    ⟨i, stop, hw, hlt, rfl⟩ | ⟨i, stop, hw, hle, rfl⟩
  · have hpos := hs.chunk_pos chunk hchunk
    have hset := weight_set hw (.run s.next (min (s.next + chunk) P.limit))
    simp only [weight] at hset
    simp only [work]
    omega
  · have hset := weight_set hw .done
    simp only [weight] at hset
    simp only [work]
    omega
  · have hset := weight_set hw (.run (i + 1) stop)
    simp only [weight] at hset
    simp only [work]
    omega
  · have hset := weight_set hw P.after
    have hafter : weight P.after ≤ 1 := by
      rw [after]
      split_ifs <;> simp [weight]
    rw [weight] at hset
    simp only [work]
    omega

theorem length_run (hs : P.Shared s) {ts : List ℕ} (h : P.run s ts = some s') :
    ts.length + P.work s' ≤ P.work s := by
  induction ts generalizing s with
  | nil =>
    obtain rfl := Option.some.inj h
    simp
  | cons t ts ih =>
    obtain ⟨s₁, hstep, hrun⟩ := Option.bind_eq_some_iff.mp h
    have hfirst := work_step hs hstep
    have hrest := ih (hs.step hstep) hrun
    rw [length_cons]
    omega

theorem Shared.log_nodup (hs : P.Shared s) : s.log.Nodup ∧ ∀ i ∈ s.log, i < P.limit := by
  have hnodup : (s.log ++ s.workers.flatMap pending ++ List.range' s.next (P.limit - s.next)).Nodup :=
    hs.perm.nodup_iff.mpr nodup_range
  refine ⟨(nodup_append.mp (nodup_append.mp hnodup).1).1, fun i hi => ?_⟩
  rw [← mem_range, ← hs.perm.mem_iff]
  exact mem_append_left _ (mem_append_left _ hi)

theorem done_of_stopped (hs : P.Shared s) (h : P.Stopped s) : ∀ w ∈ s.workers, w = .done := by
  intro w hw
  obtain ⟨t, ht⟩ := mem_iff_getElem?.mp hw
  have hstep := h t
  rw [step, ht] at hstep
  cases w with
  | done => rfl
  | run i stop =>
    simp only at hstep
    split_ifs at hstep
  | fetch =>
    cases hchunk : P.chunk with
    | none => exact absurd hw (hs.no_fetch hchunk).2
    | some chunk =>
      simp only [hchunk] at hstep
      split_ifs at hstep

theorem Shared.perm_of_stopped (hs : P.Shared s) (h : P.Stopped s) :
    s.log.Perm (List.range P.limit) := by
  have hdone := done_of_stopped hs h
  obtain ⟨w, ws, hws⟩ := exists_cons_of_ne_nil hs.nonempty
  have hused := hs.used_up (by
    rw [hws, hdone w (by simp [hws])]
    exact mem_cons_self)
  have hpending : s.workers.flatMap pending = [] := by
    rw [flatMap_eq_nil_iff]
    intro w hw
    rw [hdone w hw]
    rfl
  have hperm := hs.perm
  rwa [hpending, Nat.sub_eq_zero_of_le hused, List.range'_zero, append_nil,
    append_nil] at hperm

theorem next_step {chunk : ℕ} (hchunk : P.chunk = some chunk)
    (hnext : s.next ≤ P.limit + chunk * (1 + s.workers.count .done)) (h : P.step s t = some s') :
    s'.next ≤ P.limit + chunk * (1 + s'.workers.count .done) := by
  have hmono : ∀ {w w'}, s.workers[t]? = some w → w ≠ .done →
      s.workers.count .done ≤ (s.workers.set t w').count .done := by
    intro w w' hw hne
    obtain ⟨hold, hnew⟩ := perm_set hw w'
    rw [hold.count_eq, hnew.count_eq, count_cons_of_ne hne]
    exact count_le_count_cons
  rcases step_cases h with ⟨chunk', hchunk', hw, hlt, rfl⟩ | ⟨chunk', hchunk', hw, hle, rfl⟩ |
    ⟨i, stop, hw, hlt, rfl⟩ | ⟨i, stop, hw, hle, rfl⟩
  · obtain rfl := Option.some.inj (hchunk.symm.trans hchunk')
    have hone : chunk * 1 ≤ chunk * (1 + (s.workers.set t
        (.run s.next (min (s.next + chunk) P.limit))).count .done) :=
      Nat.mul_le_mul_left chunk (by omega)
    simp only
    omega
  · obtain rfl := Option.some.inj (hchunk.symm.trans hchunk')
    obtain ⟨hold, hnew⟩ := perm_set hw .done
    rw [hold.count_eq, count_cons_of_ne (by simp)] at hnext
    simp only [hnew.count_eq, count_cons_self]
    rw [← Nat.add_assoc, Nat.mul_succ]
    omega
  · exact hnext.trans (Nat.add_le_add_left (Nat.mul_le_mul_left _
      (Nat.add_le_add_left (hmono hw (by simp)) 1)) _)
  · exact hnext.trans (Nat.add_le_add_left (Nat.mul_le_mul_left _
      (Nat.add_le_add_left (hmono hw (by simp)) 1)) _)

/-- The counter overshoots by one chunk for each worker at most, and one more. -/
theorem next_run {chunk : ℕ} (hchunk : P.chunk = some chunk)
    (hnext : s.next ≤ P.limit + chunk * (1 + s.workers.count .done)) {ts : List ℕ}
    (h : P.run s ts = some s') : s'.next ≤ P.limit + chunk * (1 + s'.workers.length) := by
  induction ts generalizing s with
  | nil =>
    obtain rfl := Option.some.inj h
    exact hnext.trans (Nat.add_le_add_left (Nat.mul_le_mul_left _
      (Nat.add_le_add_left count_le_length 1)) _)
  | cons t ts ih =>
    obtain ⟨s₁, hstep, hrun⟩ := Option.bind_eq_some_iff.mp h
    exact ih (next_step hchunk hnext hstep) hrun

end Pool

end TritonCpu.WorkSharing
