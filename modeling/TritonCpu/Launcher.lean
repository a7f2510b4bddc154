import TritonCpu.WorkSharing

/-!
# The launcher

`_launch` runs the kernel for every program of the grid: in a loop of the
calling thread, or in a parallel region whose threads divide the programs
between them. Each of its loops is a pool of programs shared by a team.
-/

set_option autoImplicit false

namespace TritonCpu

open WorkSharing List

structure Grid where
  gridX : ℕ
  gridY : ℕ
  gridZ : ℕ

/-- `N`, the number of programs. -/
def Grid.N (grid : Grid) : ℕ := grid.gridX * grid.gridY * grid.gridZ

/-- The coordinates `x`, `y`, `z` of program `i`. -/
def Grid.program (grid : Grid) (i : ℕ) : ℕ × ℕ × ℕ :=
  (i % grid.gridX, (i / grid.gridX) % grid.gridY, i / (grid.gridX * grid.gridY))

/-- What the OpenMP runtime decides: the threads it has, the size of the team it
grants, and where the ranges of `schedule(static)` begin. -/
structure OpenMP where
  maxThreads : ℕ
  teamSize : ℕ → ℕ
  teamSize_pos : ∀ n, 0 < teamSize n
  staticStart : (team N thread : ℕ) → ℕ
  staticStart_zero : ∀ team N, staticStart team N 0 = 0
  staticStart_mono : ∀ team N thread, staticStart team N thread ≤ staticStart team N (thread + 1)
  staticStart_team : ∀ team N, 0 < team → staticStart team N team = N

/-- The parallel loop the launcher is generated with. -/
inductive ParallelLoop where
  | static
  | reserveMaster
  | kunpengLlm
  deriving DecidableEq

/-- `while (chunk > 1 && N / chunk < 2 * (int64_t)nthreads) chunk = (chunk + 1) / 2;` -/
def cutChunk (N nthreads chunk : ℕ) : ℕ :=
  if 1 < chunk ∧ N / chunk < 2 * nthreads then cutChunk N nthreads ((chunk + 1) / 2) else chunk
termination_by chunk

def reserveMaster (N team_size : ℕ) : Bool :=
  decide (team_size > 1 ∧ (N + team_size - 2) / (team_size - 1) = (N + team_size - 1) / team_size)

def workerRange (N team_size tid : ℕ) : Worker :=
  let reserve_master := if reserveMaster N team_size then 1 else 0
  let workers := team_size - reserve_master
  let worker : ℤ := tid - reserve_master
  let start := if worker ≥ 0 then N * worker.toNat / workers else 0
  let stop := if worker ≥ 0 then N * (worker.toNat + 1) / workers else 0
  .run start stop

def staticRanges (N : ℕ) (workers : List Worker) : Pool × Team := (⟨N, none⟩, ⟨N, workers, []⟩)

/-- `for (int64_t i = 0; i < N; ++i)` -/
def serialLoop (N : ℕ) : Pool × Team := staticRanges N [.run 0 N]

def parallelLoop (omp : OpenMP) (loop : ParallelLoop) (grid : Grid) (nthreads : ℕ) : Pool × Team :=
  let team_size := omp.teamSize nthreads
  match loop with
  | .static => staticRanges grid.N ((List.range team_size).map fun tid =>
      .run (omp.staticStart team_size grid.N tid) (omp.staticStart team_size grid.N (tid + 1)))
  | .reserveMaster => staticRanges grid.N ((List.range team_size).map (workerRange grid.N team_size))
  | .kunpengLlm => (⟨grid.N, some (cutChunk grid.N nthreads grid.gridX)⟩,
      ⟨0, List.replicate team_size .fetch, []⟩)

/-- `_launch`, with OpenMP or without. -/
def launch (openmp : Option OpenMP) (loop : ParallelLoop) (grid : Grid) (num_threads : ℤ) :
    Pool × Team :=
  match openmp with
  | none => serialLoop grid.N
  | some omp =>
    let max_threads := if num_threads > 0 then num_threads.toNat else omp.maxThreads
    if grid.N > 1 then
      parallelLoop omp loop grid (if max_threads < grid.N then max_threads else grid.N)
    else serialLoop grid.N

section Grid

variable (grid : Grid)

theorem program_index (i : ℕ) : (grid.program i).1 +
    grid.gridX * ((grid.program i).2.1 + grid.gridY * (grid.program i).2.2) = i := by
  simp only [Grid.program, ← Nat.div_div_eq_div_mul]
  rw [Nat.mod_add_div, Nat.mod_add_div]

theorem program_lt {i : ℕ} (h : i < grid.N) : (grid.program i).1 < grid.gridX ∧
    (grid.program i).2.1 < grid.gridY ∧ (grid.program i).2.2 < grid.gridZ := by
  have hpos : 0 < grid.gridX * grid.gridY := by
    by_contra hzero
    rw [Grid.N, Nat.eq_zero_of_not_pos hzero, Nat.zero_mul] at h
    omega
  refine ⟨Nat.mod_lt _ (Nat.pos_of_mul_pos_right hpos), Nat.mod_lt _ (Nat.pos_of_mul_pos_left hpos), ?_⟩
  exact Nat.div_lt_of_lt_mul h

end Grid

theorem cutChunk_pos {N nthreads chunk : ℕ} (h : 0 < chunk) : 0 < cutChunk N nthreads chunk := by
  induction chunk using Nat.strong_induction_on with
  | _ chunk ih =>
    rw [cutChunk]
    split_ifs with hcut
    · exact ih ((chunk + 1) / 2) (by omega) (by omega)
    · exact h

theorem flatMap_ranges (b : ℕ → ℕ) (n : ℕ) (hmono : ∀ w < n, b w ≤ b (w + 1)) :
    b 0 ≤ b n ∧ (List.range n).flatMap (fun w => List.range' (b w) (b (w + 1) - b w)) =
      List.range' (b 0) (b n - b 0) := by
  induction n with
  | zero => simp
  | succ n ih =>
    obtain ⟨hle, hprev⟩ := ih fun w hw => hmono w (by omega)
    have hlast := hmono n (by omega)
    refine ⟨hle.trans hlast, ?_⟩
    have hsplit := @List.range'_append_1 (b 0) (b n - b 0) (b (n + 1) - b n)
    rw [Nat.add_sub_cancel' hle,
      show b n - b 0 + (b (n + 1) - b n) = b (n + 1) - b 0 by omega] at hsplit
    rw [range_succ, flatMap_append, hprev, ← hsplit, flatMap_singleton]

theorem shared_staticRanges {N : ℕ} {workers : List Worker} (hne : workers ≠ [])
    (hrun : ∀ w ∈ workers, ∃ i stop, w = .run i stop)
    (hperm : workers.flatMap pending = List.range N) :
    (staticRanges N workers).1.Shared (staticRanges N workers).2 := by
  refine ⟨?_, fun _ => le_rfl, fun _ => ⟨le_rfl, fun hfetch => ?_⟩, by simp [staticRanges], hne⟩
  · simp [staticRanges, hperm]
  · obtain ⟨i, stop, hw⟩ := hrun _ hfetch
    exact absurd hw (by simp)

theorem pending_static (omp : OpenMP) {team : ℕ} (N : ℕ) (hteam : 0 < team) :
    ((List.range team).map fun tid =>
      Worker.run (omp.staticStart team N tid) (omp.staticStart team N (tid + 1))).flatMap pending =
        List.range N := by
  rw [flatMap_map]
  refine (flatMap_ranges (omp.staticStart team N) team
    fun w _ => omp.staticStart_mono team N w).2.trans ?_
  rw [omp.staticStart_zero, omp.staticStart_team team N hteam, Nat.sub_zero, range_eq_range']

theorem pending_reserveMaster {N team : ℕ} (hteam : 0 < team) :
    ((List.range team).map (workerRange N team)).flatMap pending = List.range N := by
  have hpartition : ∀ workers, 0 < workers →
      (List.range workers).flatMap (fun w =>
        List.range' (N * w / workers) (N * (w + 1) / workers - N * w / workers)) = List.range N := by
    intro workers hpos
    have hmono : ∀ w < workers, N * w / workers ≤ N * (w + 1) / workers :=
      fun w _ => Nat.div_le_div_right (Nat.mul_le_mul_left N (Nat.le_succ w))
    refine (flatMap_ranges (fun w => N * w / workers) workers hmono).2.trans ?_
    rw [Nat.mul_zero, Nat.zero_div, Nat.mul_div_cancel _ hpos, Nat.sub_zero, range_eq_range']
  rw [flatMap_map]
  cases hreserve : reserveMaster N team with
  | false =>
    rw [← hpartition team hteam]
    apply flatMap_congr
    intro tid _
    simp [workerRange, hreserve, pending]
  | true =>
    have hmany : 1 < team := (of_decide_eq_true hreserve).1
    obtain ⟨workers, rfl⟩ : ∃ workers, team = workers + 1 := ⟨team - 1, by omega⟩
    rw [range_succ_eq_map, flatMap_cons, flatMap_map, ← hpartition workers (by omega)]
    have hmaster : pending (workerRange N (workers + 1) 0) = [] := by
      simp [workerRange, hreserve, pending]
    rw [hmaster, nil_append]
    apply flatMap_congr
    intro w _
    simp [workerRange, hreserve, pending]

theorem shared_serialLoop (N : ℕ) : (serialLoop N).1.Shared (serialLoop N).2 := by
  apply shared_staticRanges (by simp) (by simp)
  simp [pending, range_eq_range']

theorem shared_parallelLoop (omp : OpenMP) (loop : ParallelLoop) (grid : Grid) (nthreads : ℕ)
    (hN : 1 < grid.N) :
    (parallelLoop omp loop grid nthreads).1.Shared (parallelLoop omp loop grid nthreads).2 := by
  have hteam := omp.teamSize_pos nthreads
  cases loop with
  | static =>
    apply shared_staticRanges
    · simpa using hteam.ne'
    · simp
    · exact pending_static omp _ hteam
  | reserveMaster =>
    apply shared_staticRanges
    · simpa using hteam.ne'
    · simp [workerRange]
    · exact pending_reserveMaster hteam
  | kunpengLlm =>
    have hgrid : 0 < grid.gridX := by
      by_contra hzero
      rw [Grid.N, Nat.eq_zero_of_not_pos hzero, Nat.zero_mul, Nat.zero_mul] at hN
      omega
    refine ⟨?_, ?_, ?_, ?_, ?_⟩
    · have hpending : (List.replicate (omp.teamSize nthreads) Worker.fetch).flatMap pending = [] := by
        rw [flatMap_eq_nil_iff]
        intro w hw
        rw [eq_of_mem_replicate hw]
        rfl
      simp [parallelLoop, hpending, range_eq_range']
    · intro hdone
      exact absurd (eq_of_mem_replicate hdone) (by simp)
    · intro hnone
      simp [parallelLoop] at hnone
    · intro chunk hchunk
      obtain rfl := Option.some.inj hchunk
      exact cutChunk_pos hgrid
    · simpa [parallelLoop] using hteam.ne'

theorem shared_launch (openmp : Option OpenMP) (loop : ParallelLoop) (grid : Grid)
    (num_threads : ℤ) : (launch openmp loop grid num_threads).1.Shared
      (launch openmp loop grid num_threads).2 := by
  cases openmp with
  | none => exact shared_serialLoop grid.N
  | some omp =>
    by_cases hN : grid.N > 1
    · simp only [launch, if_pos hN]
      exact shared_parallelLoop omp loop grid _ hN
    · simp only [launch, if_neg hN]
      exact shared_serialLoop grid.N

theorem limit_launch (openmp : Option OpenMP) (loop : ParallelLoop) (grid : Grid)
    (num_threads : ℤ) : (launch openmp loop grid num_threads).1.limit = grid.N := by
  cases openmp with
  | none => rfl
  | some omp =>
    by_cases hN : grid.N > 1
    · simp only [launch, if_pos hN]
      cases loop <;> rfl
    · simp only [launch, if_neg hN]
      rfl

/-- The shared counter ends within one chunk of the grid for every thread, and
one more. -/
theorem launch_counter_le (omp : OpenMP) (grid : Grid) (nthreads : ℕ) {ts : List ℕ} {s : Team}
    (h : (parallelLoop omp .kunpengLlm grid nthreads).1.run
      (parallelLoop omp .kunpengLlm grid nthreads).2 ts = some s) :
    s.next ≤ grid.N + cutChunk grid.N nthreads grid.gridX * (1 + s.workers.length) :=
  Pool.next_run rfl (Nat.zero_le _) h

/-- Threads of nearly equal ranges, as many as are asked for. -/
def evenOpenMP : OpenMP where
  maxThreads := 4
  teamSize n := max n 1
  teamSize_pos n := Nat.one_pos.trans_le (Nat.le_max_right n 1)
  staticStart team N thread := N * thread / team
  staticStart_zero team N := by rw [Nat.mul_zero, Nat.zero_div]
  staticStart_mono team N thread := Nat.div_le_div_right (Nat.mul_le_mul_left N (Nat.le_succ _))
  staticStart_team team N hteam := Nat.mul_div_cancel N hteam

theorem launch_counter_le_twoThreads : ∃ s,
    (parallelLoop evenOpenMP .kunpengLlm ⟨5, 1, 1⟩ 2).1.run
      (parallelLoop evenOpenMP .kunpengLlm ⟨5, 1, 1⟩ 2).2 [0, 1, 1, 0] = some s ∧
      s.next ≤ 5 + cutChunk 5 2 5 * (1 + s.workers.length) := by
  obtain ⟨s, hs⟩ := Option.isSome_iff_exists.mp
    (show ((parallelLoop evenOpenMP .kunpengLlm ⟨5, 1, 1⟩ 2).1.run
      (parallelLoop evenOpenMP .kunpengLlm ⟨5, 1, 1⟩ 2).2 [0, 1, 1, 0]).isSome by decide +kernel)
  exact ⟨s, hs, launch_counter_le evenOpenMP ⟨5, 1, 1⟩ 2 hs⟩

end TritonCpu
