import Mathlib.Data.List.Basic
import Mathlib.Logic.Function.Basic
import Mathlib.Order.Nat
import Mathlib.Tactic.SplitIfs

/-!
# Benchmarks of configurations

A configuration is benchmarked by running its hook and the kernel some times, each time
between a snapshot and a restore of the tensors to restore. The snapshot is taken after
the hook of the configuration, so what the hooks do stays.
-/

set_option autoImplicit false

namespace TritonCpu.Tuning

abbrev Memory (V : Type) := ℕ → V

/-- The addresses of the elements of a tensor. -/
abbrev Tensor := List ℕ

inductive Failure where
  | outOfResources
  | compileTimeAssertionFailure
  | other (text : String)
  deriving DecidableEq, Repr

/-- What some code leaves in memory, and whether it raised. -/
structure Outcome (V : Type) where
  memory : Memory V
  failure : Option Failure

section Tensors

variable {V : Type}

def clone (memory : Memory V) (tensor : Tensor) : List V := tensor.map memory

def copy (memory : Memory V) (tensor : Tensor) (values : List V) : Memory V :=
  (tensor.zip values).foldl (fun memory entry => Function.update memory entry.1 entry.2) memory

theorem copy_clone (memory old : Memory V) (tensor : Tensor) (a : ℕ) :
    copy memory tensor (clone old tensor) a = if a ∈ tensor then old a else memory a := by
  induction tensor generalizing memory with
  | nil => rfl
  | cons b tensor ih =>
    change copy (Function.update memory b (old b)) tensor (clone old tensor) a = _
    rw [ih]
    by_cases hb : a = b
    · subst hb
      by_cases hmem : a ∈ tensor <;> simp [hmem]
    · by_cases hmem : a ∈ tensor <;> simp [hmem, hb]

end Tensors

variable {V Timing : Type}

/-- A benchmark repetition, or the call itself. -/
inductive Moment where
  | bench (repetition : ℕ)
  | call
  deriving DecidableEq, Repr

/-- A configuration at one call: its hook, what the kernel does with it at each moment,
how often the benchmark runs it and the timings it then gives. -/
structure Config (V Timing : Type) where
  pre_hook : Option (Moment → Memory V → Outcome V)
  kernel : Moment → Memory V → Outcome V
  repetitions : ℕ
  timing : Timing

section Bench

variable (restore : List Tensor)

/-- `_pre_hook`: the clones of the tensors to restore. -/
def snapshot (memory : Memory V) : List (List V) := restore.map (clone memory)

/-- `_post_hook` -/
def restoreAll (copies : List (List V)) (memory : Memory V) : Memory V :=
  (restore.zip copies).foldl (fun memory entry => copy memory entry.1 entry.2) memory

namespace Config

variable (config : Config V Timing)

def runHook (moment : Moment) (memory : Memory V) : Outcome V :=
  match config.pre_hook with
  | some hook => hook moment memory
  | none => ⟨memory, none⟩

/-- One repetition: the snapshot is taken after the hook, and restored also when the
kernel has raised. -/
def kernelCall (moment : Moment) (memory : Memory V) : Outcome V :=
  let hooked := config.runHook moment memory
  if hooked.failure.isSome then hooked
  else
    let copies := snapshot restore hooked.memory
    let ran := config.kernel moment hooked.memory
    ⟨restoreAll restore copies ran.memory, ran.failure⟩

/-- The repetitions from number `i` on, until one raises. -/
def doBench : ℕ → ℕ → Memory V → Outcome V
  | 0, _, memory => ⟨memory, none⟩
  | n + 1, i, memory =>
    let ran := config.kernelCall restore (.bench i) memory
    if ran.failure.isSome then ran else doBench n (i + 1) ran.memory

/-- The timing of a configuration that fails is infinite; another exception is raised
again. -/
def bench (inf : Timing) (memory : Memory V) : Memory V × Except Failure Timing :=
  let ran := config.doBench restore config.repetitions 0 memory
  match ran.failure with
  | none => (ran.memory, .ok config.timing)
  | some .outOfResources => (ran.memory, .ok inf)
  | some .compileTimeAssertionFailure => (ran.memory, .ok inf)
  | some (.other text) => (ran.memory, .error (.other text))

end Config

end Bench

section Run

variable [LinearOrder Timing] (restore : List Tensor) (inf : Timing)

/-- `{config: self._bench(...) for config in pruned_configs}` -/
def benchAll : List (Config V Timing) → Memory V →
    Memory V × Except Failure (List (Config V Timing × Timing))
  | [], memory => (memory, .ok [])
  | config :: configs, memory =>
    match config.bench restore inf memory with
    | (memory, .error failure) => (memory, .error failure)
    | (memory, .ok timing) =>
      match benchAll configs memory with
      | (memory, .error failure) => (memory, .error failure)
      | (memory, .ok timings) => (memory, .ok ((config, timing) :: timings))

/-- `min(timings, key=timings.get)`: the first one that no later one is below. -/
def minTiming : List (Config V Timing × Timing) → Option (Config V Timing × Timing)
  | [] => none
  | entry :: entries =>
    match minTiming entries with
    | none => some entry
    | some best => if best.2 < entry.2 then some best else some entry

/-- Where the configuration comes from: the cache or a list of one, or a benchmark. -/
inductive Source (V Timing : Type) where
  | known (config : Config V Timing)
  | tune (pruned_configs : List (Config V Timing))

def Source.select : Source V Timing → Memory V → Memory V × Except Failure (Config V Timing)
  | .known config, memory => (memory, .ok config)
  | .tune pruned_configs, memory =>
    match benchAll restore inf pruned_configs memory with
    | (memory, .error failure) => (memory, .error failure)
    | (memory, .ok timings) =>
      match minTiming timings with
      | none => (memory, .error (.other "min() arg is an empty sequence"))
      -- nothing is reset to zero
      | some best => (memory, .ok best.1)

def launch (config : Config V Timing) (memory : Memory V) : Outcome V :=
  let hooked := config.runHook .call memory
  if hooked.failure.isSome then hooked else config.kernel .call hooked.memory

def run (source : Source V Timing) (memory : Memory V) :
    Outcome V × Option (Config V Timing) :=
  match source.select restore inf memory with
  | (memory, .error failure) => (⟨memory, some failure⟩, none)
  | (memory, .ok config) => (launch config memory, some config)

end Run

section Restore

variable {restore : List Tensor} {config : Config V Timing} {memory : Memory V}

def Config.Restorable (config : Config V Timing) (restore : List Tensor) : Prop :=
  ∀ moment (memory : Memory V) a, a ∉ restore.flatten →
    (config.kernel moment memory).memory a = memory a

theorem restoreAll_snapshot (restore : List Tensor) (memory old : Memory V) (a : ℕ) :
    restoreAll restore (snapshot restore old) memory a =
      if a ∈ restore.flatten then old a else memory a := by
  induction restore generalizing memory with
  | nil => rfl
  | cons tensor restore ih =>
    change restoreAll restore (snapshot restore old) (copy memory tensor (clone old tensor)) a = _
    rw [ih, copy_clone]
    by_cases hhead : a ∈ tensor <;> by_cases hrest : a ∈ restore.flatten <;> simp [hhead, hrest]

theorem kernelCall_eq (h : config.Restorable restore) (moment : Moment) (memory : Memory V) :
    config.kernelCall restore moment memory =
      let hooked := config.runHook moment memory
      if hooked.failure.isSome then hooked
      else ⟨hooked.memory, (config.kernel moment hooked.memory).failure⟩ := by
  rw [Config.kernelCall]
  dsimp only
  split_ifs
  · rfl
  · congr 1
    funext a
    rw [restoreAll_snapshot]
    split_ifs with hmem
    · rfl
    · exact h moment _ a hmem

/-- The hooks of the repetitions from number `i` on, until one of them or a kernel raises. -/
def Config.hooks (config : Config V Timing) : ℕ → ℕ → Memory V → Outcome V
  | 0, _, memory => ⟨memory, none⟩
  | n + 1, i, memory =>
    let hooked := config.runHook (.bench i) memory
    if hooked.failure.isSome then hooked
    else
      let failure := (config.kernel (.bench i) hooked.memory).failure
      if failure.isSome then ⟨hooked.memory, failure⟩ else hooks config n (i + 1) hooked.memory

theorem doBench_eq_hooks (h : config.Restorable restore) (n i : ℕ) (memory : Memory V) :
    config.doBench restore n i memory = config.hooks n i memory := by
  induction n generalizing i memory with
  | zero => rfl
  | succ n ih =>
    rw [Config.doBench, Config.hooks, kernelCall_eq h]
    by_cases hhook : (config.runHook (.bench i) memory).failure.isSome = true
    · rw [if_pos hhook, if_pos hhook, if_pos hhook]
    · rw [if_neg hhook, if_neg hhook]
      dsimp only
      split_ifs
      · rfl
      · exact ih (i + 1) _

/-- The hooks of the benchmarks, configuration by configuration, until one raises an
exception that is raised again. -/
def hooksAll : List (Config V Timing) → Memory V → Memory V
  | [], memory => memory
  | config :: configs, memory =>
    let ran := config.hooks config.repetitions 0 memory
    match ran.failure with
    | some (.other _) => ran.memory
    | _ => hooksAll configs ran.memory

def Source.hooks : Source V Timing → Memory V → Memory V
  | .known _, memory => memory
  | .tune configs, memory => hooksAll configs memory

def Source.configs : Source V Timing → List (Config V Timing)
  | .known config => [config]
  | .tune configs => configs

theorem benchAll_cons (timing : Timing) {inf : Timing} {configs : List (Config V Timing)} {memory' : Memory V}
    (h : config.bench restore inf memory = (memory', .ok timing)) :
    (benchAll restore inf (config :: configs) memory).1 = (benchAll restore inf configs memory').1 := by
  rw [benchAll, h]
  cases hrest : benchAll restore inf configs memory' with
  | mk rest timings => cases timings <;> simp [hrest]

theorem benchAll_memory (inf : Timing) {configs : List (Config V Timing)}
    (h : ∀ config ∈ configs, config.Restorable restore) (memory : Memory V) :
    (benchAll restore inf configs memory).1 = hooksAll configs memory := by
  induction configs generalizing memory with
  | nil => rfl
  | cons config configs ih =>
    have hrest := ih fun c hc => h c (List.mem_cons_of_mem _ hc)
    have hbench := doBench_eq_hooks (h config List.mem_cons_self) config.repetitions 0 memory
    rw [hooksAll]
    cases hfailure : (config.hooks config.repetitions 0 memory).failure with
    | none =>
      rw [← hrest]
      apply benchAll_cons config.timing
      rw [Config.bench, hbench, hfailure]
    | some failure =>
      cases failure with
      | outOfResources =>
        rw [← hrest]
        apply benchAll_cons inf
        rw [Config.bench, hbench, hfailure]
      | compileTimeAssertionFailure =>
        rw [← hrest]
        apply benchAll_cons inf
        rw [Config.bench, hbench, hfailure]
      | other text =>
        rw [benchAll, Config.bench, hbench, hfailure]

theorem hooks_of_unchanged (n i : ℕ) (h : ∀ moment (memory : Memory V),
    (config.runHook moment memory).memory = memory) (memory : Memory V) :
    (config.hooks n i memory).memory = memory := by
  induction n generalizing i memory with
  | zero => rfl
  | succ n ih =>
    rw [Config.hooks]
    dsimp only
    split_ifs
    · exact h _ memory
    · exact h _ memory
    · rw [ih, h]

theorem hooksAll_of_unchanged {configs : List (Config V Timing)}
    (h : ∀ config ∈ configs, ∀ moment (memory : Memory V),
      (config.runHook moment memory).memory = memory) (memory : Memory V) :
    hooksAll configs memory = memory := by
  induction configs generalizing memory with
  | nil => rfl
  | cons config configs ih =>
    have hhead := hooks_of_unchanged config.repetitions 0 (h config List.mem_cons_self) memory
    have htail := ih fun c hc => h c (List.mem_cons_of_mem _ hc)
    rw [hooksAll]
    split
    · exact hhead
    · rw [hhead, htail]

variable [LinearOrder Timing]

theorem run_eq_launch {inf : Timing} {source : Source V Timing}
    (h : ∀ config ∈ source.configs, config.Restorable restore) {memory : Memory V}
    {outcome : Outcome V} (hrun : run restore inf source memory = (outcome, some config)) :
    outcome = launch config (source.hooks memory) := by
  cases source with
  | known c =>
    obtain ⟨hout, hconfig⟩ := Prod.mk.inj hrun
    rw [← hout, Option.some.inj hconfig]
    rfl
  | tune configs =>
    have hmemory : (benchAll restore inf configs memory).1 = hooksAll configs memory :=
      benchAll_memory inf h memory
    rw [run, Source.select] at hrun
    cases hbench : benchAll restore inf configs memory with
    | mk benched timings =>
      rw [hbench] at hrun hmemory
      cases timings with
      | error failure => cases (Prod.mk.inj hrun).2
      | ok timings =>
        dsimp only at hrun
        cases hmin : minTiming timings with
        | none =>
          rw [hmin] at hrun
          cases (Prod.mk.inj hrun).2
        | some best =>
          rw [hmin] at hrun
          obtain ⟨hout, hconfig⟩ := Prod.mk.inj hrun
          rw [← hout, Option.some.inj hconfig, Source.hooks, ← hmemory]

end Restore

section Example

/-- A hook that adds to the element at address 0, and a kernel that doubles it. -/
def addThenDouble (n timing : ℕ) : Config ℕ ℕ where
  pre_hook := some fun _ memory => ⟨Function.update memory 0 (memory 0 + n), none⟩
  kernel := fun _ memory => ⟨Function.update memory 0 (2 * memory 0), none⟩
  repetitions := 2
  timing := timing

theorem addThenDouble_restorable (n timing : ℕ) : (addThenDouble n timing).Restorable [[0]] := by
  intro moment memory a ha
  have hne : a ≠ 0 := by simpa using ha
  exact Function.update_of_ne hne _ _

end Example

end TritonCpu.Tuning
