import TritonCpu.KernelFastPath

/-!
# Merging arguments is binding them

`_normalize_args` merges the arguments of a call without the binder. Python's own
rules are those of `inspect.Signature`: `bind` goes through the positional
arguments, then through the keywords, and `apply_defaults` adds what is missing.
-/

set_option autoImplicit false

namespace TritonCpu.JIT

open Python PythonRepr
open List hiding keys

/-- The reasons for which `bind` raises `TypeError`. -/
inductive BindError where
  | missingArgument (name : String)
  | tooManyPositional
  | multipleValues (name : String)
  | unexpectedKeyword (name : String)

namespace Signature

/-- The first loop of `bind`, for parameters that are positional or keyword. It
ends with the parameters that have no positional argument. -/
def bindPositional (kwargs : Dict PyValue) : List KernelParam → List PyValue → Dict PyValue →
    Except BindError (Dict PyValue × List KernelParam)
  | [], [], arguments => .ok (arguments, [])
  | [], _ :: _, _ => .error .tooManyPositional
  | param :: parameters, arg_val :: arg_vals, arguments =>
    if param.name ∈ keys kwargs then .error (.multipleValues param.name)
    else bindPositional kwargs parameters arg_vals (setItem arguments param.name arg_val)
  | param :: parameters, [], arguments =>
    if param.name ∈ keys kwargs ∨ param.default.isSome then .ok (arguments, param :: parameters)
    else .error (.missingArgument param.name)

/-- The second loop. Each parameter takes its keyword out of `kwargs`. -/
def bindKeywords : List KernelParam → Dict PyValue → Dict PyValue →
    Except BindError (Dict PyValue)
  | [], [], arguments => .ok arguments
  | [], kw :: _, _ => .error (.unexpectedKeyword kw.1)
  | param :: parameters, kwargs, arguments =>
    match kwargs.lookup param.name with
    | some arg_val => bindKeywords parameters (kwargs.filter fun kw => kw.1 ≠ param.name)
        (setItem arguments param.name arg_val)
    | none =>
      if param.default.isSome then bindKeywords parameters kwargs arguments
      else .error (.missingArgument param.name)

/-- `Signature.bind` -/
def bind (parameters : List KernelParam) (args : List PyValue) (kwargs : Dict PyValue) :
    Except BindError (Dict PyValue) := do
  let (arguments, rest) ← bindPositional kwargs parameters args []
  bindKeywords rest kwargs arguments

/-- `BoundArguments.apply_defaults` -/
def apply_defaults (parameters : List KernelParam) (arguments : Dict PyValue) : Dict PyValue :=
  parameters.filterMap fun param =>
    ((arguments.lookup param.name).or param.default).map fun val => (param.name, val)

def values (parameters : List KernelParam) (arguments : Dict PyValue) : List PyValue :=
  (apply_defaults parameters arguments).map Prod.snd

end Signature

open Signature

section Values

variable {p : KernelParam} {ps : List KernelParam} {arguments : Dict PyValue} {v : PyValue}

theorem values_cons (h : (arguments.lookup p.name).or p.default = some v) :
    values (p :: ps) arguments = v :: values ps arguments := by
  rw [values, apply_defaults, filterMap_cons, h]
  rfl

theorem setItem_of_notMem {name : String} (h : name ∉ keys arguments) :
    setItem arguments name v = arguments ++ [(name, v)] :=
  if_neg h

theorem keys_append_singleton {name name' : String} :
    name' ∈ keys (arguments ++ [(name, v)]) ↔ name' ∈ keys arguments ∨ name' = name := by
  simp [keys]

end Values

section Congr

variable {ps : List KernelParam} {kwargs kwargs' : Dict PyValue}

theorem mem_keys_iff_lookup {name : String} :
    name ∈ keys kwargs ↔ (kwargs.lookup name).isSome := by
  induction kwargs with
  | nil => simp [keys]
  | cons kw kwargs ih =>
    rw [keys, map_cons, mem_cons, lookup_cons]
    by_cases h : name = kw.1
    · simp [h]
    · rw [beq_false_of_ne h]
      exact (or_iff_right h).trans ih

theorem bindArgs_congr (h : ∀ p ∈ ps, kwargs.lookup p.name = kwargs'.lookup p.name)
    (args : List PyValue) : bindArgs ps args kwargs = bindArgs ps args kwargs' := by
  induction ps generalizing args with
  | nil => cases args <;> rfl
  | cons p ps ih =>
    rw [forall_mem_cons] at h
    cases args with
    | nil => rw [bindArgs, bindArgs, h.1, ih h.2]
    | cons a args => simp only [bindArgs, mem_keys_iff_lookup, h.1, ih h.2]

theorem lookup_filter_ne {name name' : String} (h : name ≠ name') :
    (kwargs.filter fun kw => kw.1 ≠ name').lookup name = kwargs.lookup name := by
  induction kwargs with
  | nil => rfl
  | cons kw kwargs ih =>
    by_cases hkw : kw.1 = name'
    · rw [filter_cons_of_neg (by simpa using hkw), lookup_cons,
        beq_false_of_ne (hkw ▸ h), ih]
    · rw [filter_cons_of_pos (by simpa using hkw), lookup_cons, lookup_cons, ih]

theorem lookup_filter_mem {names : List String} {name : String} (h : name ∈ names) :
    (kwargs.filter fun kw => kw.1 ∈ names).lookup name = kwargs.lookup name := by
  induction kwargs with
  | nil => rfl
  | cons kw kwargs ih =>
    by_cases hkw : kw.1 ∈ names
    · rw [filter_cons_of_pos (by simpa using hkw), lookup_cons, lookup_cons, ih]
    · have hne : name ≠ kw.1 := fun heq => hkw (heq ▸ h)
      rw [filter_cons_of_neg (by simpa using hkw), lookup_cons, beq_false_of_ne hne, ih]

end Congr

section Bind

/-- The outcome of `bind` is that of the binder, and it leaves the arguments of
other names as they were. -/
def Agrees (ps : List KernelParam) (args : List PyValue) (kwargs arguments : Dict PyValue) :
    Except BindError (Dict PyValue) → Prop
  | .error _ => bindArgs ps args kwargs = none
  | .ok final => bindArgs ps args kwargs = some (values ps final) ∧
      ∀ name ∉ ps.map (·.name), final.lookup name = arguments.lookup name

variable {p : KernelParam} {ps : List KernelParam} {args : List PyValue}
  {kwargs arguments : Dict PyValue}

theorem Agrees.cons {args' : List PyValue} {kwargs' arguments' : Dict PyValue} {v : PyValue}
    {r : Except BindError (Dict PyValue)} (h : Agrees ps args' kwargs' arguments' r)
    (hname : p.name ∉ ps.map (·.name))
    (hbind : bindArgs (p :: ps) args kwargs = (bindArgs ps args' kwargs').map (v :: ·))
    (hvalue : (arguments'.lookup p.name).or p.default = some v)
    (hother : ∀ name, name ≠ p.name → arguments'.lookup name = arguments.lookup name) :
    Agrees (p :: ps) args kwargs arguments r := by
  cases r with
  | error e =>
    rw [Agrees] at h
    rw [Agrees, hbind, h]
    rfl
  | ok final =>
    rw [Agrees] at h
    rw [← h.2 p.name hname] at hvalue
    refine ⟨?_, fun name hmem => ?_⟩
    · rw [hbind, h.1, values_cons hvalue]
      rfl
    · rw [map_cons, mem_cons, not_or] at hmem
      rw [h.2 name hmem.2, hother name hmem.1]

theorem fresh_setItem {v : PyValue} (hname : p.name ∉ ps.map (·.name))
    (hfresh : ∀ q ∈ p :: ps, q.name ∉ keys arguments) :
    ∀ q ∈ ps, q.name ∉ keys (setItem arguments p.name v) := by
  rw [forall_mem_cons] at hfresh
  intro q hq hmem
  rw [setItem_of_notMem hfresh.1, keys_append_singleton] at hmem
  rcases hmem with hmem | heq
  · exact hfresh.2 q hq hmem
  · exact hname (heq ▸ mem_map_of_mem (f := (·.name)) hq)

theorem names_of_ne (hkw : ∀ kw ∈ kwargs, kw.1 ∈ (p :: ps).map (·.name))
    {rest : Dict PyValue} (hrest : ∀ kw ∈ rest, kw ∈ kwargs ∧ kw.1 ≠ p.name) :
    ∀ kw ∈ rest, kw.1 ∈ ps.map (·.name) := fun kw hmem =>
  (mem_cons.mp (hkw kw (hrest kw hmem).1)).resolve_left (hrest kw hmem).2

theorem bindKeywords_agrees (hnodup : (ps.map (·.name)).Nodup)
    (hfresh : ∀ q ∈ ps, q.name ∉ keys arguments) (hkw : ∀ kw ∈ kwargs, kw.1 ∈ ps.map (·.name)) :
    Agrees ps [] kwargs arguments (bindKeywords ps kwargs arguments) := by
  induction ps generalizing kwargs arguments with
  | nil =>
    cases kwargs with
    | nil => exact ⟨rfl, fun _ _ => rfl⟩
    | cons kw kwargs => exact absurd (hkw kw mem_cons_self) (by simp)
  | cons p ps ih =>
    rw [map_cons, nodup_cons] at hnodup
    have hp : p.name ∉ keys arguments := hfresh p mem_cons_self
    rw [bindKeywords]
    cases hlookup : kwargs.lookup p.name with
    | some v =>
      have hrest := @ih (kwargs.filter fun kw => kw.1 ≠ p.name) (setItem arguments p.name v)
        hnodup.2 (fresh_setItem hnodup.1 hfresh)
        (names_of_ne hkw fun kw hmem => by simpa using mem_filter.mp hmem)
      apply hrest.cons hnodup.1
      · have hother : ∀ q ∈ ps, q.name ≠ p.name := fun q hq heq =>
          hnodup.1 (heq ▸ mem_map_of_mem (f := (·.name)) hq)
        rw [bindArgs, hlookup, Option.some_or,
          bindArgs_congr fun q hq => lookup_filter_ne (hother q hq)]
      · rw [setItem_of_notMem hp, lookup_append_self hp, Option.some_or]
      · intro name hname
        rw [setItem_of_notMem hp, lookup_append_other hname]
    | none =>
      have hnot : p.name ∉ keys kwargs := by simp [mem_keys_iff_lookup, hlookup]
      cases hdefault : p.default with
      | none =>
        simp only [Option.isSome_none, Bool.false_eq_true, if_false]
        rw [Agrees, bindArgs, hlookup, hdefault]
        rfl
      | some v =>
        have hrest := @ih kwargs arguments hnodup.2 (fun q hq => hfresh q (mem_cons_of_mem _ hq))
          (names_of_ne hkw fun kw hmem => ⟨hmem, fun heq => hnot (heq ▸ mem_map_of_mem hmem)⟩)
        simp only [Option.isSome_some, if_true]
        apply hrest.cons hnodup.1
        · rw [bindArgs, hlookup, hdefault, Option.none_or]
        · rw [lookup_eq_none hp, hdefault, Option.none_or]
        · exact fun _ _ => rfl

theorem bindPositional_agrees (hnodup : (ps.map (·.name)).Nodup)
    (hfresh : ∀ q ∈ ps, q.name ∉ keys arguments) (hkw : ∀ kw ∈ kwargs, kw.1 ∈ ps.map (·.name)) :
    Agrees ps args kwargs arguments
      ((bindPositional kwargs ps args arguments).bind fun s => bindKeywords s.2 kwargs s.1) := by
  induction ps generalizing args arguments with
  | nil =>
    cases args with
    | nil => exact bindKeywords_agrees hnodup hfresh hkw
    | cons a args => rfl
  | cons p ps ih =>
    cases args with
    | nil =>
      rw [bindPositional]
      split_ifs with hlater
      · exact bindKeywords_agrees hnodup hfresh hkw
      · obtain ⟨hnot, hdefault⟩ := not_or.mp hlater
        rw [Option.not_isSome_iff_eq_none] at hdefault
        rw [Except.bind, Agrees, bindArgs, lookup_eq_none hnot, hdefault]
        rfl
    | cons a args =>
      have hp : p.name ∉ keys arguments := hfresh p mem_cons_self
      rw [bindPositional]
      split_ifs with htwice
      · rw [Except.bind, Agrees, bindArgs, if_pos htwice]
      · rw [map_cons, nodup_cons] at hnodup
        have hrest := @ih args (setItem arguments p.name a) hnodup.2
          (fresh_setItem hnodup.1 hfresh)
          (names_of_ne hkw fun kw hmem => ⟨hmem, fun heq => htwice (heq ▸ mem_map_of_mem hmem)⟩)
        apply hrest.cons hnodup.1
        · rw [bindArgs, if_neg htwice]
        · rw [setItem_of_notMem hp, lookup_append_self hp, Option.some_or]
        · intro name hname
          rw [setItem_of_notMem hp, lookup_append_other hname]

end Bind

section Normalize

variable {f : JITFunction} {args : List PyValue} {kwargs : Dict PyValue}

theorem normalizeLoop_isSome {rest : Dict PyValue} {n_args : ℕ}
    (h : ∀ kw ∈ rest, ∀ idx, f.names.idxOf? kw.1 = some idx → n_args ≤ idx)
    (full : List (Option PyValue)) (opt_kwargs : Dict PyValue) (filled : ℕ) :
    (f.normalizeLoop n_args rest full opt_kwargs filled).isSome = true := by
  induction rest generalizing full opt_kwargs filled with
  | nil => rfl
  | cons kw rest ih =>
    obtain ⟨name, v⟩ := kw
    rw [forall_mem_cons] at h
    rw [JITFunction.normalizeLoop]
    split
    · exact ih h.2 _ _ _
    · next idx hidx =>
      rw [if_neg (Nat.not_lt.mpr (h.1 idx hidx))]
      exact ih h.2 _ _ _

theorem bindArgs_surplus {ps : List KernelParam} (h : ps.length < args.length) :
    bindArgs ps args kwargs = none := by
  induction ps generalizing args with
  | nil =>
    cases args with
    | nil => exact absurd h (lt_irrefl _)
    | cons a args => rfl
  | cons p ps ih =>
    cases args with
    | nil => exact absurd h (Nat.not_lt_zero _)
    | cons a args =>
      rw [bindArgs, ih (Nat.lt_of_succ_lt_succ h)]
      split_ifs <;> rfl

theorem bindArgs_twice {ps : List KernelParam} {p : KernelParam} (hp : p ∈ ps.take args.length)
    (hname : p.name ∈ keys kwargs) : bindArgs ps args kwargs = none := by
  induction ps generalizing args with
  | nil => exact absurd hp (by simp)
  | cons q ps ih =>
    cases args with
    | nil => exact absurd hp (by simp)
    | cons a args =>
      rw [length_cons, take_succ_cons, mem_cons] at hp
      rw [bindArgs]
      split_ifs with hq
      · rfl
      · rcases hp with rfl | hp
        · exact absurd hname hq
        · rw [ih hp]
          rfl

theorem bindArgs_eq_none (h : f.normalize_args args kwargs = none)
    (hnodup : (keys kwargs).Nodup) : bindArgs f.params args kwargs = none := by
  unfold JITFunction.normalize_args at h
  split at h
  · next hlength => exact bindArgs_surplus hlength
  next hlength =>
  have hle : args.length ≤ f.params.length := Nat.not_lt.mp hlength
  by_cases hlater : ∀ kw ∈ kwargs, ∀ idx, f.names.idxOf? kw.1 = some idx → args.length ≤ idx
  · obtain ⟨⟨slots', opts', filled⟩, hloop⟩ :=
      Option.isSome_iff_exists.mp (normalizeLoop_isSome hlater _ _ _)
    obtain ⟨hmerged, -⟩ := normalizeLoop_merged (by simpa using hnodup) (merged_start hle) hloop
    rw [nil_append] at hmerged
    rw [hloop, Option.bind_some, Option.map_eq_none_iff] at h
    rwa [← bindArgs_slots hle (names_take hlater), ← hmerged.slots, ← hmerged.fill]
  · push Not at hlater
    obtain ⟨kw, hkw, idx, hidx, hlt⟩ := hlater
    obtain ⟨hbound, hget, -⟩ := List.idxOf?_eq_some_iff.mp hidx
    have hbound' : idx < f.params.length := by simpa [JITFunction.names] using hbound
    have hname : f.params[idx].name = kw.1 := by simpa [JITFunction.names] using hget
    apply bindArgs_twice (p := f.params[idx]) (mem_take_iff_getElem.mpr ⟨idx, by omega, rfl⟩)
    rw [hname]
    exact mem_map_of_mem hkw

/-- `_normalize_args` gives what `bind` and `apply_defaults` give, and fails where
`bind` raises. The keywords that are no parameters are collected. -/
theorem normalize_args_eq_bind (f : JITFunction) (args : List PyValue) (kwargs : Dict PyValue)
    (hnodup : (keys kwargs).Nodup) : f.normalize_args args kwargs =
      match bind f.params args (kwargs.filter fun kw => kw.1 ∈ f.names) with
      | .error _ => none
      | .ok arguments =>
        some (values f.params arguments, kwargs.filter fun kw => kw.1 ∉ f.names) := by
  have hagrees : Agrees f.params args (kwargs.filter fun kw => kw.1 ∈ f.names) []
      (bind f.params args (kwargs.filter fun kw => kw.1 ∈ f.names)) :=
    bindPositional_agrees f.names_nodup (fun _ _ => by simp [keys])
      fun kw hmem => of_decide_eq_true (mem_filter.mp hmem).2
  have hcongr : bindArgs f.params args (kwargs.filter fun kw => kw.1 ∈ f.names) =
      bindArgs f.params args kwargs :=
    bindArgs_congr (fun q hq => lookup_filter_mem (mem_map_of_mem hq)) args
  cases hnormal : f.normalize_args args kwargs with
  | none =>
    cases hbind : bind f.params args (kwargs.filter fun kw => kw.1 ∈ f.names) with
    | error e => rfl
    | ok arguments =>
      rw [hbind, Agrees, hcongr, bindArgs_eq_none hnormal hnodup] at hagrees
      cases hagrees.1
  | some full =>
    obtain ⟨values, opt_kwargs⟩ := full
    obtain ⟨hbinds, hopts⟩ := normalize_args_binds hnodup hnormal
    cases hbind : bind f.params args (kwargs.filter fun kw => kw.1 ∈ f.names) with
    | error e =>
      rw [hbind, Agrees, hcongr, hbinds] at hagrees
      cases hagrees
    | ok arguments =>
      rw [hbind, Agrees, hcongr, hbinds] at hagrees
      have hvalues := Option.some.inj hagrees.1
      simp only [← hvalues, ← hopts]

def blockKernel : JITFunction where
  params := [⟨0, "x", "", none, false, false⟩, ⟨1, "n", "", none, false, false⟩,
    ⟨2, "BLOCK", "constexpr", some (.int 64), false, false⟩]
  names_nodup := by decide
  nums := rfl

/-- One argument by position, one by keyword, a default and an option. -/
theorem normalize_args_eq_bind_blockKernel :
    blockKernel.normalize_args [.int 1] [("debug", .bool true), ("n", .int 2)] =
      match bind blockKernel.params [.int 1] ([("debug", .bool true), ("n", .int 2)].filter
        fun kw => kw.1 ∈ blockKernel.names) with
      | .error _ => none
      | .ok arguments => some (values blockKernel.params arguments,
          [("debug", .bool true), ("n", .int 2)].filter fun kw => kw.1 ∉ blockKernel.names) :=
  normalize_args_eq_bind blockKernel [.int 1] [("debug", .bool true), ("n", .int 2)] (by decide)

end Normalize

end TritonCpu.JIT
