import TritonCpu.KernelCache

/-!
# The fast path of a kernel call

`run` keeps the fingerprint of the last call it found in the cache, and gives a
call with an equal fingerprint the same kernel. Arguments are merged first, as
the binder would bind them.
-/

set_option autoImplicit false

namespace TritonCpu.JIT

open Python PythonRepr
open List hiding keys

/-- An entry of a fingerprint: a tensor's `dtype` and alignment, the type and value of
another argument, or the same of an option, whose type is left out. -/
inductive FpItem where
  | tensor (dtype : String) (aligned : Bool)
  | typed (type : PyType) (v : PyValue)
  | optionTensor (name dtype : String) (aligned : Bool)
  | option (name : String) (v : PyValue)

def aligned (t : Tensor) : Bool := t.data_ptr &&& 15 == 0

def argumentItem : PyValue → FpItem
  | .tensor t => .tensor t.dtype (aligned t)
  | v => .typed v.type v

def optionItem (option : String × PyValue) : FpItem :=
  match option.2 with
  | .tensor t => .optionTensor option.1 t.dtype (aligned t)
  | v => .option option.1 v

variable (py : Interpreter)

def FpItem.eq : FpItem → FpItem → Bool
  | .tensor a p, .tensor b q => a == b && p == q
  | .typed a v, .typed b w => a == b && v.eq py w
  | .optionTensor m a p, .optionTensor n b q => m == n && (a == b && p == q)
  | .option m v, .option n w => m == n && v.eq py w
  | _, _ => false

abbrev Fingerprint := List FpItem

/-- `==` of tuples. -/
def Fingerprint.eq : Fingerprint → Fingerprint → Bool
  | [], [] => true
  | a :: l, b :: r => a.eq py b && Fingerprint.eq l r
  | _, _ => false

namespace JITFunction

variable (f : JITFunction)

/-- The loop of `_normalize_args` over the keywords. A parameter that has a positional
argument too makes it give up. -/
def normalizeLoop (n_args : ℕ) : Dict PyValue → List (Option PyValue) → Dict PyValue → ℕ →
    Option (List (Option PyValue) × Dict PyValue × ℕ)
  | [], full, opt_kwargs, filled => some (full, opt_kwargs, filled)
  | (name, value) :: kwargs, full, opt_kwargs, filled =>
    match f.names.idxOf? name with
    | none => normalizeLoop n_args kwargs full (opt_kwargs ++ [(name, value)]) filled
    | some idx =>
      if idx < n_args then none
      else normalizeLoop n_args kwargs (full.set idx (some value)) opt_kwargs
        (if full[idx]?.join.isNone then filled + 1 else filled)

/-- Positional arguments, keywords and defaults in one tuple, and the other keywords. -/
def normalize_args (args : List PyValue) (kwargs : Dict PyValue) :
    Option (List PyValue × Dict PyValue) :=
  if f.params.length < args.length then none
  else
    (f.normalizeLoop args.length kwargs
      (args.map some ++ List.replicate (f.params.length - args.length) none) [] args.length).bind
      fun (full, opt_kwargs, filled) =>
        (if filled = f.params.length then full.mapM id
          else (f.params.zip full).mapM fun slot => slot.2.or slot.1.default).map
          fun full_args => (full_args, opt_kwargs)

/-- The merged arguments of a call. With all parameters passed by position the
keywords are taken for options as they are. -/
def full_args (args : List PyValue) (kwargs : Dict PyValue) :
    Option (List PyValue × Dict PyValue) :=
  if args.length = f.params.length then some (args, kwargs) else f.normalize_args args kwargs

end JITFunction

def fingerprint (full : List PyValue × Dict PyValue) : Fingerprint :=
  full.1.map argumentItem ++ (sortedItems full.2).map optionItem

/-- The last call found in the cache. `origin` is the call's merged arguments, which
`run` does not keep. -/
structure Fast (Kernel : Type) where
  fp : Fingerprint
  kernel : Kernel
  origin : List PyValue × Dict PyValue

/-- The kernels of a device, by their keys, and the fast path's entry. -/
structure State (Kernel : Type) where
  cache : List (List Char × Kernel)
  fast : Option (Fast Kernel)

variable {Kernel : Type} (env : Environment) (cached_debug : Bool) (f : JITFunction)
  (compile : CompileInputs → Option Kernel)

def fastHit (s : State Kernel) (full : Option (List PyValue × Dict PyValue)) :
    Option (Fast Kernel) :=
  s.fast.filter fun fast =>
    match full with
    | some full => Fingerprint.eq py (fingerprint full) fast.fp
    | none => false

/-- The binder path: a cached kernel, or a new one. Whatever raises, or a hook that
declines the compilation, leaves the state. -/
def slowPath (s : State Kernel) (args : List PyValue) (kwargs : Dict PyValue)
    (full : Option (List PyValue × Dict PyValue)) : State Kernel × Option Kernel :=
  match f.dynamic_func args kwargs with
  | none => (s, none)
  | some b =>
    match s.cache.lookup (b.key py) with
    | some kernel =>
      match full with
      | some full => ({ s with fast := some ⟨fingerprint full, kernel, full⟩ }, some kernel)
      | none => (s, some kernel)
    | none =>
      match (f.compileInputs env kwargs b).bind compile with
      | some kernel => ({ s with cache := (b.key py, kernel) :: s.cache }, some kernel)
      | none => (s, none)

/-- `JITFunction.run`, up to the launch: the state after it and the kernel. -/
def run (s : State Kernel) (call : Call) : State Kernel × Option Kernel :=
  let kwargs := setDebug py cached_debug call.kwargs
  let full := f.full_args call.args kwargs
  match fastHit py s full with
  | some fast => (s, some fast.kernel)
  | none => slowPath py env f compile s call.args kwargs full

def reached (calls : List Call) : State Kernel :=
  calls.foldl (fun s call => (run py env cached_debug f compile s call).1) ⟨[], none⟩

section Merging

/-- The slots of the parameters once some keywords have been merged. -/
def slots : List KernelParam → List PyValue → Dict PyValue → List (Option PyValue)
  | [], _, _ => []
  | _ :: ps, a :: args, d => some a :: slots ps args d
  | p :: ps, [], d => d.lookup p.name :: slots ps [] d

variable {ps : List KernelParam} {args : List PyValue} {d : Dict PyValue} {name : String}
  {v : PyValue}

theorem slots_start (h : args.length ≤ ps.length) :
    slots ps args [] = args.map some ++ List.replicate (ps.length - args.length) none := by
  induction ps generalizing args with
  | nil =>
    rw [length_nil, Nat.le_zero, length_eq_zero_iff] at h
    subst h
    rfl
  | cons p ps ih =>
    cases args with
    | nil => simpa [slots, replicate_succ] using @ih [] (by simp)
    | cons a args =>
      simp only [length_cons, Nat.add_le_add_iff_right] at h
      simp [slots, ih h]

theorem length_slots : (slots ps args d).length = ps.length := by
  induction ps generalizing args with
  | nil => rfl
  | cons p ps ih => cases args <;> simp [slots, ih]

theorem lookup_append_other {name' : String} (h : name' ≠ name) :
    (d ++ [(name, v)]).lookup name' = d.lookup name' := by
  induction d with
  | nil =>
    rw [nil_append, lookup_cons, beq_false_of_ne h]
  | cons kw d ih => rw [cons_append, lookup_cons, lookup_cons, ih]

theorem lookup_append_self (h : name ∉ keys d) : (d ++ [(name, v)]).lookup name = some v := by
  induction d with
  | nil => simp
  | cons kw d ih =>
    simp only [keys, map_cons, mem_cons, not_or] at h
    rw [cons_append, lookup_cons, beq_false_of_ne h.1]
    exact ih h.2

theorem lookup_eq_none (h : name ∉ keys d) : d.lookup name = none := by
  induction d with
  | nil => rfl
  | cons kw d ih =>
    simp only [keys, map_cons, mem_cons, not_or] at h
    rw [lookup_cons, beq_false_of_ne h.1]
    exact ih h.2

theorem slots_other (h : name ∉ ps.map (·.name)) :
    slots ps args (d ++ [(name, v)]) = slots ps args d := by
  induction ps generalizing args with
  | nil => rfl
  | cons p ps ih =>
    simp only [map_cons, mem_cons, not_or] at h
    cases args with
    | nil => rw [slots, slots, lookup_append_other (Ne.symm h.1), ih h.2]
    | cons a args => rw [slots, slots, ih h.2]

theorem slots_named {idx : ℕ} (hnodup : (ps.map (·.name)).Nodup) (hname : name ∉ keys d)
    (hidx : (ps.map (·.name)).idxOf? name = some idx) (hle : args.length ≤ idx) :
    (slots ps args d)[idx]? = some none ∧
      slots ps args (d ++ [(name, v)]) = (slots ps args d).set idx (some v) := by
  induction ps generalizing args idx with
  | nil => simp at hidx
  | cons p ps ih =>
    rw [map_cons, nodup_cons] at hnodup
    rw [map_cons, List.idxOf?_cons] at hidx
    by_cases hp : p.name = name
    · rw [if_pos (by simpa using hp)] at hidx
      obtain rfl := Option.some.inj hidx
      obtain rfl := length_eq_zero_iff.mp (Nat.le_zero.mp hle)
      rw [hp] at hnodup
      rw [slots, slots, hp, lookup_append_self hname, lookup_eq_none hname, slots_other hnodup.1]
      exact ⟨rfl, rfl⟩
    · rw [if_neg (by simpa using hp)] at hidx
      obtain ⟨idx', hidx', rfl⟩ := Option.map_eq_some_iff.mp hidx
      cases args with
      | nil =>
        obtain ⟨hnone, hset⟩ := @ih [] _ hnodup.2 hidx' (by simp)
        rw [slots, slots, lookup_append_other hp, hset]
        exact ⟨hnone, rfl⟩
      | cons a args =>
        simp only [length_cons, Nat.add_le_add_iff_right] at hle
        obtain ⟨hnone, hset⟩ := ih hnodup.2 hidx' hle
        rw [slots, slots, hset]
        exact ⟨hnone, rfl⟩

/-- What the loop has merged, and how many slots are filled. -/
structure Merged (f : JITFunction) (args : List PyValue) (d : Dict PyValue)
    (full : List (Option PyValue)) (opt_kwargs : Dict PyValue) (filled : ℕ) : Prop where
  slots : full = slots f.params args d
  options : opt_kwargs = d.filter fun kw => kw.1 ∉ f.names
  filled : filled = full.countP Option.isSome

theorem Merged.other {f : JITFunction} {full : List (Option PyValue)} {opt_kwargs : Dict PyValue}
    {filled : ℕ} (h : Merged f args d full opt_kwargs filled) (hname : name ∉ f.names) :
    Merged f args (d ++ [(name, v)]) full (opt_kwargs ++ [(name, v)]) filled where
  slots := by rw [slots_other hname, h.slots]
  options := by simp [h.options, hname]
  filled := h.filled

theorem Merged.named {f : JITFunction} {full : List (Option PyValue)} {opt_kwargs : Dict PyValue}
    {filled idx : ℕ} (h : Merged f args d full opt_kwargs filled) (hkey : name ∉ keys d)
    (hidx : f.names.idxOf? name = some idx) (hle : args.length ≤ idx) :
    Merged f args (d ++ [(name, v)]) (full.set idx (some v)) opt_kwargs
      (if full[idx]?.join.isNone then filled + 1 else filled) := by
  obtain ⟨hnone, hset⟩ := slots_named (v := v) f.names_nodup hkey hidx hle
  rw [← h.slots] at hnone hset
  obtain ⟨hbound, hget⟩ := List.getElem?_eq_some_iff.mp hnone
  have hmem : name ∈ f.names := by
    by_contra hnot
    rw [List.idxOf?_eq_none_iff.mpr hnot] at hidx
    simp at hidx
  refine ⟨hset.symm, by simp [h.options, hmem], ?_⟩
  rw [countP_set hbound, hget, hnone, h.filled]
  simp

/-- The loop merges all keywords, and none of them names a parameter that has a
positional argument. -/
theorem normalizeLoop_merged {f : JITFunction} {rest : Dict PyValue}
    {full full' : List (Option PyValue)} {opt_kwargs opt_kwargs' : Dict PyValue}
    {filled filled' : ℕ} (hnodup : (keys (d ++ rest)).Nodup)
    (h : Merged f args d full opt_kwargs filled)
    (hloop : f.normalizeLoop args.length rest full opt_kwargs filled =
      some (full', opt_kwargs', filled')) :
    Merged f args (d ++ rest) full' opt_kwargs' filled' ∧
      ∀ kw ∈ rest, ∀ idx, f.names.idxOf? kw.1 = some idx → args.length ≤ idx := by
  induction rest generalizing d full opt_kwargs filled with
  | nil =>
    simp only [JITFunction.normalizeLoop, Option.some.injEq, Prod.mk.injEq] at hloop
    obtain ⟨rfl, rfl, rfl⟩ := hloop
    exact ⟨by rwa [append_nil], by simp⟩
  | cons kw rest ih =>
    obtain ⟨name, v⟩ := kw
    have hassoc : d ++ (name, v) :: rest = (d ++ [(name, v)]) ++ rest := by simp
    rw [hassoc] at hnodup ⊢
    rw [JITFunction.normalizeLoop] at hloop
    split at hloop
    · next hnone =>
      have hname : name ∉ f.names := List.idxOf?_eq_none_iff.mp hnone
      obtain ⟨hmerged, hlater⟩ := ih hnodup (h.other hname) hloop
      refine ⟨hmerged, forall_mem_cons.mpr ⟨fun idx hidx => ?_, hlater⟩⟩
      rw [hnone] at hidx
      simp at hidx
    · next idx hidx =>
      split at hloop
      · simp at hloop
      · next hle =>
        have hkey : name ∉ keys d := by
          intro hmem
          simp only [keys, map_append, map_cons, map_nil] at hnodup
          have hdisjoint := disjoint_of_nodup_append (nodup_append.mp hnodup).1
          exact hdisjoint hmem (by simp)
        obtain ⟨hmerged, hlater⟩ := ih hnodup (h.named hkey hidx (Nat.not_lt.mp hle)) hloop
        refine ⟨hmerged, forall_mem_cons.mpr ⟨fun idx' hidx' => ?_, hlater⟩⟩
        rw [hidx, Option.some.injEq] at hidx'
        exact hidx' ▸ Nat.not_lt.mp hle

theorem bindArgs_slots (hlength : args.length ≤ ps.length)
    (h : ∀ p ∈ ps.take args.length, p.name ∉ keys d) :
    (ps.zip (slots ps args d)).mapM (fun slot => slot.2.or slot.1.default) =
      bindArgs ps args d := by
  induction ps generalizing args with
  | nil =>
    rw [length_nil, Nat.le_zero, length_eq_zero_iff] at hlength
    subst hlength
    rfl
  | cons p ps ih =>
    cases args with
    | nil =>
      have hrest := @ih [] (by simp) (by simp)
      rw [slots, bindArgs, zip_cons_cons, mapM_cons, hrest]
      cases (d.lookup p.name).or p.default with
      | none => rfl
      | some v => cases bindArgs ps [] d <;> rfl
    | cons a args =>
      simp only [length_cons, Nat.add_le_add_iff_right] at hlength
      rw [length_cons, take_succ_cons, forall_mem_cons] at h
      rw [slots, bindArgs, if_neg h.1, zip_cons_cons, mapM_cons, ih hlength h.2]
      cases bindArgs ps args d <;> rfl

theorem mapM_full {full : List (Option PyValue)} (hlength : full.length = ps.length)
    (h : ∀ slot ∈ full, slot.isSome = true) :
    full.mapM id = (ps.zip full).mapM fun slot => slot.2.or slot.1.default := by
  induction full generalizing ps with
  | nil => simp
  | cons slot full ih =>
    cases ps with
    | nil => simp at hlength
    | cons p ps =>
      rw [forall_mem_cons] at h
      obtain ⟨v, rfl⟩ := Option.isSome_iff_exists.mp h.1
      rw [mapM_cons, zip_cons_cons, mapM_cons, ih (by simpa using hlength) h.2]
      rfl

end Merging

section Binding

variable {f : JITFunction} {args : List PyValue} {kwargs : Dict PyValue} {full : List PyValue}
  {opt_kwargs : Dict PyValue}

theorem names_take {n : ℕ} {kwargs : Dict PyValue}
    (h : ∀ kw ∈ kwargs, ∀ idx, f.names.idxOf? kw.1 = some idx → n ≤ idx) :
    ∀ p ∈ f.params.take n, p.name ∉ keys kwargs := by
  intro p hp hmem
  obtain ⟨kw, hkw, hname⟩ := mem_map.mp hmem
  have htake : kw.1 ∈ f.names.take n := by
    rw [hname, JITFunction.names, ← map_take]
    exact mem_map_of_mem hp
  obtain ⟨i, hi, hget⟩ := mem_take_iff_getElem.mp htake
  obtain ⟨j, hj⟩ := Option.isSome_iff_exists.mp (isSome_idxOf?.mpr (mem_of_mem_take htake))
  obtain ⟨_, _, hfirst⟩ := List.idxOf?_eq_some_iff.mp hj
  have hle := h kw hkw j hj
  exact hfirst i (by omega) hget

theorem merged_start (hle : args.length ≤ f.params.length) :
    Merged f args [] (args.map some ++ List.replicate (f.params.length - args.length) none) []
      args.length where
  slots := (slots_start hle).symm
  options := rfl
  filled := by
    simp [countP_append, countP_map, countP_replicate, Function.comp_def]

theorem Merged.fill {full : List (Option PyValue)} {filled : ℕ}
    (h : Merged f args kwargs full opt_kwargs filled) :
    (if filled = f.params.length then full.mapM id
      else (f.params.zip full).mapM fun slot => slot.2.or slot.1.default) =
        (f.params.zip full).mapM fun slot => slot.2.or slot.1.default := by
  have hslots : full.length = f.params.length := by rw [h.slots, length_slots]
  split
  · next hall =>
    apply mapM_full hslots
    rw [← countP_eq_length, ← h.filled, hall, hslots]
  · rfl

theorem normalize_args_binds (hnodup : (keys kwargs).Nodup)
    (h : f.normalize_args args kwargs = some (full, opt_kwargs)) :
    bindArgs f.params args kwargs = some full ∧
      opt_kwargs = kwargs.filter fun kw => kw.1 ∉ f.names := by
  unfold JITFunction.normalize_args at h
  split at h
  · simp at h
  next hlength =>
  have hle : args.length ≤ f.params.length := Nat.not_lt.mp hlength
  obtain ⟨⟨slots', opts', filled⟩, hloop, hrest⟩ := Option.bind_eq_some_iff.mp h
  obtain ⟨hmerged, hnames⟩ := normalizeLoop_merged (by simpa using hnodup) (merged_start hle) hloop
  rw [nil_append] at hmerged
  obtain ⟨full', hfull, heq⟩ := Option.map_eq_some_iff.mp hrest
  rw [Prod.mk.injEq] at heq
  obtain ⟨rfl, rfl⟩ := heq
  refine ⟨?_, hmerged.options⟩
  rw [← bindArgs_slots hle (names_take hnames), ← hmerged.slots, ← hfull, hmerged.fill]

end Binding

end TritonCpu.JIT
