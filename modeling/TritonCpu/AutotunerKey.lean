import Mathlib.Tactic.SplitIfs
import TritonCpu.MapVector
import TritonCpu.Memo

/-!
# The key of a tuned call

The configuration that a call was tuned to is kept under a flat tuple: the values of
the key parameters that the call passes, then the dtypes of the arguments that have
one, in the order in which they were passed. No name is part of it.
-/

set_option autoImplicit false

namespace TritonCpu.Tuning

open List

/-- A value up to `==`. -/
inductive Value (Object : Type) where
  | str (s : String)
  | object (o : Object)
  deriving DecidableEq, Repr

/-- What the key reads of an argument: its value, and the text of its `dtype` if it has
that attribute. -/
structure Arg (Object : Type) where
  value : Value Object
  dtype : Option String
  deriving DecidableEq, Repr

structure Call (Object : Type) where
  args : List (Arg Object)
  kwargs : MapVector (Arg Object)
  deriving DecidableEq, Repr

structure Autotuner where
  arg_names : List String
  keys : List String
  deriving DecidableEq, Repr

variable {Object : Type}

section Key

variable (tuner : Autotuner) (call : Call Object)

namespace Autotuner

def nargs : MapVector (Arg Object) :=
  MapVector.build (fun _ arg => arg) (tuner.arg_names.zip call.args)

/-- `{**self.nargs, **kwargs}` -/
def allArgs : MapVector (Arg Object) :=
  call.kwargs.entries.foldl (fun m e => m.modify e.1 fun _ => e.2) (tuner.nargs call)

/-- The arguments of parameters: `_args`. -/
def namedArgs : MapVector (Arg Object) :=
  (tuner.allArgs call).filterKeys fun name => tuner.arg_names.contains name

def valueOf (name : String) : Option (Value Object) :=
  ((tuner.namedArgs call).find name).map Arg.value

def dtypeOf (name : String) : Option String := ((tuner.namedArgs call).find name).bind Arg.dtype

def key : List (Value Object) :=
  (tuner.keys.filterMap fun name => ((tuner.namedArgs call).find name).map Arg.value) ++
    (tuner.namedArgs call).values.filterMap fun arg => arg.dtype.map .str

def presentKeys : List String := tuner.keys.filter fun name => (tuner.valueOf call name).isSome

/-- The parameters that the call passes an argument with a dtype for, in the order of
the arguments. -/
def tensorParams : List String :=
  (tuner.namedArgs call).keys.filter fun name => (tuner.dtypeOf call name).isSome

/-- Two calls pass the same parameters in the same order, with a dtype for the same ones. -/
def form : MapVector Bool := (tuner.namedArgs call).mapValues fun arg => arg.dtype.isSome

end Autotuner

/-- The key parameters have the same values, and the parameters the same dtypes. -/
structure SameSituation (tuner : Autotuner) (call call' : Call Object) : Prop where
  value_eq : ∀ name ∈ tuner.keys, tuner.valueOf call name = tuner.valueOf call' name
  dtype_eq : ∀ name, tuner.dtypeOf call name = tuner.dtypeOf call' name

/-- Either the keys differ in length, or both calls pass the same key parameters, and
arguments with a dtype for the same parameters in the same order. -/
def KeysMatch (tuner : Autotuner) (call call' : Call Object) : Prop :=
  (tuner.presentKeys call).length + (tuner.tensorParams call).length ≠
      (tuner.presentKeys call').length + (tuner.tensorParams call').length ∨
    tuner.presentKeys call = tuner.presentKeys call' ∧
      tuner.tensorParams call = tuner.tensorParams call'

end Key

section Lists

variable {α β : Type} {f g : α → Option β} {l : List α}

theorem filterMap_filter_isSome (f : α → Option β) (l : List α) :
    (l.filter fun a => (f a).isSome).filterMap f = l.filterMap f := by
  induction l with
  | nil => rfl
  | cons a l ih =>
    cases h : f a with
    | none => rw [filter_cons_of_neg (by simp [h]), filterMap_cons_none h, ih]
    | some b => rw [filter_cons_of_pos (by simp [h]), filterMap_cons_some h,
        filterMap_cons_some h, ih]

theorem length_filterMap_filter (f : α → Option β) (l : List α) :
    (l.filterMap f).length = (l.filter fun a => (f a).isSome).length := by
  rw [length_filterMap_eq_countP, countP_eq_length_filter]

theorem eq_of_filterMap_eq (hsome : ∀ a ∈ l, (f a).isSome = (g a).isSome)
    (h : l.filterMap f = l.filterMap g) : ∀ a ∈ l, f a = g a := by
  induction l with
  | nil => exact fun a ha => absurd ha not_mem_nil
  | cons b l ih =>
    have hhead := hsome b mem_cons_self
    have htail := fun a ha => hsome a (mem_cons_of_mem b ha)
    intro a ha
    cases hf : f b with
    | none =>
      have hg : g b = none := by
        rw [hf] at hhead
        exact Option.isNone_iff_eq_none.mp (by simpa using hhead.symm)
      rw [filterMap_cons_none hf, filterMap_cons_none hg] at h
      rcases mem_cons.mp ha with rfl | ha
      · rw [hf, hg]
      · exact ih htail h a ha
    | some x =>
      obtain ⟨y, hg⟩ : ∃ y, g b = some y := by
        rw [hf] at hhead
        exact Option.isSome_iff_exists.mp hhead.symm
      rw [filterMap_cons_some hf, filterMap_cons_some hg] at h
      obtain ⟨hxy, hrest⟩ := List.cons.inj h
      rcases mem_cons.mp ha with rfl | ha
      · rw [hf, hg, hxy]
      · exact ih htail hrest a ha

theorem isSome_congr_of_filter {l' : List α}
    (h : (l.filter fun a => (f a).isSome) = l'.filter fun a => (g a).isSome) {a : α} (ha : a ∈ l)
    (ha' : a ∈ l') : (f a).isSome = (g a).isSome := by
  have hiff : a ∈ (l.filter fun a => (f a).isSome) ↔ a ∈ l'.filter fun a => (g a).isSome := by rw [h]
  rw [mem_filter, mem_filter, and_iff_right ha, and_iff_right ha'] at hiff
  exact Bool.eq_iff_iff.mpr hiff

end Lists

section Sound

variable {tuner : Autotuner} {call call' : Call Object}

theorem namedArgs_dtypes (call : Call Object) :
    ((tuner.namedArgs call).values.filterMap fun arg => arg.dtype.map (.str : String → Value Object)) =
      ((tuner.tensorParams call).filterMap (tuner.dtypeOf call)).map .str := by
  rw [Autotuner.tensorParams, filterMap_filter_isSome, MapVector.values, MapVector.keys,
    filterMap_map, filterMap_map, map_filterMap]
  apply filterMap_congr
  intro entry hentry
  have hfind : (tuner.namedArgs call).find entry.1 = some entry.2 := MapVector.find_of_mem hentry
  simp only [Function.comp_apply, Autotuner.dtypeOf, hfind, Option.bind_some]

theorem key_eq (call : Call Object) : tuner.key call =
    (tuner.presentKeys call).filterMap (tuner.valueOf call) ++
      ((tuner.tensorParams call).filterMap (tuner.dtypeOf call)).map .str := by
  rw [Autotuner.key, namedArgs_dtypes, Autotuner.presentKeys, filterMap_filter_isSome]
  rfl

theorem length_presentKeys (call : Call Object) :
    ((tuner.presentKeys call).filterMap (tuner.valueOf call)).length =
      (tuner.presentKeys call).length := by
  rw [Autotuner.presentKeys, filterMap_filter_isSome, length_filterMap_filter]

theorem length_tensorParams (call : Call Object) :
    (((tuner.tensorParams call).filterMap (tuner.dtypeOf call)).map
      (.str : String → Value Object)).length = (tuner.tensorParams call).length := by
  rw [length_map, Autotuner.tensorParams, filterMap_filter_isSome, length_filterMap_filter]

theorem length_key (call : Call Object) : (tuner.key call).length =
    (tuner.presentKeys call).length + (tuner.tensorParams call).length := by
  rw [key_eq, length_append, length_presentKeys, length_tensorParams]

theorem dtypeOf_of_notMem {name : String} (h : name ∉ tuner.tensorParams call) :
    tuner.dtypeOf call name = none := by
  by_cases hname : name ∈ (tuner.namedArgs call).keys
  · rw [Autotuner.tensorParams, mem_filter, not_and] at h
    have hnone := h hname
    simpa using hnone
  · rw [Autotuner.dtypeOf, MapVector.find_eq_none hname]
    rfl

theorem sameSituation_of_key_eq (hmatch : KeysMatch tuner call call')
    (h : tuner.key call = tuner.key call') : SameSituation tuner call call' := by
  have hlen := congrArg List.length h
  rw [length_key, length_key] at hlen
  obtain ⟨hkeys, htensors⟩ := hmatch.resolve_left fun hne => hne hlen
  rw [key_eq, key_eq] at h
  have hsplit := append_inj h (by rw [length_presentKeys, length_presentKeys, hkeys])
  constructor
  · have hfilter : tuner.keys.filterMap (tuner.valueOf call) =
        tuner.keys.filterMap (tuner.valueOf call') := by
      have hvalues := hsplit.1
      rwa [Autotuner.presentKeys, Autotuner.presentKeys, filterMap_filter_isSome,
        filterMap_filter_isSome] at hvalues
    exact eq_of_filterMap_eq (fun name hname => isSome_congr_of_filter hkeys hname hname) hfilter
  · intro name
    by_cases hname : name ∈ tuner.tensorParams call
    · have hdtypes := (map_injective_iff.mpr fun _ _ hstr => Value.str.inj hstr) hsplit.2
      rw [← htensors] at hdtypes
      refine eq_of_filterMap_eq (fun param hparam => ?_) hdtypes name hname
      have hparam' : param ∈ tuner.tensorParams call' := htensors ▸ hparam
      rw [(mem_filter.mp hparam).2, (mem_filter.mp hparam').2]
    · rw [dtypeOf_of_notMem hname, dtypeOf_of_notMem (htensors ▸ hname)]

end Sound

section Form

variable (tuner : Autotuner) (call : Call Object)

/-- The same parameters in the same order, passed by keyword: every value is the string
`text`, and a parameter that has a dtype has the given one. -/
def refill (text : String) (dtype : String → String) : Call Object where
  args := []
  kwargs := (tuner.namedArgs call).mapEntries fun name arg =>
    ⟨.str text, if arg.dtype.isSome then some (dtype name) else none⟩

variable {tuner call} {text : String} {dtype : String → String}

theorem namedArgs_refill : tuner.namedArgs (refill tuner call text dtype) =
    (refill tuner call text dtype).kwargs := by
  have hall : tuner.allArgs (refill tuner call text dtype) = (refill tuner call text dtype).kwargs := by
    have hnargs : tuner.nargs (refill tuner call text dtype) = MapVector.empty := by
      rw [Autotuner.nargs, refill, zip_nil_right]
      rfl
    rw [Autotuner.allArgs, hnargs]
    apply MapVector.ext
    change (MapVector.build (fun _ arg => arg) (refill tuner call text dtype).kwargs.entries).entries
      = _
    rw [MapVector.entries_build _ (refill tuner call text dtype).kwargs.nodup]
    exact map_id _
  rw [Autotuner.namedArgs, hall]
  apply MapVector.ext
  change List.filter _ _ = _
  rw [filter_eq_self]
  intro entry hentry
  have hname : entry.1 ∈ (tuner.namedArgs call).keys := by
    have hmem := mem_map_of_mem (f := Prod.fst) hentry
    rwa [refill, ← MapVector.keys, MapVector.keys_mapEntries] at hmem
  rw [Autotuner.namedArgs, MapVector.keys_filterKeys] at hname
  exact (mem_filter.mp hname).2

theorem form_refill : tuner.form (refill tuner call text dtype) = tuner.form call := by
  rw [Autotuner.form, namedArgs_refill]
  apply MapVector.ext
  change List.map _ (List.map _ _) = List.map _ _
  rw [map_map]
  apply map_congr_left
  intro entry _
  simp only [Function.comp_apply]
  cases entry.2.dtype <;> rfl

theorem find_refill (name : String) : (tuner.namedArgs (refill tuner call text dtype)).find name =
    ((tuner.namedArgs call).find name).map fun arg =>
      ⟨.str text, if arg.dtype.isSome then some (dtype name) else none⟩ := by
  rw [namedArgs_refill, refill, MapVector.find_mapEntries]

theorem valueOf_refill (name : String) : tuner.valueOf (refill tuner call text dtype) name =
    (tuner.valueOf call name).map fun _ => .str text := by
  rw [Autotuner.valueOf, Autotuner.valueOf, find_refill, Option.map_map, Option.map_map]
  rfl

theorem dtypeOf_refill (name : String) : tuner.dtypeOf (refill tuner call text dtype) name =
    (tuner.dtypeOf call name).map fun _ => dtype name := by
  rw [Autotuner.dtypeOf, Autotuner.dtypeOf, find_refill]
  cases (tuner.namedArgs call).find name with
  | none => rfl
  | some arg => cases h : arg.dtype <;> simp [h]

theorem presentKeys_refill :
    tuner.presentKeys (refill tuner call text dtype) = tuner.presentKeys call := by
  rw [Autotuner.presentKeys, Autotuner.presentKeys]
  simp only [valueOf_refill, Option.isSome_map]

theorem tensorParams_refill :
    tuner.tensorParams (refill tuner call text dtype) = tuner.tensorParams call := by
  rw [Autotuner.tensorParams, Autotuner.tensorParams]
  simp only [dtypeOf_refill, Option.isSome_map, namedArgs_refill]
  rw [refill, MapVector.keys_mapEntries]

theorem key_refill : tuner.key (refill tuner call text dtype) =
    List.replicate (tuner.presentKeys call).length (.str text) ++
      (tuner.tensorParams call).map fun name => .str (dtype name) := by
  rw [key_eq, presentKeys_refill, tensorParams_refill]
  congr 1
  · have hvalues : ∀ name ∈ tuner.presentKeys call,
        tuner.valueOf (refill tuner call text dtype) name = some (.str text) := by
      intro name hname
      obtain ⟨value, hvalue⟩ := Option.isSome_iff_exists.mp (mem_filter.mp hname).2
      rw [valueOf_refill, hvalue]
      rfl
    rw [filterMap_congr hvalues, ← map_const', ← filterMap_eq_map]
    rfl
  · have hdtypes : ∀ name ∈ tuner.tensorParams call,
        tuner.dtypeOf (refill tuner call text dtype) name = some (dtype name) := by
      intro name hname
      obtain ⟨old, hold⟩ := Option.isSome_iff_exists.mp (mem_filter.mp hname).2
      rw [dtypeOf_refill, hold]
      rfl
    rw [filterMap_congr hdtypes, ← Function.comp_def, filterMap_eq_map, map_map]
    rfl

end Form

section Exact

variable {tuner : Autotuner} {call call' : Call Object}

theorem presentKeys_of_form (h : tuner.form call = tuner.form call') :
    tuner.presentKeys call = tuner.presentKeys call' := by
  have hsome : ∀ (c : Call Object) name,
      (tuner.valueOf c name).isSome = ((tuner.form c).find name).isSome := by
    intro c name
    rw [Autotuner.valueOf, Autotuner.form, MapVector.find_mapValues, Option.isSome_map,
      Option.isSome_map]
  rw [Autotuner.presentKeys, Autotuner.presentKeys]
  simp only [hsome, h]

theorem tensorParams_of_form (h : tuner.form call = tuner.form call') :
    tuner.tensorParams call = tuner.tensorParams call' := by
  have hsome : ∀ (c : Call Object) name,
      (tuner.dtypeOf c name).isSome = ((tuner.form c).find name).getD false := by
    intro c name
    rw [Autotuner.dtypeOf, Autotuner.form, MapVector.find_mapValues]
    cases (tuner.namedArgs c).find name <;> rfl
  have hkeys : ∀ c : Call Object, (tuner.namedArgs c).keys = (tuner.form c).keys := fun c =>
    (MapVector.keys_mapValues _ _).symm
  rw [Autotuner.tensorParams, Autotuner.tensorParams]
  simp only [hsome, hkeys, h]

theorem presentKeys_eq_of_sound
    (hlen : (tuner.presentKeys call).length + (tuner.tensorParams call).length =
      (tuner.presentKeys call').length + (tuner.tensorParams call').length)
    (h : ∀ c c' : Call Object, tuner.form c = tuner.form call → tuner.form c' = tuner.form call' →
      tuner.key c = tuner.key c' → SameSituation tuner c c') :
    tuner.presentKeys call = tuner.presentKeys call' := by
  have hkey : tuner.key (refill tuner call "" fun _ => "") =
      tuner.key (refill tuner call' "" fun _ => "") := by
    rw [key_refill, key_refill, map_const', map_const', ← replicate_add,
      ← replicate_add, hlen]
  have hsame := h _ _ form_refill form_refill hkey
  have hkeys : ∀ c : Call Object, tuner.presentKeys (refill tuner c "" fun _ => "") =
      tuner.presentKeys c := fun _ => presentKeys_refill
  rw [← hkeys call, ← hkeys call']
  apply filter_congr
  intro name hname
  rw [hsame.value_eq name hname]

theorem tensorParams_eq_of_sound (hkeys : tuner.presentKeys call = tuner.presentKeys call')
    (hlen : (tuner.tensorParams call).length = (tuner.tensorParams call').length)
    (h : ∀ c c' : Call Object, tuner.form c = tuner.form call → tuner.form c' = tuner.form call' →
      tuner.key c = tuner.key c' → SameSituation tuner c c') :
    tuner.tensorParams call = tuner.tensorParams call' := by
  have hnodup : ∀ c : Call Object, (tuner.tensorParams c).Nodup := fun c =>
    (tuner.namedArgs c).nodup.sublist filter_sublist
  apply ext_getElem hlen
  intro i hi hi'
  -- the dtype at this position differs from all others
  let dtype (params : List String) (name : String) : String :=
    if params.idxOf name = i then "this" else "other"
  have hmap : ∀ c : Call Object, (tuner.tensorParams c).length = (tuner.tensorParams call).length →
      (tuner.tensorParams c).map (fun name => (.str (dtype (tuner.tensorParams c) name) : Value Object)) =
        (List.range (tuner.tensorParams call).length).map fun j =>
          .str (if j = i then "this" else "other") := by
    intro c hc
    apply ext_getElem (by simp [hc])
    intro j hj hj'
    have hj'' : j < (tuner.tensorParams c).length := by simpa using hj
    simp only [getElem_map, getElem_range, dtype, (hnodup c).idxOf_getElem j hj'']
  have hkey : tuner.key (refill tuner call "" (dtype (tuner.tensorParams call))) =
      tuner.key (refill tuner call' "" (dtype (tuner.tensorParams call'))) := by
    rw [key_refill, key_refill, hmap call rfl, hmap call' hlen.symm, hkeys]
  have hsame := (h _ _ form_refill form_refill hkey).dtype_eq (tuner.tensorParams call)[i]
  obtain ⟨old, hold⟩ := Option.isSome_iff_exists.mp
    (mem_filter.mp (getElem_mem hi)).2
  rw [dtypeOf_refill, dtypeOf_refill, hold] at hsame
  cases hother : tuner.dtypeOf call' (tuner.tensorParams call)[i] with
  | none =>
    rw [hother] at hsame
    cases hsame
  | some old' =>
    rw [hother] at hsame
    have hthis : dtype (tuner.tensorParams call) (tuner.tensorParams call)[i] = "this" := by
      simp only [dtype, (hnodup call).idxOf_getElem i hi, if_pos]
    have hindex : (tuner.tensorParams call').idxOf (tuner.tensorParams call)[i] = i := by
      by_contra hne
      have hdtype := Option.some.inj hsame
      rw [hthis] at hdtype
      simp only [dtype, if_neg hne] at hdtype
      exact absurd hdtype (by decide)
    have hmem : (tuner.tensorParams call)[i] ∈ tuner.tensorParams call' := by
      rw [← idxOf_lt_length_iff, hindex]
      exact hi'
    have hget := getElem_idxOf (idxOf_lt_length_iff.mpr hmem)
    simp only [hindex] at hget
    exact hget.symm

/-- Keys tell two calls apart, whatever values and dtypes they pass, exactly when they
match in form. -/
theorem keys_tell_apart_iff (call call' : Call Object) :
    (∀ c c' : Call Object, tuner.form c = tuner.form call → tuner.form c' = tuner.form call' →
      tuner.key c = tuner.key c' → SameSituation tuner c c') ↔ KeysMatch tuner call call' := by
  constructor
  · intro h
    by_cases hlen : (tuner.presentKeys call).length + (tuner.tensorParams call).length =
        (tuner.presentKeys call').length + (tuner.tensorParams call').length
    · have hkeys := presentKeys_eq_of_sound hlen h
      rw [hkeys] at hlen
      exact Or.inr ⟨hkeys, tensorParams_eq_of_sound hkeys (Nat.add_left_cancel hlen) h⟩
    · exact Or.inl hlen
  · intro hmatch c c' hc hc' hkey
    apply sameSituation_of_key_eq _ hkey
    unfold KeysMatch
    rw [presentKeys_of_form hc, presentKeys_of_form hc', tensorParams_of_form hc,
      tensorParams_of_form hc']
    exact hmatch

/-- A kernel with the key parameters `M` and `N`. -/
def twoKeys : Autotuner := ⟨["x", "y", "M", "N"], ["M", "N"]⟩

def keywords (kwargs : List (String × Arg ℕ)) : Call ℕ := ⟨[], MapVector.build (fun _ arg => arg) kwargs⟩

/-- One call passes `M` and the other one `N`; and two tensors of different dtypes change
places. -/
theorem key_unsound :
    (let call := keywords [("M", ⟨.object 8, none⟩)]
      let call' := keywords [("N", ⟨.object 8, none⟩)]
      twoKeys.key call = twoKeys.key call' ∧
        twoKeys.valueOf call "M" ≠ twoKeys.valueOf call' "M") ∧
    let x : Arg ℕ := ⟨.object 0, some "torch.float32"⟩
    let y : Arg ℕ := ⟨.object 1, some "torch.float16"⟩
    let call := keywords [("x", x), ("y", y)]
    let call' := keywords [("y", x), ("x", y)]
    twoKeys.key call = twoKeys.key call' ∧ twoKeys.dtypeOf call "x" ≠ twoKeys.dtypeOf call' "x" := by
  decide +kernel


end Exact

section Cache

variable [DecidableEq Object] {Config : Type} {tuner : Autotuner} {calls : List (Call Object)}

/-- After calls whose keys match its own, a call gets a configuration that was chosen in
its situation. -/
theorem config_of_calls (choose : Call Object → Config) {call : Call Object}
    (hmatch : ∀ c ∈ calls, KeysMatch tuner c call) :
    ∃ c ∈ calls ++ [call], SameSituation tuner c call ∧
      (Memo.lookup tuner.key choose (Memo.runs tuner.key choose calls) call).2 = choose c :=
  Memo.lookup_runs ⟨fun _ _ => rfl, fun _ => rfl⟩ fun c hc hkey =>
    sameSituation_of_key_eq (hmatch c hc) hkey

/-- The configuration for an `M` of 8 is not used for an `M` of 16. -/
theorem config_of_calls_keywords :
    let call (m : ℕ) := keywords [("M", ⟨.object m, none⟩)]
    ∃ c ∈ [call 8] ++ [call 16], SameSituation twoKeys c (call 16) ∧
      (Memo.lookup twoKeys.key (twoKeys.valueOf · "M")
        (Memo.runs twoKeys.key (twoKeys.valueOf · "M") [call 8]) (call 16)).2 =
          twoKeys.valueOf c "M" := by
  refine config_of_calls _ (List.forall_mem_singleton.mpr (.inr ?_))
  decide +kernel

end Cache

end TritonCpu.Tuning
