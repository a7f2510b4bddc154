import TritonCpu.KernelCache
import TritonCpu.Memo

/-!
# What two calls with one cache key compile

Every input of a compilation is traced to what the key has of the arguments. Two
things are not in the key: whether an annotated parameter is `None`, and the
value of an option whose keyword names a parameter too.
-/

set_option autoImplicit false

namespace TritonCpu.JIT

open Python PythonRepr
open List hiding keys

section Key

variable {py : Interpreter} {f : JITFunction} {b c : Bound} {args args' : List PyValue}
  {kwargs kwargs' : Dict PyValue}

/-- `str` tells the constexpr values and the excess keywords of two calls apart. -/
def StrInjective (py : Interpreter) (b c : Bound) : Prop :=
  strPair py b.constexpr_vals b.excess_kwargs = strPair py c.constexpr_vals c.excess_kwargs →
    b.constexpr_vals = c.constexpr_vals ∧ b.excess_kwargs = c.excess_kwargs

/-- What the key has is the same for every parameter, and so are the excess keywords. -/
structure SameSpecialization (f : JITFunction) (b c : Bound) : Prop where
  arguments : ∀ x ∈ pairs f b c, SameArgument x
  excess : b.excess_kwargs = c.excess_kwargs

theorem strPair_follows (vals : List PyValue) (excess : Dict PyValue) :
    Follows (strPair py vals excess) := (stops_cons _ _ _).mpr rfl

theorem key_eq_iff (hb : BoundBy f args kwargs b) (hc : BoundBy f args' kwargs' c)
    (hstr : StrInjective py b c) : b.key py = c.key py ↔ SameSpecialization f b c := by
  have hleft := pairs_left hb hc
  have hright := pairs_right hb hc
  have hbtypes := hb.types
  have hctypes := hc.types
  have hbletters := hb.letters
  have hcletters := hc.letters
  have hbvals := hb.constexpr
  have hcvals := hc.constexpr
  rw [← hleft] at hbtypes hbletters hbvals
  rw [← hright] at hctypes hcletters hcvals
  constructor
  · intro h
    simp only [Bound.key, flatten_append, append_assoc, hbletters, hcletters] at h
    obtain ⟨htypes, h⟩ := types_inj hbtypes hctypes (letters_follow _ (strPair_follows _ _))
      (letters_follow _ (strPair_follows _ _)) h
    obtain ⟨hletters, h⟩ := letters_inj h
    obtain ⟨hvals, hexcess⟩ := hstr h
    rw [htypes] at hbtypes
    rw [hbvals, hcvals] at hvals
    refine ⟨fun x hx => ⟨?_, ?_, ?_⟩, hexcess⟩
    · exact constexprVals_eq_iff.mp hvals x hx
    · exact types_of_eq hbtypes hctypes x hx
    · exact letters_eq_iff.mp hletters x hx
  · rintro ⟨harguments, hexcess⟩
    have htypes := signatureTypes_congr fun x hx => (harguments x hx).type
    rw [hbtypes, hctypes] at htypes
    have hletters := letters_eq_iff.mpr fun x hx => (harguments x hx).letter
    have hvals := constexprVals_eq_iff.mpr fun x hx => (harguments x hx).constexpr
    rw [Bound.key, Bound.key, Option.some.inj htypes, hbletters, hcletters, hletters, hbvals,
      hcvals, hvals, hexcess]

end Key

section Descriptor

variable {l : List Pair} {specialized : KernelParam → Bool} {holds : PyValue → Bool}

theorem select_congr
    (h : ∀ x ∈ l, (holds x.2.1 && specialized x.1) = (holds x.2.2 && specialized x.1)) :
    AttrsDescriptor.select specialized holds (l.map Pair.left) =
      AttrsDescriptor.select specialized holds (l.map Pair.right) := by
  unfold AttrsDescriptor.select
  induction l with
  | nil => rfl
  | cons x l ih =>
    rw [forall_mem_cons] at h
    have hhead : (holds x.left.2 && specialized x.left.1) =
        (holds x.right.2 && specialized x.right.1) := h.1
    rw [map_cons, map_cons, filter_cons, filter_cons, hhead]
    split
    · rw [map_cons, map_cons, ih h.2]
      rfl
    · exact ih h.2

theorem mem_select {arguments : List (KernelParam × PyValue)} {a : KernelParam × PyValue}
    (hnodup : (arguments.map fun a => a.1.num).Nodup) (ha : a ∈ arguments) :
    a.1.num ∈ AttrsDescriptor.select specialized holds arguments ↔
      (holds a.2 && specialized a.1) = true := by
  unfold AttrsDescriptor.select
  constructor
  · intro h
    obtain ⟨a', ha', hnum⟩ := mem_map.mp h
    rw [mem_filter] at ha'
    rw [← inj_on_of_nodup_map hnodup ha'.1 ha hnum]
    exact ha'.2
  · intro h
    exact mem_map.mpr ⟨a, mem_filter.mpr ⟨ha, h⟩, rfl⟩

theorem properties_of_same {x : Pair} (h : SameArgument x) :
    (is_divisible_by_16 x.2.1 && AttrsDescriptor.specializesAlignment x.1) =
        (is_divisible_by_16 x.2.2 && AttrsDescriptor.specializesAlignment x.1) ∧
      (is_equal_to_1 x.2.1 && !x.1.do_not_specialize) =
        (is_equal_to_1 x.2.2 && !x.1.do_not_specialize) := by
  by_cases hconstexpr : x.1.is_constexpr = true
  · rw [h.constexpr hconstexpr]
    exact ⟨rfl, rfl⟩
  rw [Bool.not_eq_true] at hconstexpr
  cases hspecialize : x.1.do_not_specialize with
  | true => simp [AttrsDescriptor.specializesAlignment, hspecialize]
  | false =>
    obtain ⟨hequal, hdivisible⟩ := properties_of_key (h.letter hconstexpr hspecialize)
    have hequal : is_equal_to_1 x.2.1 = is_equal_to_1 x.2.2 := hequal
    refine ⟨?_, by rw [hequal]⟩
    cases halign : x.1.do_not_specialize_on_alignment with
    | true => simp [AttrsDescriptor.specializesAlignment, halign]
    | false =>
      have hdivisible : is_divisible_by_16 x.2.1 = is_divisible_by_16 x.2.2 :=
        hdivisible (by simp [Pair.left, halign])
      rw [hdivisible]

end Descriptor

section Inputs

variable {py : Interpreter} {env : Environment} {f : JITFunction} {b c : Bound}
  {args args' : List PyValue} {kwargs kwargs' : Dict PyValue}

/-- An annotated parameter is `None` in both calls or in neither. -/
def NoneAgree (f : JITFunction) (b c : Bound) : Prop :=
  ∀ x ∈ pairs f b c, x.1.is_constexpr = false → x.1.annotation_type ≠ [] →
    isNone x.2.1 = isNone x.2.2

/-- An option under the name of a parameter has the same value in both calls. -/
def OptionsAgree (env : Environment) (f : JITFunction) (kwargs kwargs' : Dict PyValue) : Prop :=
  ∀ field ∈ CPUOptions, field.1 ∈ f.names →
    optionValue env kwargs field = optionValue env kwargs' field

theorem attrs_eq (hb : BoundBy f args kwargs b) (hc : BoundBy f args' kwargs' c)
    (h : ∀ x ∈ pairs f b c, SameArgument x) : f.attrs b = f.attrs c := by
  have hdivisible := select_congr fun x hx => (properties_of_same (h x hx)).1
  have hequal := @select_congr _ (fun p => !p.do_not_specialize) _
    fun x hx => (properties_of_same (h x hx)).2
  rw [pairs_left hb hc, pairs_right hb hc] at hdivisible hequal
  rw [JITFunction.attrs, JITFunction.attrs, AttrsDescriptor.ofArguments,
    AttrsDescriptor.ofArguments, hdivisible, hequal]
  rfl

theorem constant_nums (b : Bound) : (f.attrs b).get_constants.map Prod.fst =
    AttrsDescriptor.select (fun p => !p.do_not_specialize) is_equal_to_1
      (f.params.zip b.bound_vals) := by
  simp [AttrsDescriptor.get_constants, JITFunction.attrs, AttrsDescriptor.ofArguments,
    lookup_cons, Function.comp_def]

theorem isNone_iff (v : PyValue) : isNone v = true ↔ v = .none := by
  cases v <;> simp [isNone]

theorem mangle_type_none {v : PyValue} {is_const : Bool}
    (h : mangle_type v is_const = some "none".toList) : isNone v = true := by
  cases v with
  | none => rfl
  | tensor t =>
    obtain ⟨canonical, -, h⟩ := Option.map_eq_some_iff.mp h
    have hhead := congrArg List.head? h
    cases is_const <;> simp at hhead
  | int z =>
    simp only [mangle_type] at h
    split_ifs at h <;> exact absurd (Option.some.inj h) (by decide)
  | str s => simp [mangle_type] at h
  | tuple items => simp [mangle_type] at h
  | _ => exact absurd (Option.some.inj h) (by decide)

theorem isNone_of_type {p : KernelParam} {v w : PyValue} (hnotes : p.annotation_type = [])
    (h : signatureType p v = signatureType p w) : isNone v = isNone w := by
  simp only [signatureType, hnotes, ne_eq, not_true_eq_false, if_false] at h
  have one_way {v w : PyValue} (h : mangle_type v p.is_const = mangle_type w p.is_const)
      (hv : isNone v = true) : isNone w = true := by
    rw [(isNone_iff v).mp hv] at h
    exact mangle_type_none h.symm
  exact Bool.eq_iff_iff.mpr ⟨one_way h, one_way h.symm⟩

theorem constant_of_same {x : Pair} (h : SameArgument x)
    (hnone : x.1.is_constexpr = false → x.1.annotation_type ≠ [] → isNone x.2.1 = isNone x.2.2) :
    isNone x.2.1 = isNone x.2.2 := by
  by_cases hconstexpr : x.1.is_constexpr = true
  · rw [h.constexpr hconstexpr]
  rw [Bool.not_eq_true] at hconstexpr
  by_cases hnotes : x.1.annotation_type = []
  · exact isNone_of_type hnotes (h.type hconstexpr)
  · exact hnone hconstexpr hnotes

theorem constants_congr {l : List Pair} {cond : KernelParam × PyValue → Bool}
    (h : ∀ x ∈ l, cond x.left = cond x.right ∧ (cond x.left = true → x.2.1 = x.2.2)) :
    ((l.map Pair.left).filter cond).map (fun a => (a.1.name, a.2)) =
      ((l.map Pair.right).filter cond).map fun a => (a.1.name, a.2) := by
  induction l with
  | nil => rfl
  | cons x l ih =>
    rw [forall_mem_cons] at h
    rw [map_cons, map_cons, filter_cons, filter_cons, ← h.1.1]
    split
    · next hcond =>
      rw [map_cons, map_cons, ih h.2]
      exact congrArg (· :: _) (Prod.ext rfl (h.1.2 hcond))
    · exact ih h.2

theorem zip_nums (hb : BoundBy f args kwargs b) :
    ((f.params.zip b.bound_vals).map fun a => a.1.num).Nodup := by
  have hnums : (f.params.zip b.bound_vals).map (fun a => a.1.num) = f.params.map (·.num) := by
    calc (f.params.zip b.bound_vals).map (fun a => a.1.num)
        = ((f.params.zip b.bound_vals).map Prod.fst).map (·.num) := by rw [map_map]; rfl
      _ = f.params.map (·.num) := by rw [map_fst_zip hb.length.ge]
  rw [hnums, f.nums]
  exact nodup_range

theorem eq_one_of_is_equal_to_1 {v : PyValue} (h : is_equal_to_1 v = true) : v = .int 1 := by
  cases v with
  | int z => rw [is_equal_to_1, beq_iff_eq] at h; rw [h]
  | _ => simp [is_equal_to_1] at h

theorem constants_eq (hb : BoundBy f args kwargs b) (hc : BoundBy f args' kwargs' c)
    (h : ∀ x ∈ pairs f b c, SameArgument x) (hnone : NoneAgree f b c) :
    f.constants b = f.constants c := by
  have hnums : (f.attrs b).get_constants = (f.attrs c).get_constants := by
    rw [attrs_eq hb hc h]
  rw [JITFunction.constants, JITFunction.constants, ← hnums, ← pairs_left hb hc,
    ← pairs_right hb hc]
  refine constants_congr fun x hx => ?_
  have hsame := h x hx
  have hisNone := constant_of_same hsame (hnone x hx)
  refine ⟨by simp only [Pair.left, Pair.right, hisNone]; rfl, fun hcond => ?_⟩
  rw [Bool.or_eq_true, Bool.or_eq_true, decide_eq_true_eq] at hcond
  rcases hcond with (hconstexpr | hconstant) | hv
  · exact hsame.constexpr hconstexpr
  · have hleft : x.left ∈ f.params.zip b.bound_vals :=
      pairs_left hb hc ▸ mem_map_of_mem hx
    rw [constant_nums b] at hconstant
    have hv := (mem_select (zip_nums hb) hleft).mp hconstant
    have hw := (properties_of_same hsame).2 ▸ hv
    rw [Bool.and_eq_true] at hv hw
    exact (eq_one_of_is_equal_to_1 hv.1).trans (eq_one_of_is_equal_to_1 hw.1).symm
  · rw [(isNone_iff x.2.1).mp hv, (isNone_iff x.2.2).mp (hisNone ▸ hv)]

theorem signature_eq (hb : BoundBy f args kwargs b) (hc : BoundBy f args' kwargs' c)
    (h : ∀ x ∈ pairs f b c, SameArgument x) : f.signature b = f.signature c := by
  have htypes := signatureTypes_congr fun x hx => (h x hx).type
  rw [pairs_left hb hc, pairs_right hb hc, hb.types, hc.types] at htypes
  rw [JITFunction.signature, JITFunction.signature, Option.some.inj htypes]

theorem lookup_excess (kwargs : Dict PyValue) {names : List String} {name : String}
    (h : name ∉ names) :
    (kwargs.filter fun kw => kw.1 ∉ names).lookup name = kwargs.lookup name := by
  induction kwargs with
  | nil => rfl
  | cons kw kwargs ih =>
    by_cases hmem : kw.1 ∈ names
    · have hne : (name == kw.1) = false := beq_false_of_ne fun heq => h (heq ▸ hmem)
      rw [filter_cons, if_neg (by simpa using hmem), ih, lookup_cons, hne]
    · rw [filter_cons, if_pos (by simpa using hmem), lookup_cons, lookup_cons, ih]

theorem optionValue_excess (hb : BoundBy f args kwargs b) (hc : BoundBy f args' kwargs' c)
    (hexcess : b.excess_kwargs = c.excess_kwargs) (field : String × PyValue)
    (hfield : field.1 ∉ f.names) :
    optionValue env kwargs field = optionValue env kwargs' field := by
  have hlookup : kwargs.lookup field.1 = kwargs'.lookup field.1 := by
    rw [← lookup_excess kwargs hfield, ← lookup_excess kwargs' hfield, ← hb.excess, ← hc.excess,
      hexcess]
  rw [optionValue, optionValue, hlookup]

theorem options_eq_iff (hb : BoundBy f args kwargs b) (hc : BoundBy f args' kwargs' c)
    (hexcess : b.excess_kwargs = c.excess_kwargs) :
    parse_options env kwargs = parse_options env kwargs' ↔ OptionsAgree env f kwargs kwargs' := by
  rw [parse_options, parse_options, map_inj_left]
  constructor
  · intro h field hfield _
    exact congrArg Prod.snd (h field hfield)
  · intro h field hfield
    by_cases hname : field.1 ∈ f.names
    · rw [h field hfield hname]
    · rw [optionValue_excess hb hc hexcess field hname]

theorem isNone_iff_constants (hb : BoundBy f args kwargs b) {p : KernelParam} {v : PyValue}
    (h : (p, v) ∈ f.params.zip b.bound_vals) :
    isNone v = true ↔ (p.name, PyValue.none) ∈ f.constants b := by
  have hnames : ((f.params.zip b.bound_vals).map fun a => a.1.name).Nodup := by
    have hmap : (f.params.zip b.bound_vals).map (fun a => a.1.name) = f.params.map (·.name) := by
      calc (f.params.zip b.bound_vals).map (fun a => a.1.name)
          = ((f.params.zip b.bound_vals).map Prod.fst).map (·.name) := by rw [map_map]; rfl
        _ = f.params.map (·.name) := by rw [map_fst_zip hb.length.ge]
    rw [hmap]
    exact f.names_nodup
  constructor
  · intro hv
    refine mem_map.mpr ⟨(p, v), mem_filter.mpr ⟨h, ?_⟩, ?_⟩
    · rw [Bool.or_eq_true]
      exact Or.inr hv
    · rw [(isNone_iff v).mp hv]
  · intro hmem
    obtain ⟨a, ha, heq⟩ := mem_map.mp hmem
    rw [Prod.mk.injEq] at heq
    have hsame := inj_on_of_nodup_map hnames (mem_filter.mp ha).1 h heq.1
    rw [hsame] at heq
    exact (isNone_iff v).mpr heq.2

theorem noneAgree_of_constants (hb : BoundBy f args kwargs b) (hc : BoundBy f args' kwargs' c)
    (h : f.constants b = f.constants c) : NoneAgree f b c := by
  intro x hx _ _
  have hleft : x.left ∈ f.params.zip b.bound_vals := pairs_left hb hc ▸ mem_map_of_mem hx
  have hright : x.right ∈ f.params.zip c.bound_vals := pairs_right hb hc ▸ mem_map_of_mem hx
  have hiff := isNone_iff_constants hb hleft
  rw [h, ← isNone_iff_constants hc hright] at hiff
  exact Bool.eq_iff_iff.mpr hiff

end Inputs

section Soundness

variable (py : Interpreter) (env : Environment) (cached_debug : Bool) (f : JITFunction)

/-- A call that binds and whose options are recognised: what it would compile from. -/
structure Accepted (call : Call) (b : Bound) (inputs : CompileInputs) : Prop where
  binds : f.dynamic_func call.args (setDebug py cached_debug call.kwargs) = some b
  compiles : f.compileInputs env (setDebug py cached_debug call.kwargs) b = some inputs

variable {py env cached_debug f} {call call' : Call} {b c : Bound} {inputs inputs' : CompileInputs}

theorem compileInputs_eq {kwargs : Dict PyValue}
    (h : f.compileInputs env kwargs b = some inputs) :
    inputs = ⟨f.signature b, f.constants b, f.attrs b, parse_options env kwargs⟩ := by
  unfold JITFunction.compileInputs at h
  split_ifs at h
  exact (Option.some.inj h).symm

/-- Calls with one key compile from the same inputs exactly when, if what the key
has of them is the same, an annotated parameter is `None` in both or in neither
and an option under a parameter's name has one value. -/
theorem key_sound_iff (hcall : Accepted py env cached_debug f call b inputs)
    (hcall' : Accepted py env cached_debug f call' c inputs') (hstr : StrInjective py b c) :
    (b.key py = c.key py → inputs = inputs') ↔
      (SameSpecialization f b c →
        NoneAgree f b c ∧ OptionsAgree env f (setDebug py cached_debug call.kwargs)
          (setDebug py cached_debug call'.kwargs)) := by
  have hb := dynamic_func_bound hcall.binds
  have hc := dynamic_func_bound hcall'.binds
  rw [key_eq_iff hb hc hstr, compileInputs_eq hcall.compiles, compileInputs_eq hcall'.compiles]
  refine forall_congr' fun hsame => ?_
  rw [CompileInputs.mk.injEq, options_eq_iff hb hc hsame.excess]
  constructor
  · rintro ⟨-, hconstants, -, hoptions⟩
    exact ⟨noneAgree_of_constants hb hc hconstants, hoptions⟩
  · rintro ⟨hnone, hoptions⟩
    exact ⟨signature_eq hb hc hsame.arguments, constants_eq hb hc hsame.arguments hnone,
      attrs_eq hb hc hsame.arguments, hoptions⟩

/-- Without annotated run-time parameters and parameters named as options, the
key decides the compilation. -/
theorem key_sound_of_plain (hcall : Accepted py env cached_debug f call b inputs)
    (hcall' : Accepted py env cached_debug f call' c inputs') (hstr : StrInjective py b c)
    (hnotes : ∀ p ∈ f.params, p.is_constexpr = false → p.annotation_type = [])
    (hnames : ∀ name ∈ keys CPUOptions, name ∉ f.names) (hkey : b.key py = c.key py) :
    inputs = inputs' := by
  have hb := dynamic_func_bound hcall.binds
  have hc := dynamic_func_bound hcall'.binds
  have hsame := (key_eq_iff hb hc hstr).mp hkey
  have hnone : NoneAgree f b c := fun x hx hconstexpr hannotated =>
    absurd (hnotes x.1 (of_mem_zip hx).1 hconstexpr) hannotated
  have hoptions : OptionsAgree env f (setDebug py cached_debug call.kwargs)
      (setDebug py cached_debug call'.kwargs) := fun field hfield hname =>
    absurd hname (hnames field.1 (mem_map_of_mem hfield))
  rw [compileInputs_eq hcall.compiles, compileInputs_eq hcall'.compiles,
    signature_eq hb hc hsame.arguments, constants_eq hb hc hsame.arguments hnone,
    attrs_eq hb hc hsame.arguments, (options_eq_iff hb hc hsame.excess).mpr hoptions]

variable (py env cached_debug f)

/-- A call that `JITFunction.run` accepts, with what the binder returns for it. -/
structure Request where
  call : Call
  bound : Bound
  inputs : CompileInputs
  accepted : Accepted py env cached_debug f call bound inputs

variable {py env cached_debug f}

end Soundness

section Annotated

def oneParameter ( annotation : String) : JITFunction where
  params := [⟨0, "x", annotation, none, false, false⟩]
  names_nodup := by simp
  nums := rfl

def plainEnvironment : Environment := ⟨"aarch64", false, false, false, true, 32, false, false⟩

theorem noKeywords_nodup : (keys ([] : Dict PyValue)).Nodup := nodup_nil

def positional (v : PyValue) : Call := ⟨[v], [], noKeywords_nodup⟩

/-- What the binder returns for an argument of a divisible `int32`. -/
def divisibleBound (v : PyValue) : Bound where
  bound_vals := [v]
  signature_types := ["i32".toList]
  specialisations := [['D']]
  constexpr_vals := []
  excess_kwargs := [("debug", .bool false)]

def divisibleInputs (constants : Dict PyValue) : CompileInputs where
  signature := [("x", "i32")]
  constants := constants
  attrs := ⟨[("tt.divisibility", [0]), ("tt.equal_to", [])],
    [("tt.divisibility", 16), ("tt.equal_to", 1)], ["tt.equal_to"]⟩
  options := parse_options plainEnvironment [("debug", .bool false)]

theorem accepted_none : Accepted wholeFloats plainEnvironment false (oneParameter "int32")
    (positional .none) (divisibleBound .none) (divisibleInputs [("x", .none)]) :=
  ⟨rfl, rfl⟩

theorem accepted_sixteen : Accepted wholeFloats plainEnvironment false (oneParameter "int32")
    (positional (.int 16)) (divisibleBound (.int 16)) (divisibleInputs []) :=
  ⟨rfl, rfl⟩

theorem key_sound_sixteen :
    ((divisibleBound (.int 16)).key wholeFloats = (divisibleBound .none).key wholeFloats →
        divisibleInputs [] = divisibleInputs [("x", .none)]) ↔
      (SameSpecialization (oneParameter "int32") (divisibleBound (.int 16)) (divisibleBound .none) →
        NoneAgree (oneParameter "int32") (divisibleBound (.int 16)) (divisibleBound .none) ∧
          OptionsAgree plainEnvironment (oneParameter "int32")
            (setDebug wholeFloats false (positional (.int 16)).kwargs)
            (setDebug wholeFloats false (positional .none).kwargs)) :=
  key_sound_iff accepted_sixteen accepted_none fun _ => ⟨rfl, rfl⟩

/-- `None` for an annotated parameter has the key of a divisible number, and is a
constant of the kernel. -/
theorem none_shares_key : ¬ ∀ (f : JITFunction) (call call' : Call) (b c : Bound)
    (inputs inputs' : CompileInputs),
    Accepted wholeFloats plainEnvironment false f call b inputs →
    Accepted wholeFloats plainEnvironment false f call' c inputs' →
    StrInjective wholeFloats b c → b.key wholeFloats = c.key wholeFloats → inputs = inputs' := by
  intro h
  have heq := h _ _ _ _ _ _ _ accepted_none accepted_sixteen (fun _ => ⟨rfl, rfl⟩) rfl
  have hconstants := congrArg (fun inputs => inputs.constants.length) heq
  exact absurd hconstants (by decide)

end Annotated

end TritonCpu.JIT
