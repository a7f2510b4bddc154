import TritonCpu.AttrsDescriptor

/-!
# A kernel call: binding, cache key and compilation

A call of `run` binds its arguments, builds the key of the in-memory cache, and on a
miss reads the signature, the constants, the descriptor and the backend
options off the same arguments.
-/

set_option autoImplicit false

namespace TritonCpu.JIT

open Python PythonRepr

structure JITFunction where
  params : List KernelParam
  names_nodup : (params.map (·.name)).Nodup
  nums : params.map (·.num) = List.range params.length

structure Call where
  args : List PyValue
  kwargs : Dict PyValue
  nodup : (keys kwargs).Nodup

/-- `d[name] = value` -/
def setItem {α : Type} (d : Dict α) (name : String) (value : α) : Dict α :=
  if name ∈ keys d then d.map fun item => if item.1 = name then (name, value) else item
  else d ++ [(name, value)]

variable (py : Interpreter)

/-- `kwargs["debug"] = kwargs.get("debug", False) or self._cached_debug` -/
def setDebug (cached_debug : Bool) (kwargs : Dict PyValue) : Dict PyValue :=
  let debug := (kwargs.lookup "debug").getD (.bool false)
  setItem kwargs "debug" (if debug.truth py then debug else .bool cached_debug)

/-- How Python binds the arguments of a function: positional ones first, then
keywords, then defaults. A missing argument, a surplus one, or one given twice
raises. -/
def bindArgs : List KernelParam → List PyValue → Dict PyValue → Option (List PyValue)
  | [], [], _ => some []
  | [], _ :: _, _ => none
  | p :: ps, a :: args, kwargs =>
    if p.name ∈ keys kwargs then none else (bindArgs ps args kwargs).map (a :: ·)
  | p :: ps, [], kwargs =>
    match (kwargs.lookup p.name).or p.default with
    | some v => (bindArgs ps [] kwargs).map (v :: ·)
    | none => none

/-- What the generated binder returns. -/
structure Bound where
  bound_vals : List PyValue
  signature_types : List (List Char)
  specialisations : List (List Char)
  constexpr_vals : List PyValue
  excess_kwargs : Dict PyValue

def specialisation (a : KernelParam × PyValue) : List Char :=
  get_property_key a.2 !a.1.do_not_specialize_on_alignment

def signatureTypes (arguments : List (KernelParam × PyValue)) : Option (List (List Char)) :=
  (arguments.filter fun a => !a.1.is_constexpr).mapM fun a => signatureType a.1 a.2

def specialisations (arguments : List (KernelParam × PyValue)) : List (List Char) :=
  (arguments.filter fun a => !a.1.is_constexpr && !a.1.do_not_specialize).map specialisation

def constexprVals (arguments : List (KernelParam × PyValue)) : List PyValue :=
  (arguments.filter fun a => a.1.is_constexpr).map Prod.snd

namespace JITFunction

variable (f : JITFunction)

def names : List String := f.params.map (·.name)

/-- `create_function_from_signature`, applied to the arguments of a call. -/
def dynamic_func (args : List PyValue) (kwargs : Dict PyValue) : Option Bound :=
  (bindArgs f.params args kwargs).bind fun bound_vals =>
    (signatureTypes (f.params.zip bound_vals)).map fun signature_types =>
      { bound_vals
        signature_types
        specialisations := specialisations (f.params.zip bound_vals)
        constexpr_vals := constexprVals (f.params.zip bound_vals)
        excess_kwargs := kwargs.filter fun kw => kw.1 ∉ f.names }

end JITFunction

def itemRepr (item : String × PyValue) : List Char :=
  strRepr py.isprintable item.1 ++ ':' :: ' ' :: item.2.repr py

def dictRepr : Dict PyValue → List Char
  | [] => ['{', '}']
  | item :: d => '{' :: (itemRepr py item ++ d.flatMap (fun i => ',' :: ' ' :: itemRepr py i) ++ ['}'])

/-- `str((constexpr_vals, excess_kwargs))` -/
def strPair (constexpr_vals : List PyValue) (excess_kwargs : Dict PyValue) : List Char :=
  '(' :: ((PyValue.tuple constexpr_vals).repr py ++ ',' :: ' ' :: (dictRepr py excess_kwargs ++ [')']))

/-- `''.join(sig_and_spec) + str((constexpr_vals, excess_kwargs))` -/
def Bound.key (b : Bound) : List Char :=
  (b.signature_types ++ b.specialisations).flatten ++ strPair py b.constexpr_vals b.excess_kwargs

def CPUOptions : Dict PyValue :=
  [("debug", .bool false), ("arch", .none), ("num_warps", .int 0), ("num_threads", .int 0),
   ("num_ctas", .int 0), ("num_stages", .int 1), ("num_buffers_warp_spec", .int 0),
   ("num_consumer_groups", .int 0), ("reg_dec_producer", .int 0), ("reg_inc_consumer", .int 0),
   ("enable_warp_specialization", .bool false), ("cluster_dims", .tuple [.int 1, .int 1, .int 1]),
   ("shared", .bool false),
   ("allowed_dot_input_precisions", .tuple [.str "ieee", .str "tf32", .str "tf32x3"]),
   ("supported_fp8_dtypes", .tuple [.str "fp8e5", .str "fp8e5b16", .str "fp8e4nv"]),
   ("deprecated_fp8_dtypes", .tuple []), ("allow_fp8e4nv", .bool true),
   ("allow_fp8e4b15", .bool true), ("enable_fp_fusion", .bool true),
   ("max_num_imprecise_acc_default", .int 0), ("enable_fast_math", .bool false),
   ("disable_machine_scheduler", .bool false), ("disable_armpl", .bool false),
   ("disable_kunpeng_llm", .bool false), ("sme_matmul_k_tile", .int 32),
   ("enable_sme_streaming_autovec", .bool false), ("enable_opt_o3", .bool false),
   ("enable_fexpa_exp2", .bool false), ("sanitize_overflow", .bool true),
   ("vec_lib", .str "libsleef")]

/-- What the target and the environment of the process say. -/
structure Environment where
  arch : String
  disable_machine_scheduler : Bool
  enable_fast_math : Bool
  disable_armpl : Bool
  disable_kunpeng_llm : Bool
  sme_matmul_k_tile : ℤ
  enable_sme_streaming_autovec : Bool
  enable_opt_o3 : Bool

/-- The options that the environment sets, whatever the call says. -/
def Environment.overrides (env : Environment) : Dict PyValue :=
  [("disable_machine_scheduler", .bool env.disable_machine_scheduler),
   ("enable_fast_math", .bool env.enable_fast_math), ("disable_armpl", .bool env.disable_armpl),
   ("disable_kunpeng_llm", .bool env.disable_kunpeng_llm),
   ("sme_matmul_k_tile", .int env.sme_matmul_k_tile),
   ("enable_sme_streaming_autovec", .bool env.enable_sme_streaming_autovec),
   ("enable_opt_o3", .bool env.enable_opt_o3)]

variable (env : Environment)

/-- The value of an option: the environment's, the keyword's, the target's or the default. -/
def optionValue (opts : Dict PyValue) (field : String × PyValue) : PyValue :=
  (env.overrides.lookup field.1).getD <| (opts.lookup field.1).getD <|
    if field.1 = "arch" then .str env.arch else field.2

def parse_options (opts : Dict PyValue) : Dict PyValue :=
  CPUOptions.map fun field => (field.1, optionValue env opts field)

/-- What a kernel is compiled from. -/
structure CompileInputs where
  signature : Dict String
  constants : Dict PyValue
  attrs : AttrsDescriptor
  options : Dict PyValue

def isNone : PyValue → Bool
  | .none => true
  | _ => false

namespace JITFunction

variable (f : JITFunction)

/-- `None` is a null pointer, so its type is the one of a pointer to bytes. -/
def signature (b : Bound) : Dict String :=
  ((f.params.filter fun p => !p.is_constexpr).map (·.name)).zip <|
    b.signature_types.map fun type =>
      if type = "none".toList then "*i8" else String.ofList type

def attrs (b : Bound) : AttrsDescriptor :=
  AttrsDescriptor.ofArguments (fun _ => none) .AttrsDescriptor (f.params.zip b.bound_vals)

def constants (b : Bound) : Dict PyValue :=
  ((f.params.zip b.bound_vals).filter fun a =>
    a.1.is_constexpr || a.1.num ∈ (f.attrs b).get_constants.map Prod.fst || isNone a.2).map
    fun a => (a.1.name, a.2)

/-- The part of `run` that prepares a compilation. Deprecated and unknown
keywords raise. -/
def compileInputs (kwargs : Dict PyValue) (b : Bound) : Option CompileInputs :=
  if (∀ name ∈ ["device_type", "device", "stream"], name ∉ keys kwargs) ∧
      ∀ name ∈ keys b.excess_kwargs, name ∈ keys (parse_options env kwargs) then
    some
      { signature := f.signature b
        constants := f.constants b
        attrs := f.attrs b
        options := parse_options env kwargs }
  else none

end JITFunction

end TritonCpu.JIT
