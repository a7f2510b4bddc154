import TritonCpu.PythonValue

/-!
# Kernel parameters and the types of arguments

The type strings of a call stand one after another in its cache key, with nothing
between them. No type string is the beginning of another one followed by
something that can come next, so the key still determines them.
-/

set_option autoImplicit false

namespace TritonCpu.JIT

open Python PythonRepr List

structure KernelParam where
  num : ℕ
  name : String
  annotation : String
  default : Option PyValue
  do_not_specialize : Bool
  do_not_specialize_on_alignment : Bool

def after (sub : List Char) : List Char → Option (List Char)
  | [] => if sub = [] then some [] else none
  | c :: s => if sub.isPrefixOf (c :: s) then some ((c :: s).drop sub.length) else after sub s

namespace KernelParam

variable (p : KernelParam)

def annotation_type : List Char :=
  match after "uint".toList p.annotation.toList with
  | some (c :: width) => 'u' :: c :: width
  | _ =>
    match after "int".toList p.annotation.toList with
    | some (c :: width) => 'i' :: c :: width
    | _ => if p.annotation = "bool" then "u1".toList else []

def is_constexpr : Bool := (after "constexpr".toList p.annotation.toList).isSome

def is_const : Bool := (after "const".toList p.annotation.toList).isSome && !p.is_constexpr

end KernelParam

def canonicalTypes : List (String × String) :=
  [("bool", "i1"), ("float8e4nv", "fp8e4nv"), ("float8e5", "fp8e5"), ("float8e4b15", "fp8e4b15"),
   ("float8_e4m3fn", "fp8e4nv"), ("float8e4b8", "fp8e4b8"), ("float8_e4m3fnuz", "fp8e4b8"),
   ("float8_e5m2", "fp8e5"), ("float8e5b16", "fp8e5b16"), ("float8_e5m2fnuz", "fp8e5b16"),
   ("float16", "fp16"), ("bfloat16", "bf16"), ("float32", "fp32"), ("float64", "fp64"),
   ("int8", "i8"), ("int16", "i16"), ("int32", "i32"), ("int64", "i64"),
   ("uint8", "u8"), ("uint16", "u16"), ("uint32", "u32"), ("uint64", "u64")]

def type_canonicalisation_dict : List (String × String) :=
  canonicalTypes ++ canonicalTypes.map fun entry => (entry.2, entry.2)

/-- `str(dtype).split('.')[-1]` -/
def dtypeName (dtype : String) : String :=
  String.ofList (dtype.toList.reverse.takeWhile (· ≠ '.')).reverse

/-- The type string of an argument. Values without a `dtype`, and tensors of a
`dtype` the table does not have, raise. -/
def mangle_type (arg : PyValue) (is_const : Bool) : Option (List Char) :=
  match arg with
  | .none => some "none".toList
  | .bool _ => some "i1".toList
  | .int z =>
    if -2 ^ 31 ≤ z ∧ z ≤ 2 ^ 31 - 1 then some "i32".toList
    else if 2 ^ 63 ≤ z ∧ z ≤ 2 ^ 64 - 1 then some "u64".toList
    else some "i64".toList
  | .float _ => some "fp32".toList
  | .tmaDesc _ => some "nvTmaDesc".toList
  | .tensor t =>
    (type_canonicalisation_dict.lookup (dtypeName t.dtype)).map fun canonical =>
      (if is_const then "*k".toList else "*".toList) ++ canonical.toList
  | .str _ | .tuple _ => none

def signatureType (p : KernelParam) (arg : PyValue) : Option (List Char) :=
  if p.annotation_type ≠ [] then some p.annotation_type else mangle_type arg p.is_const

section TypeStrings

def scalarTypes : List (List Char) :=
  ["none", "i1", "i32", "u64", "i64", "fp32", "nvTmaDesc"].map String.toList

def pointerTypes (mark : String) : List (List Char) :=
  canonicalTypes.map fun entry => mark.toList ++ entry.2.toList

/-- All strings that `mangle_type` returns. -/
def mangledTypes : List (List Char) := scalarTypes ++ (pointerTypes "*" ++ pointerTypes "*k")

theorem lookup_mem_canonical {name canonical : String}
    (h : type_canonicalisation_dict.lookup name = some canonical) :
    canonical ∈ canonicalTypes.map Prod.snd := by
  obtain ⟨key, hmem⟩ : ∃ key, (key, canonical) ∈ type_canonicalisation_dict := by
    generalize type_canonicalisation_dict = table at h
    induction table with
    | nil => simp at h
    | cons entry table ih =>
      rw [lookup_cons] at h
      split at h
      · exact ⟨entry.1, by simp [← Option.some.inj h]⟩
      · obtain ⟨key, hkey⟩ := ih h
        exact ⟨key, mem_cons_of_mem _ hkey⟩
  rcases mem_append.mp hmem with h | h
  · exact mem_map.mpr ⟨_, h, rfl⟩
  · obtain ⟨entry, hentry, heq⟩ := mem_map.mp h
    exact mem_map.mpr ⟨entry, hentry, congrArg Prod.snd heq⟩

theorem mangle_type_mem {arg : PyValue} {is_const : Bool} {text : List Char}
    (h : mangle_type arg is_const = some text) : text ∈ mangledTypes := by
  cases arg with
  | tensor t =>
    simp only [mangle_type, Option.map_eq_some_iff] at h
    obtain ⟨canonical, hlookup, rfl⟩ := h
    obtain ⟨entry, hentry, rfl⟩ := mem_map.mp (lookup_mem_canonical hlookup)
    rw [mangledTypes, mem_append, mem_append]
    cases is_const
    · exact Or.inr (Or.inl (mem_map.mpr ⟨entry, hentry, rfl⟩))
    · exact Or.inr (Or.inr (mem_map.mpr ⟨entry, hentry, rfl⟩))
  | str s => simp [mangle_type] at h
  | tuple items => simp [mangle_type] at h
  | int z =>
    simp only [mangle_type] at h
    split_ifs at h <;> rw [← Option.some.inj h] <;> decide
  | _ => rw [← Option.some.inj h]; decide

/-- What may follow a type string: another one, a specialization or the end. -/
def Follows (s : List Char) : Prop := Stops (fun c => c = '6' || c = 'b') s

theorem mangledTypes_extend : ∀ a ∈ mangledTypes, ∀ b ∈ mangledTypes, a.isPrefixOf b = true →
    (b.drop a.length).head? = none ∨ (b.drop a.length).head? = some '6' ∨
      (b.drop a.length).head? = some 'b' := by
  decide +kernel

theorem mangled_extend_eq {a b s t : List Char} (ha : a ∈ mangledTypes) (hb : b ∈ mangledTypes)
    (hs : Follows s) (h : a ++ s = b ++ t) (hle : a <+: b) : a = b ∧ s = t := by
  obtain ⟨r, rfl⟩ := hle
  have hcases := mangledTypes_extend a ha _ hb
    ( isPrefixOf_iff_prefix.mpr (prefix_append a r))
  rw [drop_left] at hcases
  rw [append_assoc] at h
  have hrest : s = r ++ t := append_cancel_left h
  cases r with
  | nil => exact ⟨(append_nil a).symm, hrest⟩
  | cons c r =>
    rw [hrest, cons_append, Follows, stops_cons] at hs
    rw [List.head?_cons] at hcases
    rcases hcases with h | h | h
    · simp at h
    · simp [Option.some.inj h] at hs
    · simp [Option.some.inj h] at hs

theorem mangled_inj {a b s t : List Char} (ha : a ∈ mangledTypes) (hb : b ∈ mangledTypes)
    (hs : Follows s) (ht : Follows t) (h : a ++ s = b ++ t) : a = b ∧ s = t := by
  rcases prefix_or_prefix_of_prefix (prefix_append a s)
    (h ▸ prefix_append b t) with hle | hle
  · exact mangled_extend_eq ha hb hs h hle
  · obtain ⟨hba, hts⟩ := mangled_extend_eq hb ha ht h.symm hle
    exact ⟨hba.symm, hts.symm⟩

theorem annotation_type_head (p : KernelParam) :
    p.annotation_type = [] ∨ ∃ s, p.annotation_type = 'u' :: s ∨ p.annotation_type = 'i' :: s := by
  unfold KernelParam.annotation_type
  split
  · exact Or.inr ⟨_, Or.inl rfl⟩
  split
  · exact Or.inr ⟨_, Or.inr rfl⟩
  split
  · exact Or.inr ⟨['1'], Or.inl rfl⟩
  · exact Or.inl rfl

theorem mangledTypes_head : ∀ a ∈ mangledTypes, ∃ c s, a = c :: s ∧ c ≠ '6' ∧ c ≠ 'b' := by
  have check : ∀ a ∈ mangledTypes, (a.headD '6' != '6' && a.headD '6' != 'b') = true := by
    decide +kernel
  intro a ha
  cases a with
  | nil => simpa using check [] ha
  | cons c s => exact ⟨c, s, rfl, by simpa using check (c :: s) ha⟩

variable {p : KernelParam} {v w : PyValue} {a b s t : List Char}

theorem signatureType_follows (h : signatureType p v = some a) : Follows (a ++ s) := by
  have start : ∃ c l, a = c :: l ∧ c ≠ '6' ∧ c ≠ 'b' := by
    unfold signatureType at h
    split_ifs at h with hannotated
    · rw [← Option.some.inj h]
      rcases annotation_type_head p with h | ⟨l, h | h⟩
      · exact absurd h hannotated
      · exact ⟨'u', l, h, by decide, by decide⟩
      · exact ⟨'i', l, h, by decide, by decide⟩
    · exact mangledTypes_head a (mangle_type_mem h)
  obtain ⟨c, l, rfl, h6, hb⟩ := start
  rw [cons_append, Follows, stops_cons]
  simp [h6, hb]

theorem signatureType_inj (ha : signatureType p v = some a) (hb : signatureType p w = some b)
    (hs : Follows s) (ht : Follows t) (h : a ++ s = b ++ t) : a = b ∧ s = t := by
  unfold signatureType at ha hb
  split_ifs at ha hb
  · obtain rfl := Option.some.inj ha
    obtain rfl := Option.some.inj hb
    exact ⟨rfl, append_cancel_left h⟩
  · exact mangled_inj (mangle_type_mem ha) (mangle_type_mem hb) hs ht h

end TypeStrings

end TritonCpu.JIT
