import TritonCpu.KernelParam
import TritonCpu.PythonDict

/-!
# Compile-time properties of arguments

A descriptor says which parameters are divisible by 16 or equal to 1, and what
else a backend adds. The specialization letter of an argument says the same of
one argument in the cache key of a call.
-/

set_option autoImplicit false

namespace TritonCpu.JIT

open Python

def is_divisible_by_16 : PyValue → Bool
  | .tensor t => t.data_ptr % 16 == 0
  | .bool b => b.toNat % 16 == 0
  | .int z => z % 16 == 0
  | .none => true
  | _ => false

/-- A `bool` is an `int` in Python, so it is excluded by name. -/
def is_equal_to_1 : PyValue → Bool
  | .int z => z == 1
  | _ => false

def get_property_key (val : PyValue) (align : Bool) : List Char :=
  if align && is_divisible_by_16 val then ['D']
  else if is_equal_to_1 val then ['1']
  else ['N']

theorem not_divisible_of_equal_to_1 {val : PyValue} (h : is_equal_to_1 val = true) :
    is_divisible_by_16 val = false := by
  cases val with
  | int z =>
    simp only [is_equal_to_1, beq_iff_eq] at h
    simp [is_divisible_by_16, h]
  | _ => simp [is_equal_to_1] at h

theorem properties_of_key {v w : PyValue} {align : Bool}
    (h : get_property_key v align = get_property_key w align) :
    is_equal_to_1 v = is_equal_to_1 w ∧
      (align = true → is_divisible_by_16 v = is_divisible_by_16 w) := by
  have hv := @not_divisible_of_equal_to_1 v
  have hw := @not_divisible_of_equal_to_1 w
  unfold get_property_key at h
  cases align <;> cases hdv : is_divisible_by_16 v <;> cases hdw : is_divisible_by_16 w <;>
    cases hev : is_equal_to_1 v <;> cases hew : is_equal_to_1 w <;> simp_all

/-- The classes in the descriptor table. -/
inductive DescriptorClass where
  | AttrsDescriptor
  | HIPAttrsDescriptor
  deriving DecidableEq

structure AttrsDescriptor where
  arg_properties : Dict (List ℕ)
  property_values : Dict ℤ
  constant_properties : List String

/-- A property that a subclass adds: its value and the arguments that have it. -/
structure BackendProperty where
  name : String
  value : ℤ
  holds : PyValue → Bool

/-- The subclass for AMD looks at the storage behind a tensor, in bytes. -/
def is_within2gb (storage : Tensor → Option ℕ) : PyValue → Bool
  | .tensor t =>
    match storage t with
    | some size => decide (size ≤ 2 ^ 31 - 1)
    | none => false
  | _ => false

variable (storage : Tensor → Option ℕ)

def DescriptorClass.backendProperties : DescriptorClass → List BackendProperty
  | .AttrsDescriptor => []
  | .HIPAttrsDescriptor => [⟨"tt.pointer_range", 32, is_within2gb storage⟩]

def DescriptorClass.property_values (cls : DescriptorClass) : Dict ℤ :=
  [("tt.divisibility", 16), ("tt.equal_to", 1)] ++
    (cls.backendProperties storage).map fun property => (property.name, property.value)

namespace AttrsDescriptor

/-- The parameters whose argument has a property and that are specialized on it. -/
def select (specialized : KernelParam → Bool) (holds : PyValue → Bool)
    (arguments : List (KernelParam × PyValue)) : List ℕ :=
  (arguments.filter fun a => holds a.2 && specialized a.1).map fun a => a.1.num

def specializesAlignment (p : KernelParam) : Bool :=
  !p.do_not_specialize && !p.do_not_specialize_on_alignment

/-- `cls(params, values)` -/
def ofArguments (cls : DescriptorClass) (arguments : List (KernelParam × PyValue)) :
    AttrsDescriptor where
  arg_properties :=
    [("tt.divisibility", select specializesAlignment is_divisible_by_16 arguments),
     ("tt.equal_to", select (fun p => !p.do_not_specialize) is_equal_to_1 arguments)] ++
    (cls.backendProperties storage).map fun property =>
      (property.name, select specializesAlignment property.holds arguments)
  property_values := cls.property_values storage
  constant_properties := ["tt.equal_to"]

/-- `cls.from_hints(hints)`: parameter indices with the value of the property they have. -/
def from_hints (cls : DescriptorClass) (hints : List (ℕ × ℤ)) : AttrsDescriptor where
  arg_properties := (cls.property_values storage).map fun property =>
    (property.1, (hints.filter fun hint => hint.2 == property.2).map Prod.fst)
  property_values := cls.property_values storage
  constant_properties := ["tt.equal_to"]

variable (d : AttrsDescriptor)

def get_constants : List (ℕ × Option ℤ) :=
  d.constant_properties.flatMap fun name =>
    ((d.arg_properties.lookup name).getD []).map fun num => (num, d.property_values.lookup name)

def Holds (name : String) (num : ℕ) : Prop := num ∈ (d.arg_properties.lookup name).getD []

instance (name : String) (num : ℕ) : Decidable (d.Holds name num) :=
  inferInstanceAs (Decidable (num ∈ (d.arg_properties.lookup name).getD []))

end AttrsDescriptor

end TritonCpu.JIT
