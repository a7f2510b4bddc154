import TritonCpu.PythonRepr

/-!
# Python values

The values a call passes: what `type`, `==`, `bool` and `repr` give for them. The
parts that belong to other programs (how a float prints, what a tensor compares
equal to) are the fields of `Interpreter`.
-/

set_option autoImplicit false

namespace TritonCpu.Python

open PythonRepr

/-- A finite float is a multiple of the smallest positive one, `2 ^ -1074`. Not-a-number
is equal to nothing, so its object is kept: containers compare objects first. -/
inductive PyFloat where
  | nan (object : ℕ)
  | inf (negative : Bool)
  | finite (negative : Bool) (magnitude : ℕ)
  deriving DecidableEq

/-- `text` is what the tensor prints as. -/
structure Tensor where
  dtype : String
  data_ptr : ℕ
  text : String
  deriving DecidableEq

inductive PyValue where
  | none
  | bool (b : Bool)
  | int (z : ℤ)
  | float (x : PyFloat)
  | str (s : String)
  | tuple (items : List PyValue)
  | tensor (t : Tensor)
  | tmaDesc (address : ℕ)

inductive PyType where
  | noneType | bool | int | float | str | tuple | tensor | tmaDesc
  deriving DecidableEq

structure Interpreter where
  isprintable : Char → Bool
  floatText : ℕ → List Char
  tensorEq : Tensor → Tensor → Bool
  tensorBool : Tensor → Bool

/-- An interpreter that prints the floats without a fraction as Python does. -/
def wholeFloats : Interpreter where
  isprintable _ := true
  floatText
    | 0 => "0.0".toList
    | magnitude => Nat.toDigits 10 (magnitude / 2 ^ 1074) ++ ".0".toList
  tensorEq a b := a == b
  tensorBool _ := true

namespace PyValue

def type : PyValue → PyType
  | .none => .noneType
  | .bool _ => .bool
  | .int _ => .int
  | .float _ => .float
  | .str _ => .str
  | .tuple _ => .tuple
  | .tensor _ => .tensor
  | .tmaDesc _ => .tmaDesc

/-- The number 1, in units of `2 ^ -1074`. -/
def one : ℤ := 2 ^ 1074

/-- The value of a finite float, in units of `2 ^ -1074`. -/
def floatUnits (negative : Bool) (magnitude : ℕ) : ℤ := if negative then -magnitude else magnitude

/-- The value of a number, in units of `2 ^ -1074`. -/
def units : PyValue → Option ℤ
  | .bool b => some (b.toNat * one)
  | .int z => some (z * one)
  | .float (.finite negative magnitude) => some (floatUnits negative magnitude)
  | _ => Option.none

def truth (py : Interpreter) : PyValue → Bool
  | .none => false
  | .bool b => b
  | .int z => z != 0
  | .float (.finite _ magnitude) => magnitude != 0
  | .float _ => true
  | .str s => s != ""
  | .tuple items => !items.isEmpty
  | .tensor t => py.tensorBool t
  | .tmaDesc _ => true

variable (py : Interpreter)

def floatEq : PyFloat → PyFloat → Bool
  | .nan a, .nan b => a == b
  | .inf a, .inf b => a == b
  | .finite a m, .finite b n => floatUnits a m == floatUnits b n
  | _, _ => false

mutual

/-- `==` as a container uses it on its elements. -/
def eq : PyValue → PyValue → Bool
  | .none, .none => true
  | .str a, .str b => a == b
  | .tuple a, .tuple b => eqs a b
  | .tensor a, .tensor b => py.tensorEq a b
  | .tmaDesc a, .tmaDesc b => a == b
  | .float a, .float b => floatEq a b
  | a, b =>
    match units a, units b with
    | some m, some n => m == n
    | _, _ => false

def eqs : List PyValue → List PyValue → Bool
  | [], [] => true
  | a :: l, b :: r => eq a b && eqs l r
  | _, _ => false

end

theorem one_ne_zero : one ≠ 0 := Int.pow_ne_zero (by decide)

variable {py} in
theorem eq_int {m n : ℤ} (h : eq py (.int m) (.int n) = true) : m = n := by
  simp only [eq, units, beq_iff_eq] at h
  exact Int.eq_of_mul_eq_mul_right one_ne_zero h

variable {py} in
theorem eq_bool {a b : Bool} (h : eq py (.bool a) (.bool b) = true) : a = b := by
  simp only [eq, units, beq_iff_eq] at h
  have htoNat := Int.eq_of_mul_eq_mul_right one_ne_zero h
  cases a <;> cases b <;> simp_all

def floatRepr : PyFloat → List Char
  | .nan _ => "nan".toList
  | .inf negative => (if negative then ['-'] else []) ++ "inf".toList
  | .finite negative magnitude => (if negative then ['-'] else []) ++ py.floatText magnitude

mutual

def repr : PyValue → List Char
  | .none => "None".toList
  | .bool b => if b then "True".toList else "False".toList
  | .int z => intRepr z
  | .float x => floatRepr py x
  | .str s => strRepr py.isprintable s
  | .tuple items => '(' :: tupleRepr items
  | .tensor t => t.text.toList
  | .tmaDesc address => "<TmaDescKernelParam object at 0x".toList ++ Nat.toDigits 16 address ++ ['>']

def tupleRepr : List PyValue → List Char
  | [] => [')']
  | a :: l => repr a ++ (if l.isEmpty then [',', ')'] else restRepr l)

def restRepr : List PyValue → List Char
  | [] => [')']
  | a :: l => ',' :: ' ' :: (repr a ++ restRepr l)

end

def sameSign : PyFloat → PyFloat → Bool
  | .finite a _, .finite b _ => a == b
  | _, _ => true

mutual

/-- Two values of the same types throughout, that also agree in what `==` does not look
at: the sign of a zero, and the text of a tensor. -/
def alike : PyValue → PyValue → Bool
  | .none, .none => true
  | .bool _, .bool _ => true
  | .int _, .int _ => true
  | .float x, .float y => sameSign x y
  | .str _, .str _ => true
  | .tuple a, .tuple b => alikes a b
  | .tensor a, .tensor b => a.text == b.text
  | .tmaDesc _, .tmaDesc _ => true
  | _, _ => false

def alikes : List PyValue → List PyValue → Bool
  | [], [] => true
  | a :: l, b :: r => alike a b && alikes l r
  | _, _ => false

end

variable {py}

theorem floatRepr_eq {x y : PyFloat} (heq : floatEq x y = true) (hsign : sameSign x y = true) :
    floatRepr py x = floatRepr py y := by
  cases x with
  | nan a =>
    cases y with
    | nan b => rfl
    | _ => simp [floatEq] at heq
  | inf a =>
    cases y with
    | inf b => rw [floatEq, beq_iff_eq] at heq; rw [heq]
    | _ => simp [floatEq] at heq
  | finite a m =>
    cases y with
    | finite b n =>
      rw [sameSign, beq_iff_eq] at hsign
      subst hsign
      rw [floatEq, beq_iff_eq] at heq
      have hmn : (m : ℤ) = n := by cases a <;> simpa [floatUnits] using heq
      rw [Int.ofNat_inj.mp hmn]
    | _ => simp [floatEq] at heq

def PrintsEq (py : Interpreter) (v : PyValue) : Prop :=
  ∀ w, eq py v w = true → alike v w = true → repr py v = repr py w

def ItemsPrintEq (py : Interpreter) (l : List PyValue) : Prop :=
  ∀ r, eqs py l r = true → alikes l r = true →
    tupleRepr py l = tupleRepr py r ∧ restRepr py l = restRepr py r

theorem printsEq_of_type {v : PyValue} (h : ∀ w, eq py v w = true → alike v w = true →
    v.type = w.type → repr py v = repr py w) : PrintsEq py v := by
  intro w heq halike
  refine h w heq halike ?_
  cases v <;> cases w <;> first | rfl | simp [alike] at halike

theorem itemsPrintEq_cons {a : PyValue} {l : List PyValue} (hhead : PrintsEq py a)
    (htail : ItemsPrintEq py l) : ItemsPrintEq py (a :: l) := by
  intro r heq halike
  cases r with
  | nil => simp [alikes] at halike
  | cons b r =>
    rw [eqs, Bool.and_eq_true] at heq
    rw [alikes, Bool.and_eq_true] at halike
    have hrest := (htail r heq.2 halike.2).2
    have hempty : l.isEmpty = r.isEmpty := by
      have htail := heq.2
      cases l <;> cases r <;> first | rfl | simp [eqs] at htail
    rw [tupleRepr, tupleRepr, restRepr, restRepr, hhead b heq.1 halike.1, hrest, hempty]
    exact ⟨rfl, rfl⟩

theorem repr_eq (v : PyValue) : PrintsEq py v := by
  refine @PyValue.rec (PrintsEq py) (ItemsPrintEq py) ?none ?bool ?int ?float ?str ?tuple ?tensor
    ?tmaDesc ?nil (fun _ _ => itemsPrintEq_cons) v
  case none =>
    refine printsEq_of_type fun w _ _ htype => ?_
    cases w with
    | none => rfl
    | _ => simp [type] at htype
  case bool =>
    refine fun a => printsEq_of_type fun w heq _ htype => ?_
    cases w with
    | bool b => rw [eq_bool heq]
    | _ => simp [type] at htype
  case int =>
    refine fun m => printsEq_of_type fun w heq _ htype => ?_
    cases w with
    | int n => rw [eq_int heq]
    | _ => simp [type] at htype
  case float =>
    refine fun x => printsEq_of_type fun w heq halike htype => ?_
    cases w with
    | float y => exact floatRepr_eq heq halike
    | _ => simp [type] at htype
  case str =>
    refine fun a => printsEq_of_type fun w heq _ htype => ?_
    cases w with
    | str b => rw [eq_of_beq heq]
    | _ => simp [type] at htype
  case tuple =>
    refine fun l ih => printsEq_of_type fun w heq halike htype => ?_
    cases w with
    | tuple r => exact congrArg ('(' :: ·) (ih r heq halike).1
    | _ => simp [type] at htype
  case tensor =>
    refine fun t => printsEq_of_type fun w _ halike htype => ?_
    cases w with
    | tensor u => exact congrArg String.toList (eq_of_beq halike)
    | _ => simp [type] at htype
  case tmaDesc =>
    refine fun a => printsEq_of_type fun w heq _ htype => ?_
    cases w with
    | tmaDesc b => rw [eq_of_beq heq]
    | _ => simp [type] at htype
  case nil =>
    intro r heq _
    cases r with
    | nil => exact ⟨rfl, rfl⟩
    | cons b r => simp [eqs] at heq

end PyValue

end TritonCpu.Python
