import Mathlib.Data.Nat.Notation
import Mathlib.Tactic.Common

/-!
# A byte memory of whole values

A byte of memory is one of the bytes of a value that was stored. A value can be
read back while none of its bytes has been overwritten, so buffers that share
one allocation, and layouts that change, are seen where they overlap.
-/

set_option autoImplicit false

namespace TritonCpu.FragmentMemory

variable {V : Type}

/-- Byte `index` of a stored value. -/
structure Fragment (V : Type) where
  value : V
  index : ℕ
  deriving DecidableEq

/-- Bytes that were never stored are indeterminate. -/
abbrev Memory (V : Type) := ℕ → Option (Fragment V)

def store (m : Memory V) (address size : ℕ) (v : V) : Memory V := fun x =>
  if address ≤ x ∧ x < address + size then some ⟨v, x - address⟩ else m x

def Holds (m : Memory V) (address size : ℕ) (v : V) : Prop :=
  ∀ i < size, m (address + i) = some ⟨v, i⟩

def load [DecidableEq V] (m : Memory V) (address size : ℕ) : Option V :=
  (m address).bind fun first =>
    if ∀ i < size, m (address + i) = some ⟨first.value, i⟩ then some first.value else none

section Store

variable {m : Memory V} {address size address' size' : ℕ} {v w : V}

theorem holds_store : Holds (store m address size v) address size v := by
  intro i hi
  rw [store, if_pos (by omega), Nat.add_sub_cancel_left]

theorem Holds.store (h : Holds m address size v)
    (hapart : address + size ≤ address' ∨ address' + size' ≤ address) :
    Holds (store m address' size' w) address size v := by
  intro i hi
  rw [FragmentMemory.store, if_neg (by omega)]
  exact h i hi

theorem Holds.eq (h : Holds m address size v) (h' : Holds m address size w) (hsize : 0 < size) :
    v = w := by
  have hfirst := (h 0 hsize).symm.trans (h' 0 hsize)
  exact congrArg Fragment.value (Option.some.inj hfirst)

theorem load_eq_some_iff [DecidableEq V] (hsize : 0 < size) :
    load m address size = some v ↔ Holds m address size v := by
  constructor
  · intro h
    obtain ⟨first, hfirst, hload⟩ := Option.bind_eq_some_iff.mp h
    split_ifs at hload with hall
    obtain rfl := Option.some.inj hload
    exact hall
  · intro h
    have hfirst := h 0 hsize
    rw [Nat.add_zero] at hfirst
    rw [load, hfirst, Option.bind_some]
    exact if_pos h

end Store

end TritonCpu.FragmentMemory
