import Mathlib.Order.Basic
import Mathlib.Data.Nat.Notation
import Mathlib.Tactic.Common

/-!
# Half-open intervals

The `Interval` class of the shared-memory analyses. Its constructor asserts
that the start does not exceed the end, so the bound is a field here.
-/

set_option autoImplicit false

namespace TritonCpu

@[ext]
structure Interval where
  start : ℕ
  stop : ℕ
  start_le_stop : start ≤ stop
  deriving DecidableEq, Repr

namespace Interval

def intersects (i r : Interval) : Bool := i.start < r.stop && r.start < i.stop

def shift (base : ℕ) (i : Interval) : Interval :=
  ⟨base + i.start, base + i.stop, Nat.add_le_add_left i.start_le_stop base⟩

theorem intersects_iff (i r : Interval) :
    i.intersects r = true ↔ i.start < r.stop ∧ r.start < i.stop := by
  simp [intersects]

@[simp] theorem shift_zero (i : Interval) : i.shift 0 = i := by
  ext <;> simp [shift]

end Interval

end TritonCpu
