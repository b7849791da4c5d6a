import Mathlib.Data.Int.Order.Basic

/-!
# Signed 64-bit integers

A machine integer is an `Int` in range. What leaves the range is wrapped around by the machine's
arithmetic, and cut to the nearest end by a saturating operation.
-/

namespace LlingrDemux.Shared

set_option autoImplicit false

def minInt64 : Int := -9223372036854775808

def maxInt64 : Int := 9223372036854775807

/-- The machine integer that an exact result wraps to. -/
def int64 (x : Int) : Int := (x + 9223372036854775808) % 18446744073709551616 - 9223372036854775808

/-- The machine integer next to an exact result. -/
def saturate (x : Int) : Int :=
  if x < minInt64 then minInt64 else if maxInt64 < x then maxInt64 else x

variable {x : Int}

theorem int64_of_range (low : minInt64 ≤ x) (high : x ≤ maxInt64) : int64 x = x := by
  unfold int64
  unfold minInt64 at low
  unfold maxInt64 at high
  omega

/-- Wrapping early or late makes no difference to a sum. -/
theorem int64_add_int64 (x y : Int) : int64 (int64 x + y) = int64 (x + y) := by
  unfold int64
  omega

theorem int64_int64_add_int64 (x y : Int) : int64 (int64 x + int64 y) = int64 (x + y) := by
  rw [int64_add_int64, Int.add_comm, int64_add_int64, Int.add_comm]

end LlingrDemux.Shared
