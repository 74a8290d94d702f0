import Mathlib.Data.Int.ModEq
import Mathlib.Algebra.Order.Ring.Nat

/-!
# Machine integers and timestamps

`system_clock` counts nanoseconds in a signed 64-bit integer; timestamps are unsigned 64-bit
integers. A time point is the integer count, a timestamp the natural number below `2 ^ 64` that
represents it.

## Main definitions

* `wrap64 n`: the unsigned 64-bit value of an integer
* `getTimestampNs tp`: the nanosecond timestamp of a time point
* `IsTimePoint tp`: the count of `tp` fits the clock's representation

## Main results

* `wrap64_sub`: a difference that is not negative does not wrap around
-/

namespace Ados

/-- The value of an integer in unsigned 64-bit arithmetic. -/
def wrap64 (n : ℤ) : ℕ := (n % 2 ^ 64).toNat

theorem wrap64_lt (n : ℤ) : wrap64 n < 2 ^ 64 := by
  have h1 := Int.emod_nonneg n (show (2 ^ 64 : ℤ) ≠ 0 by decide)
  have h2 := Int.emod_lt_of_pos n (show (0 : ℤ) < 2 ^ 64 by decide)
  unfold wrap64
  omega

/-- A difference does not wrap around when it is not negative. -/
theorem wrap64_sub {m n : ℕ} (hm : m < 2 ^ 64) (h : n ≤ m) : wrap64 ((m : ℤ) - n) = m - n := by
  unfold wrap64
  omega

/-- `GetTimestampNs`: the signed count of the clock, read as an unsigned integer. -/
def getTimestampNs (tp : ℤ) : ℕ := wrap64 tp

/-- The counts that fit the clock's signed 64-bit representation. -/
def IsTimePoint (tp : ℤ) : Prop := -2 ^ 63 ≤ tp ∧ tp < 2 ^ 63

instance (tp : ℤ) : Decidable (IsTimePoint tp) := inferInstanceAs (Decidable (_ ∧ _))

end Ados
