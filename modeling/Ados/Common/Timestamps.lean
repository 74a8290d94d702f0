import Ados.Common.TimeTool
import Mathlib.Algebra.Order.Ring.Int

/-!
# Timestamps in the four units

`time_tool.h` converts between time points of `system_clock` and unsigned timestamps in nanoseconds,
microseconds, milliseconds and seconds. The way to a timestamp divides, truncating towards zero, and
reads the signed quotient as an unsigned integer; the way back reads the signed integer again and
multiplies.

## Main definitions

* `signed64 x`: the signed 64-bit value with the representation `x`
* `timestamp`, `timePoint`: the two conversions for a unit of any length
* `TimestampUnit`, `getTimestamp`, `getTimePointFromTimestamp`: the four pairs of the source

## Main results

* `timePoint_timestamp`: the time point of a timestamp is the time point it was taken of, truncated
  to the unit towards the epoch
* `getTimePointFromTimestamp_getTimestamp`: the four pairs round-trip on every time point
-/

namespace Ados

/-- The signed 64-bit value with the unsigned representation `x`. -/
def signed64 (x : ℕ) : ℤ := ((x : ℤ) + 2 ^ 63) % 2 ^ 64 - 2 ^ 63

/-- A signed 64-bit value survives the way to an unsigned integer and back. -/
theorem signed64_wrap64 {n : ℤ} (h : IsTimePoint n) : signed64 (wrap64 n) = n := by
  unfold IsTimePoint at h
  unfold signed64 wrap64
  omega

/-! ## A unit of any length -/

/-- `duration_cast<unit>(tp.time_since_epoch()).count()` as a `uint64_t`, for a unit of `d`
nanoseconds. -/
def timestamp (d : ℕ) (tp : ℤ) : ℕ := wrap64 (tp.tdiv d)

/-- `duration_cast<duration>(unit(x))` for a unit of `d` nanoseconds; `none` if the signed product
overflows. -/
def timePoint (d x : ℕ) : Option ℤ :=
  if IsTimePoint (signed64 x * d) then some (signed64 x * d) else none

/-- The time point `tp` truncated to a unit of `d` nanoseconds, towards the epoch. -/
def truncated (d : ℕ) (tp : ℤ) : ℤ := tp.tdiv d * d

section Truncated

variable {d : ℕ} {tp : ℤ}

theorem truncated_neg : truncated d (-tp) = -truncated d tp := by
  rw [truncated, Int.neg_tdiv, neg_mul, truncated]

theorem truncated_of_nonneg (hd : 0 < d) (h : 0 ≤ tp) :
    0 ≤ truncated d tp ∧ truncated d tp ≤ tp ∧ tp - truncated d tp < d := by
  have hpos : (0 : ℤ) < d := by exact_mod_cast hd
  have hmod := Int.emod_nonneg tp hpos.ne'
  have hlt := Int.emod_lt_of_pos tp hpos
  have heq := Int.mul_ediv_add_emod tp d
  have hq := Int.ediv_nonneg h hpos.le
  rw [truncated, Int.tdiv_eq_ediv_of_nonneg h, mul_comm]
  have hnonneg : 0 ≤ (d : ℤ) * (tp / d) := mul_nonneg hpos.le hq
  constructor
  · exact hnonneg
  constructor
  · omega
  · omega

/-- Truncation moves a time point before the epoch forward. -/
theorem truncated_of_nonpos (hd : 0 < d) (h : tp ≤ 0) :
    tp ≤ truncated d tp ∧ truncated d tp ≤ 0 ∧ truncated d tp - tp < d := by
  obtain ⟨h1, h2, h3⟩ := truncated_of_nonneg hd (Int.neg_nonneg_of_nonpos h)
  rw [truncated_neg] at h1 h2 h3
  constructor
  · omega
  constructor
  · omega
  · omega

/-- Truncation stays on the clock. -/
theorem IsTimePoint.truncated (h : IsTimePoint tp) (hd : 0 < d) : IsTimePoint (truncated d tp) := by
  unfold IsTimePoint at h ⊢
  rcases le_total 0 tp with hp | hp
  · have := truncated_of_nonneg hd hp
    omega
  · have := truncated_of_nonpos hd hp
    omega

/-- The count of a unit of at least one nanosecond fits the clock's representation. -/
theorem IsTimePoint.tdiv (h : IsTimePoint tp) : IsTimePoint (tp.tdiv d) := by
  have habs := Int.natAbs_tdiv_le_natAbs tp d
  unfold IsTimePoint at h ⊢
  rcases le_total 0 tp with hp | hp
  · have := Int.tdiv_nonneg hp (Int.natCast_nonneg d)
    omega
  · have := Int.tdiv_nonneg (Int.neg_nonneg_of_nonpos hp) (Int.natCast_nonneg d)
    rw [Int.neg_tdiv] at this
    omega

theorem signed64_timestamp (h : IsTimePoint tp) : signed64 (timestamp d tp) = tp.tdiv d :=
  signed64_wrap64 h.tdiv

/-- The product of the way back does not overflow, and gives the truncated time point. -/
theorem timePoint_timestamp (h : IsTimePoint tp) (hd : 0 < d) :
    timePoint d (timestamp d tp) = some (truncated d tp) := by
  rw [timePoint, signed64_timestamp h]
  exact if_pos (h.truncated hd)

theorem timestamp_truncated (hd : 0 < d) : timestamp d (truncated d tp) = timestamp d tp := by
  have hne : (d : ℤ) ≠ 0 := by exact_mod_cast hd.ne'
  rw [timestamp, truncated, Int.mul_tdiv_cancel _ hne, timestamp]

end Truncated

/-! ## The conversions of the source -/

/-- The units of the timestamps. -/
inductive TimestampUnit where
  | ns | us | ms | sec
deriving DecidableEq

/-- The length of a unit in nanoseconds. -/
def TimestampUnit.length : TimestampUnit → ℕ
  | .ns => 1
  | .us => 1000
  | .ms => 1000000
  | .sec => 1000000000

theorem TimestampUnit.length_pos (u : TimestampUnit) : 0 < u.length := by
  cases u <;> decide

/-- `GetTimestampUs`. -/
def getTimestampUs (tp : ℤ) : ℕ := timestamp 1000 tp

/-- `GetTimestampMs`. -/
def getTimestampMs (tp : ℤ) : ℕ := timestamp 1000000 tp

/-- `GetTimestampSec`. -/
def getTimestampSec (tp : ℤ) : ℕ := timestamp 1000000000 tp

/-- `GetTimePointFromTimestampNs`. -/
def getTimePointFromTimestampNs (ns : ℕ) : Option ℤ := timePoint 1 ns

/-- `GetTimePointFromTimestampUs`. -/
def getTimePointFromTimestampUs (us : ℕ) : Option ℤ := timePoint 1000 us

/-- `GetTimePointFromTimestampMs`. -/
def getTimePointFromTimestampMs (ms : ℕ) : Option ℤ := timePoint 1000000 ms

/-- `GetTimePointFromTimestampSec`. -/
def getTimePointFromTimestampSec (sec : ℕ) : Option ℤ := timePoint 1000000000 sec

/-- The timestamp of a time point in a unit. -/
def getTimestamp : TimestampUnit → ℤ → ℕ
  | .ns => getTimestampNs
  | .us => getTimestampUs
  | .ms => getTimestampMs
  | .sec => getTimestampSec

/-- The time point of a timestamp in a unit; `none` if the conversion overflows. -/
def getTimePointFromTimestamp : TimestampUnit → ℕ → Option ℤ
  | .ns => getTimePointFromTimestampNs
  | .us => getTimePointFromTimestampUs
  | .ms => getTimePointFromTimestampMs
  | .sec => getTimePointFromTimestampSec

/-- The clock counts nanoseconds, so the nanosecond timestamp needs no division. -/
theorem getTimestampNs_eq (tp : ℤ) : getTimestampNs tp = timestamp 1 tp := by
  rw [getTimestampNs, timestamp, Nat.cast_one, Int.tdiv_one]

theorem getTimestamp_eq (u : TimestampUnit) (tp : ℤ) :
    getTimestamp u tp = timestamp u.length tp := by
  cases u with
  | ns => exact getTimestampNs_eq tp
  | us => rfl
  | ms => rfl
  | sec => rfl

theorem getTimePointFromTimestamp_eq (u : TimestampUnit) (x : ℕ) :
    getTimePointFromTimestamp u x = timePoint u.length x := by
  cases u <;> rfl

/-- What it means that `tp'` stands for `tp` in a unit: it lies between the epoch and `tp`, less
than one unit away, and has the same timestamp. -/
structure StandsFor (u : TimestampUnit) (tp tp' : ℤ) : Prop where
  isTimePoint : IsTimePoint tp'
  after_epoch : 0 ≤ tp → 0 ≤ tp' ∧ tp' ≤ tp
  before_epoch : tp ≤ 0 → tp ≤ tp' ∧ tp' ≤ 0
  near : |tp - tp'| < u.length
  getTimestamp_eq : getTimestamp u tp' = getTimestamp u tp

theorem standsFor_truncated (u : TimestampUnit) {tp : ℤ} (h : IsTimePoint tp) :
    StandsFor u tp (truncated u.length tp) where
  isTimePoint := h.truncated u.length_pos
  after_epoch hp := by
    obtain ⟨h1, h2, -⟩ := truncated_of_nonneg u.length_pos hp
    exact ⟨h1, h2⟩
  before_epoch hp := by
    obtain ⟨h1, h2, -⟩ := truncated_of_nonpos u.length_pos hp
    exact ⟨h1, h2⟩
  near := by
    rw [abs_lt]
    rcases le_total 0 tp with hp | hp
    · have := truncated_of_nonneg u.length_pos hp
      omega
    · have := truncated_of_nonpos u.length_pos hp
      omega
  getTimestamp_eq := by
    rw [getTimestamp_eq, getTimestamp_eq, timestamp_truncated u.length_pos]

/-- **The conversions round-trip over the whole clock.** No product overflows, and the time point of
the timestamp of `tp` stands for `tp`. -/
theorem getTimePointFromTimestamp_getTimestamp (u : TimestampUnit) {tp : ℤ} (h : IsTimePoint tp) :
    ∃ tp', getTimePointFromTimestamp u (getTimestamp u tp) = some tp' ∧ StandsFor u tp tp' := by
  refine ⟨truncated u.length tp, ?_, standsFor_truncated u h⟩
  rw [getTimePointFromTimestamp_eq, getTimestamp_eq]
  exact timePoint_timestamp h u.length_pos

/-- The first time point of the clock, in milliseconds. -/
theorem getTimePointFromTimestamp_getTimestamp_first :
    IsTimePoint (-2 ^ 63) ∧ ∃ tp', getTimePointFromTimestamp .ms (getTimestamp .ms (-2 ^ 63)) =
      some tp' ∧ StandsFor .ms (-2 ^ 63) tp' :=
  ⟨by decide, getTimePointFromTimestamp_getTimestamp .ms (by decide)⟩

end Ados
