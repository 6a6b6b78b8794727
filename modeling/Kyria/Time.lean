import Mathlib

/-!
Go's `time`, as far as the program uses it: a time is the number of nanoseconds since the
zero time (January 1 of year 1), a `Duration` a 64-bit number of nanoseconds.
-/

namespace Kyria.Time

def nanosPerSecond : ℕ := 10 ^ 9
def nanosPerMilli : ℕ := 10 ^ 6

/-- Seconds from the zero time to the Unix epoch. -/
def unixToInternal : ℤ := 62135596800

/-- `Time.Unix`. -/
def unix (t : ℕ) : Int64 := Int64.ofInt (t / nanosPerSecond - unixToInternal)

/-- `time.Unix(sec, 0)`: the seconds are held in an `int64` and wrap around. -/
def ofUnix (sec : Int64) : ℤ := (sec + Int64.ofInt unixToInternal).toInt * nanosPerSecond

/-- `Time.Sub`, which saturates where a `Duration` cannot hold the difference. -/
def sub (t u : ℤ) : ℤ := max (-2 ^ 63) (min (2 ^ 63 - 1) (t - u))

/-- A product of durations wraps around like any `int64`. -/
def mulDuration (n : Int64) (unit : ℕ) : ℤ := (n * Int64.ofNat unit).toInt

end Kyria.Time
