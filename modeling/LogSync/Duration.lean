/-!
# Durations

Durations are numbers of nanoseconds, and points in time are durations since some fixed start.
-/

namespace LogSync.Duration

/-- A number of milliseconds. -/
def ofMillis (ms : Nat) : Nat := ms * 1000000

/-- The digits behind the point: the fraction `part / unit` of a power of ten `unit`, without
trailing zeros. -/
def fractionDigits (digits part : Nat) : List Char :=
  let padded := List.replicate (digits - (Nat.toDigits 10 part).length) '0' ++ Nat.toDigits 10 part
  (padded.reverse.dropWhile (· == '0')).reverse

/-- A duration in a unit of `10 ^ digits` nanoseconds. -/
def inUnit (d : Nat) (digits : Nat) (unit : String) : String :=
  let whole := toString (d / Nat.pow 10 digits)
  match fractionDigits digits (d % Nat.pow 10 digits) with
  | [] => whole ++ unit
  | fraction => whole ++ "." ++ String.ofList fraction ++ unit

/-- A duration in the largest of seconds, milliseconds, microseconds and nanoseconds of which it
holds at least one. -/
def text (d : Nat) : String :=
  if d ≥ 1000000000 then inUnit d 9 "s"
  else if d ≥ 1000000 then inUnit d 6 "ms"
  else if d ≥ 1000 then inUnit d 3 "µs"
  else inUnit d 0 "ns"

end LogSync.Duration
