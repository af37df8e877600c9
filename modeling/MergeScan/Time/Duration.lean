/-! # Durations

A duration is a whole number of nanoseconds. Timestamps count milliseconds, so
arithmetic on them uses the whole milliseconds of a duration.
-/

namespace MergeScan

/-- A length of time. -/
structure Duration where
  nanos : Nat
deriving DecidableEq

namespace Duration

/-- A duration of whole milliseconds. -/
def ofMillis (millis : Nat) : Duration :=
  ⟨millis * 1000000⟩

/-- A duration of whole seconds and a remainder in nanoseconds. -/
def ofSeconds (seconds nanos : Nat) : Duration :=
  ⟨seconds * 1000000000 + nanos⟩

/-- The whole milliseconds of a duration. -/
def millis (duration : Duration) : Nat :=
  duration.nanos / 1000000

/-- The unit that a duration is printed in: how many nanoseconds it holds, how
many decimals that makes, and its symbol. -/
structure Scale where
  nanos : Nat
  decimals : Nat
  symbol : String

/-- The largest unit of which the duration holds at least one, or nanoseconds
when it holds none. -/
def scale (duration : Duration) : Scale :=
  if 1000000000 ≤ duration.nanos then ⟨1000000000, 9, "s"⟩
  else if 1000000 ≤ duration.nanos then ⟨1000000, 6, "ms"⟩
  else if 1000 ≤ duration.nanos then ⟨1000, 3, "µs"⟩
  else ⟨1, 0, "ns"⟩

/-- The digits of `value` on exactly `places` places. -/
def paddedDigits (places value : Nat) : List Char :=
  let digits := (Nat.repr value).toList
  List.replicate (places - digits.length) '0' ++ digits

/-- The decimals of a fraction, without the zeros at its end. -/
def fraction (places value : Nat) : List Char :=
  ((paddedDigits places value).reverse.dropWhile (· == '0')).reverse

/-- A duration in its unit, with as many decimals as it needs. -/
def text (duration : Duration) : String :=
  let scale := duration.scale
  let whole := Nat.repr (duration.nanos / scale.nanos)
  match fraction scale.decimals (duration.nanos % scale.nanos) with
  | [] => whole ++ scale.symbol
  | decimals => whole ++ "." ++ String.ofList decimals ++ scale.symbol

end Duration

end MergeScan
