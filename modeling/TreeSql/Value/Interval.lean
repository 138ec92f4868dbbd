import TreeSql.Text.Digits

/-
  TreeSql.Value.Interval — time spans of whole microseconds and their SQL text.

  A span is a signed 64-bit count. `ofClock` counts with wrap-around, `ofDelta?` cuts a span of
  nanoseconds towards zero and stops at the ends of the range. `text` writes days and clock time,
  each with the sign of the span; a part that is zero is left out unless both are.
-/
namespace TreeSql

structure Interval where
  micros : Int64
deriving DecidableEq

namespace Interval

def microsPerSecond : Nat := 1000000

def microsPerDay : Nat := 86400 * microsPerSecond

/-- Hours, minutes and seconds, each of either sign. -/
def ofClock (hours minutes seconds : Int64) : Interval :=
  ⟨((hours * 60 + minutes) * 60 + seconds) * 1000000⟩

/-- The nearest value of the range. -/
def saturate (i : Int) : Int64 :=
  if i < Int64.minValue.toInt then Int64.minValue
  else if Int64.maxValue.toInt < i then Int64.maxValue
  else Int64.ofInt i

/-- The largest span of `ofDelta?`, in nanoseconds; the smallest is its negative. -/
def maxDelta : Int := Int64.maxValue.toInt * 1000000

/-- Whole seconds (rounded down) and the nanoseconds after them. `none` where there are too many of
    either. -/
def ofDelta? (seconds : Int) (nanos : Nat) : Option Interval :=
  let total := seconds * 1000000000 + nanos
  if nanos < 1000000000 ∧ -maxDelta ≤ total ∧ total ≤ maxDelta then
    some ⟨saturate (total.tdiv 1000)⟩
  else none

/-- Hours, minutes, seconds and, unless it is zero, the fraction. -/
def clockText (micros : Nat) : String :=
  let seconds := micros / microsPerSecond
  let fraction := micros % microsPerSecond
  Text.paddedNumeral 2 (seconds / 3600) ++ ":" ++ Text.paddedNumeral 2 (seconds / 60 % 60) ++ ":" ++
    Text.paddedNumeral 2 (seconds % 60) ++
    (if fraction = 0 then "" else "." ++ Text.paddedNumeral 6 fraction)

def dayText (days : Nat) : String :=
  Text.numeral days ++ (if days = 1 then " day" else " days")

/-- The text that the server reads as this interval. -/
def text (i : Interval) : String :=
  let sign := if i.micros < 0 then "-" else ""
  let total := i.micros.toInt.natAbs
  let days := total / microsPerDay
  let rest := total % microsPerDay
  if days = 0 then sign ++ clockText rest
  else if rest = 0 then sign ++ dayText days
  else sign ++ dayText days ++ " " ++ sign ++ clockText rest

end Interval

end TreeSql
