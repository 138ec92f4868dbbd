import TreeSql.Number.Power
import TreeSql.Text.Blank
import TreeSql.Text.Digits

/-
  TreeSql.Value.Timestamp — calendar date and time of day, with and without an offset from UTC.

  A `Timestamp` is a date of the Gregorian calendar extended in both directions, with a time of
  day in nanoseconds; second 60 is a leap second and may follow any minute. A `ZonedTimestamp` is
  a timestamp with an offset of less than a day in whole minutes. `literal` writes six fraction
  digits and cuts the rest; `text` writes none, three, six or nine, the fewest that lose nothing.

  Reading is tolerant as long as it is unambiguous: blanks may stand before a number and before
  a separator, numbers may lack leading zeros, fraction digits after the ninth are dropped.
-/
namespace TreeSql

/-! ## The calendar -/

def isLeapYear (year : Int) : Bool := year % 4 == 0 && (year % 100 != 0 || year % 400 == 0)

def daysInMonth (year : Int) (month : Nat) : Nat :=
  match month with
  | 2 => if isLeapYear year then 29 else 28
  | 4 | 6 | 9 | 11 => 30
  | _ => 31

def minYear : Int := -262143

def maxYear : Int := 262142

structure Timestamp where
  year : Int
  month : Nat
  day : Nat
  hour : Nat
  minute : Nat
  second : Nat
  nanos : Nat
  year_le : minYear ≤ year ∧ year ≤ maxYear
  month_le : 1 ≤ month ∧ month ≤ 12
  day_le : 1 ≤ day ∧ day ≤ daysInMonth year month
  time_le : hour ≤ 23 ∧ minute ≤ 59 ∧ second ≤ 60
  nanos_lt : nanos < 1000000000
deriving DecidableEq

namespace Timestamp

/-- The timestamp with these parts, if there is one. -/
def make? (year : Int) (month day hour minute second nanos : Nat) : Option Timestamp :=
  if h : (minYear ≤ year ∧ year ≤ maxYear) ∧ (1 ≤ month ∧ month ≤ 12) ∧
      (1 ≤ day ∧ day ≤ daysInMonth year month) ∧ (hour ≤ 23 ∧ minute ≤ 59 ∧ second ≤ 60) ∧
      nanos < 1000000000 then
    some ⟨year, month, day, hour, minute, second, nanos, h.1, h.2.1, h.2.2.1, h.2.2.2.1, h.2.2.2.2⟩
  else none

/-- Days from the first day of year 1 to the first day of a year. -/
def daysBeforeYear (year : Int) : Int :=
  let y := year - 1
  365 * y + y / 4 - y / 100 + y / 400

/-- Days from the first day of a year to the first day of its month. -/
def daysBeforeMonth (year : Int) (month : Nat) : Nat :=
  (List.range (month - 1)).foldl (fun days m => days + daysInMonth year (m + 1)) 0

/-- The number of the date, counted from the first day of year 1. -/
def dayNumber (t : Timestamp) : Int :=
  daysBeforeYear t.year + (daysBeforeMonth t.year t.month : Int) + ((t.day : Int) - 1)

/-- Seconds since the first day of year 1; a leap second counts as the one before it. -/
def seconds (t : Timestamp) : Int :=
  t.dayNumber * 86400 + (t.hour * 3600 + t.minute * 60 + min t.second 59 : Nat)

/-- Nanoseconds since `seconds`; a leap second adds a second's worth. -/
def fraction (t : Timestamp) : Nat := t.nanos + (if t.second = 60 then 1000000000 else 0)

/-! ## Writing -/

/-- Four digits for the years 0 to 9999, a sign and at least four digits for all others. -/
def yearText (year : Int) : String :=
  if 0 ≤ year ∧ year ≤ 9999 then Text.paddedNumeral 4 year.natAbs
  else (if year < 0 then "-" else "+") ++ Text.paddedNumeral 4 year.natAbs

/-- Date and time down to the second. -/
def baseText (t : Timestamp) : String :=
  let two := Text.paddedNumeral 2
  yearText t.year ++ "-" ++ two t.month ++ "-" ++ two t.day ++ "T" ++ two t.hour ++ ":" ++
    two t.minute ++ ":" ++ two t.second

/-- With six fraction digits. -/
def literal (t : Timestamp) : String := t.baseText ++ "." ++ Text.paddedNumeral 6 (t.nanos / 1000)

/-- With as many groups of three fraction digits as are needed. -/
def text (t : Timestamp) : String :=
  t.baseText ++
    (if t.nanos = 0 then ""
    else if t.nanos % 1000000 = 0 then "." ++ Text.paddedNumeral 3 (t.nanos / 1000000)
    else if t.nanos % 1000 = 0 then "." ++ Text.paddedNumeral 6 (t.nanos / 1000)
    else "." ++ Text.paddedNumeral 9 t.nanos)

/-! ## Reading -/

/-- A number of at most `width` digits after blanks, and the rest. -/
def readNumber? (width : Nat) (s : List Char) : Option (Nat × List Char) :=
  let s := Text.trimStart s
  let ds := Text.leadingDigits (s.take width)
  if ds.isEmpty then none else some (Text.digitsValue ds, s.drop ds.length)

/-- A year: up to four digits, or a sign and any number of digits. -/
def readYear? (s : List Char) : Option (Int × List Char) :=
  match Text.trimStart s with
  | '-' :: rest =>
    let ds := Text.leadingDigits rest
    if ds.isEmpty then none else some (-(Text.digitsValue ds : Int), Text.afterDigits rest)
  | '+' :: rest =>
    let ds := Text.leadingDigits rest
    if ds.isEmpty then none else some (Text.digitsValue ds, Text.afterDigits rest)
  | s => (readNumber? 4 s).map fun (n, rest) => ((n : Int), rest)

/-- The text after a separator and the blanks before it. -/
def readMark? (mark : Char) (s : List Char) : Option (List Char) :=
  match Text.trimStart s with
  | c :: rest => if c = mark then some rest else none
  | [] => none

/-- The nanoseconds after a point, if there is one. -/
def readFraction? (s : List Char) : Option (Nat × List Char) :=
  match s with
  | '.' :: rest =>
    let ds := (Text.leadingDigits rest).take 9
    if ds.isEmpty then none
    else some (Text.digitsValue ds * Number.tenTo (9 - ds.length), Text.afterDigits rest)
  | s => some (0, s)

/-- A date, and the rest of the text. -/
def readDate? (s : List Char) : Option ((Int × Nat × Nat) × List Char) := do
  let (year, s) ← readYear? s
  let s ← readMark? '-' s
  let (month, s) ← readNumber? 2 s
  let s ← readMark? '-' s
  let (day, s) ← readNumber? 2 s
  some ((year, month, day), s)

/-- A time of day, and the rest of the text after blanks. -/
def readTime? (s : List Char) : Option ((Nat × Nat × Nat × Nat) × List Char) := do
  let (hour, s) ← readNumber? 2 s
  let s ← readMark? ':' s
  let (minute, s) ← readNumber? 2 s
  let s ← readMark? ':' s
  let (second, s) ← readNumber? 2 s
  let (nanos, s) ← readFraction? s
  some ((hour, minute, second, nanos), Text.trimStart s)

/-- Reads `YYYY-MM-DDTHH:MM:SS` with an optional fraction. -/
def ofText? (s : List Char) : Option Timestamp := do
  let ((year, month, day), s) ← readDate? s
  let s ← readMark? 'T' s
  let ((hour, minute, second, nanos), s) ← readTime? s
  if s.isEmpty then make? year month day hour minute second nanos else none

end Timestamp

/-! ## With an offset -/

structure ZonedTimestamp where
  /-- Date and time at the offset. -/
  clock : Timestamp
  /-- Minutes that the clock is ahead of UTC. -/
  offset : Int
  offset_lt : offset.natAbs < 1440
deriving DecidableEq

namespace ZonedTimestamp

/-- Seconds and nanoseconds of the instant in UTC. -/
def instant (t : ZonedTimestamp) : Int × Nat := (t.clock.seconds - t.offset * 60, t.clock.fraction)

/-- Two timestamps are the same if they are the same instant. -/
def sameInstant (a b : ZonedTimestamp) : Bool := a.instant == b.instant

/-- The timestamp with these parts, if its instant has a date in UTC. -/
def make? (clock : Timestamp) (offset : Int) : Option ZonedTimestamp :=
  if h : offset.natAbs < 1440 then
    let day := (clock.seconds - offset * 60) / 86400
    if Timestamp.daysBeforeYear minYear ≤ day ∧ day < Timestamp.daysBeforeYear (maxYear + 1) then
      some ⟨clock, offset, h⟩
    else none
  else none

def offsetText (offset : Int) : String :=
  (if offset < 0 then "-" else "+") ++ Text.paddedNumeral 2 (offset.natAbs / 60) ++ ":" ++
    Text.paddedNumeral 2 (offset.natAbs % 60)

def literal (t : ZonedTimestamp) : String := t.clock.literal ++ offsetText t.offset

/-- A zero offset is written `Z`. -/
def text (t : ZonedTimestamp) : String :=
  t.clock.text ++ (if t.offset = 0 then "Z" else offsetText t.offset)

/-- Hours of two digits, a separator of colons and blanks, minutes of two digits. -/
def readClockOffset? : List Char → Option (Nat × List Char)
  | h1 :: h2 :: s =>
    if h1.isDigit && h2.isDigit then
      match s.dropWhile fun c => c == ':' || Text.isBlank c with
      | m1 :: m2 :: rest =>
        if m1.isDigit && m2.isDigit && m1 < '6' then
          some (Text.digitsValue [h1, h2] * 60 + Text.digitsValue [m1, m2], rest)
        else none
      | _ => none
    else none
  | _ => none

/-- `Z`, `UTC` in any case, or a signed offset; the minus sign may be U+2212. -/
def readOffset? : List Char → Option (Int × List Char)
  | 'Z' :: rest => some (0, rest)
  | 'z' :: rest => some (0, rest)
  | '+' :: rest => (readClockOffset? rest).map fun (n, s) => ((n : Int), s)
  | '-' :: rest => (readClockOffset? rest).map fun (n, s) => (-(n : Int), s)
  | '−' :: rest => (readClockOffset? rest).map fun (n, s) => (-(n : Int), s)
  | u :: t :: c :: rest =>
    if u.toUpper = 'U' ∧ t.toUpper = 'T' ∧ c.toUpper = 'C' then some (0, rest) else none
  | _ => none

/-- Reads a timestamp and its offset; date and time may also be parted by `t` or a space. -/
def ofText? (s : List Char) : Option ZonedTimestamp := do
  let ((year, month, day), s) ← Timestamp.readDate? s
  match s with
  | [] => none
  | c :: s =>
    if c = 'T' ∨ c = 't' ∨ c = ' ' then do
      let ((hour, minute, second, nanos), s) ← Timestamp.readTime? s
      let (offset, s) ← readOffset? s
      if (Text.trimStart s).isEmpty then do
        let clock ← Timestamp.make? year month day hour minute second nanos
        make? clock offset
      else none
    else none

end ZonedTimestamp

end TreeSql
