import TreeSql.Sql.Expr

/-
  TreeSql.Compile.Canonical — the functions that every store has, in terms of PostgreSQL.

  Functions are sorted by the number of their arguments; `sql` gives the SQL expression for
  arguments that are compiled already. Positions and indexes count from one. Differences of times
  cut both times to the unit first.
-/
namespace TreeSql.Compile

open Sql

/-! ## Functions -/

inductive DatePart where
  | year
  | month
  | day
  | hour
  | minute
  | second
  | millisecond
  | dayOfYear
deriving DecidableEq

inductive TimeUnit where
  | years
  | months
  | days
  | hours
  | minutes
  | seconds
  | milliseconds
  | microseconds
  | nanoseconds
deriving DecidableEq

inductive NullaryFunction where
  | currentDateTime
  | currentUtcDateTime
  | currentDateTimeOffset
  | newGuid
deriving DecidableEq

inductive UnaryFunction where
  | length
  | trimLeft
  | trimRight
  | trim
  | toLower
  | toUpper
  | reverse
  | part (part : DatePart)
  | totalOffsetMinutes
  | truncateTime
  | bitwiseNot
  | abs
  | ceiling
  | floor
deriving DecidableEq

inductive BinaryFunction where
  | concat
  | contains
  | indexOf
  | startsWith
  | left
  | right
  | add (unit : TimeUnit)
  | diff (unit : TimeUnit)
  | bitwiseAnd
  | bitwiseOr
  | bitwiseXor
  | power
  | truncate
deriving DecidableEq

inductive TernaryFunction where
  | replace
  | substring
deriving DecidableEq

inductive CanonicalFunction where
  | nullary (f : NullaryFunction)
  | unary (f : UnaryFunction)
  | binary (f : BinaryFunction)
  | ternary (f : TernaryFunction)
  /-- With one or two arguments. -/
  | round
deriving DecidableEq

/-- The functions by name. -/
def canonicalFunctions : List (String × CanonicalFunction) :=
  [("Concat", .binary .concat), ("Contains", .binary .contains), ("IndexOf", .binary .indexOf),
    ("StartsWith", .binary .startsWith), ("Left", .binary .left), ("Right", .binary .right),
    ("Length", .unary .length), ("LTrim", .unary .trimLeft), ("RTrim", .unary .trimRight),
    ("Trim", .unary .trim), ("ToLower", .unary .toLower), ("ToUpper", .unary .toUpper),
    ("Reverse", .unary .reverse), ("Replace", .ternary .replace),
    ("Substring", .ternary .substring),
    ("AddYears", .binary (.add .years)), ("AddMonths", .binary (.add .months)),
    ("AddDays", .binary (.add .days)), ("AddHours", .binary (.add .hours)),
    ("AddMinutes", .binary (.add .minutes)), ("AddSeconds", .binary (.add .seconds)),
    ("AddMilliseconds", .binary (.add .milliseconds)),
    ("AddMicroseconds", .binary (.add .microseconds)),
    ("AddNanoseconds", .binary (.add .nanoseconds)),
    ("DiffYears", .binary (.diff .years)), ("DiffMonths", .binary (.diff .months)),
    ("DiffDays", .binary (.diff .days)), ("DiffHours", .binary (.diff .hours)),
    ("DiffMinutes", .binary (.diff .minutes)), ("DiffSeconds", .binary (.diff .seconds)),
    ("DiffMilliseconds", .binary (.diff .milliseconds)),
    ("DiffMicroseconds", .binary (.diff .microseconds)),
    ("DiffNanoseconds", .binary (.diff .nanoseconds)),
    ("Year", .unary (.part .year)), ("Month", .unary (.part .month)), ("Day", .unary (.part .day)),
    ("Hour", .unary (.part .hour)), ("Minute", .unary (.part .minute)),
    ("Second", .unary (.part .second)), ("Millisecond", .unary (.part .millisecond)),
    ("DayOfYear", .unary (.part .dayOfYear)),
    ("GetTotalOffsetMinutes", .unary .totalOffsetMinutes),
    ("CurrentDateTime", .nullary .currentDateTime),
    ("CurrentUtcDateTime", .nullary .currentUtcDateTime),
    ("CurrentDateTimeOffset", .nullary .currentDateTimeOffset),
    ("TruncateTime", .unary .truncateTime),
    ("BitwiseAnd", .binary .bitwiseAnd), ("BitwiseOr", .binary .bitwiseOr),
    ("BitwiseXor", .binary .bitwiseXor), ("BitwiseNot", .unary .bitwiseNot),
    ("Abs", .unary .abs), ("Ceiling", .unary .ceiling), ("Floor", .unary .floor),
    ("Round", .round), ("Power", .binary .power), ("Truncate", .binary .truncate),
    ("NewGuid", .nullary .newGuid)]

def CanonicalFunction.ofName? (name : String) : Option CanonicalFunction :=
  canonicalFunctions.lookup name

/-! ## Building blocks -/

/-- An `int4` constant. -/
def int (n : Int32) : SqlExpr := .constant (.int32 n)

/-- The index of the first occurrence, zero if there is none. -/
def position (needle haystack : SqlExpr) : SqlExpr :=
  .call "position" [.seq [needle, .verbatim " in ", haystack]]

/-- The difference of two times in years, months and days. -/
def age (finish start : SqlExpr) : SqlExpr := .call "age" [finish, start]

/-- A time cut to a unit. -/
def dateTrunc (unit : String) (value : SqlExpr) : SqlExpr :=
  .call "date_trunc" [.verbatim ("'" ++ unit ++ "'"), value]

def datePart (part : String) (value : SqlExpr) : SqlExpr :=
  .call "date_part" [.verbatim ("'" ++ part ++ "'"), value]

def extract (part : String) (value : SqlExpr) : SqlExpr :=
  .call "extract" [.seq [.verbatim (part ++ " FROM "), value]]

/-- The seconds of a time span. -/
def secondsOf (value : SqlExpr) : SqlExpr :=
  .call "extract" [.seq [.verbatim "epoch from ", value]]

/-- A cast written after its operand. -/
def toInt4 (e : SqlExpr) : SqlExpr := e.followedBy "::int4"

/-- The time from start to finish, both cut to a unit. -/
def spanBetween (unit : String) (start finish : SqlExpr) : SqlExpr :=
  .binary .sub (dateTrunc unit finish) (dateTrunc unit start)

/-- The seconds of an average month. -/
def secondsPerMonth : String := "2629800.0"

/-! ## SQL expressions -/

def NullaryFunction.sql : NullaryFunction → SqlExpr
  | currentDateTime => .verbatim "LOCALTIMESTAMP"
  | currentUtcDateTime => .verbatim "CURRENT_TIMESTAMP AT TIME ZONE 'UTC'"
  | currentDateTimeOffset => .verbatim "CURRENT_TIMESTAMP"
  | newGuid => .verbatim "uuid_generate_v4()"

/-- The name of a field of a time. -/
def DatePart.field : DatePart → String
  | year => "year"
  | month => "month"
  | day => "day"
  | hour => "hour"
  | minute => "minute"
  | second => "second"
  | millisecond => "milliseconds"
  | dayOfYear => "doy"

def UnaryFunction.sql (f : UnaryFunction) (x : SqlExpr) : SqlExpr :=
  match f with
  | length => .cast (.call "char_length" [x]) "int4"
  | trimLeft => .call "ltrim" [x]
  | trimRight => .call "rtrim" [x]
  | trim => .call "btrim" [x]
  | toLower => .call "lower" [x]
  | toUpper => .call "upper" [x]
  | reverse => .call "reverse" [x]
  | part p => .cast (extract p.field x) "int4"
  | totalOffsetMinutes => .binary .div (.cast (extract "timezone" x) "int4") (int 60)
  | truncateTime => dateTrunc "day" x
  | bitwiseNot => .leading .bitwiseNot x
  | abs => .call "abs" [x]
  | ceiling => .call "ceiling" [x]
  | floor => .call "floor" [x]

/-- The unit of the interval that is added once per count; nanoseconds are added as microseconds. -/
def TimeUnit.step : TimeUnit → String
  | years => "Years"
  | months => "Months"
  | days => "Days"
  | hours => "Hours"
  | minutes => "Minutes"
  | seconds => "Seconds"
  | milliseconds => "Milliseconds"
  | microseconds | nanoseconds => "Microseconds"

/-- A time with a number of units added. -/
def addUnits (unit : TimeUnit) (time count : SqlExpr) : SqlExpr :=
  let count := match unit with
    | .nanoseconds => .binary .div count (int 1000)
    | _ => count
  .binary .add time (.binary .mul count (.verbatim ("INTERVAL '1 " ++ unit.step ++ "'")))

/-- Seconds times a factor, as an `int4`. -/
def scaledSpan (unit factor : String) (start finish : SqlExpr) : SqlExpr :=
  .cast (.binary .mul (secondsOf (spanBetween unit start finish)) (.verbatim factor)) "int4"

/-- The number of units from one time to another. -/
def diffUnits (unit : TimeUnit) (start finish : SqlExpr) : SqlExpr :=
  match unit with
  | .years => toInt4 (datePart "year" (age (dateTrunc "year" finish) (dateTrunc "year" start)))
  | .months =>
    toInt4 (.call "round" [.binary .div
      (secondsOf (age (dateTrunc "month" finish) (dateTrunc "month" start)))
      (.verbatim secondsPerMonth)])
  | .days => toInt4 (datePart "day" (spanBetween "day" start finish))
  | .hours => .binary .div (toInt4 (secondsOf (spanBetween "hour" start finish))) (int 3600)
  | .minutes => .binary .div (toInt4 (secondsOf (spanBetween "minute" start finish))) (int 60)
  | .seconds => toInt4 (secondsOf (spanBetween "second" start finish))
  | .milliseconds => scaledSpan "milliseconds" "1000" start finish
  | .microseconds => scaledSpan "microseconds" "1000000" start finish
  | .nanoseconds => scaledSpan "microseconds" "1000000000" start finish

def BinaryFunction.sql (f : BinaryFunction) (a b : SqlExpr) : SqlExpr :=
  match f with
  | concat => .binary .concat a b
  | contains => .binary .greaterThan (position b a) (int 0)
  | indexOf => position a b
  | startsWith => .binary .equals (position b a) (int 1)
  | left => .call "substr" [a, int 1, b]
  | right =>
    .call "substr" [a, .binary .sub (.binary .add (.call "char_length" [a]) (int 1)) b]
  | add unit => addUnits unit a b
  | diff unit => diffUnits unit a b
  | bitwiseAnd => .binary .bitwiseAnd a b
  | bitwiseOr => .binary .bitwiseOr a b
  | bitwiseXor => .binary .bitwiseXor a b
  | power => .call "power" [a, b]
  | truncate => .call "trunc" [a, b]

def TernaryFunction.sql (f : TernaryFunction) (a b c : SqlExpr) : SqlExpr :=
  match f with
  | replace => .call "replace" [a, b, c]
  | substring => .call "substr" [a, b, c]

end TreeSql.Compile
