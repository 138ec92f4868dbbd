import TreeSql.DataType.Basic
import TreeSql.Number.Binary
import TreeSql.Number.Decimal
import TreeSql.Value.Guid
import TreeSql.Value.Interval
import TreeSql.Value.Timestamp

/-
  TreeSql.Value.Basic — the constants of command trees.

  One constructor per primitive kind. `eqv` is the equality of constants: numeric for floating
  point and decimal numbers, by instant for timestamps with an offset. It is symmetric and
  transitive, and a constant equals itself unless it is not a number.
-/
namespace TreeSql

inductive Value where
  | bool (b : Bool)
  | byte (n : UInt8)
  | sbyte (n : Int8)
  | int16 (n : Int16)
  | int32 (n : Int32)
  | int64 (n : Int64)
  | single (x : Number.Single)
  | double (x : Number.Double)
  | decimal (x : Number.Decimal)
  | string (s : String)
  | binary (bytes : List UInt8)
  | guid (g : Guid)
  | dateTime (t : Timestamp)
  | dateTimeOffset (t : ZonedTimestamp)
  | time (i : Interval)
deriving DecidableEq

namespace Value

def kind : Value → PrimitiveKind
  | bool _ => .boolean
  | byte _ => .byte
  | sbyte _ => .sbyte
  | int16 _ => .int16
  | int32 _ => .int32
  | int64 _ => .int64
  | single _ => .single
  | double _ => .double
  | decimal _ => .decimal
  | string _ => .string
  | binary _ => .binary
  | guid _ => .guid
  | dateTime _ => .dateTime
  | dateTimeOffset _ => .dateTimeOffset
  | time _ => .time

/-- The number of a constant of an integer kind. -/
def int? : Value → Option Int
  | byte n => some n.toNat
  | sbyte n => some n.toInt
  | int16 n => some n.toInt
  | int32 n => some n.toInt
  | int64 n => some n.toInt
  | _ => none

/-- The text of a string constant. -/
def string? : Value → Option String
  | string s => some s
  | _ => none

/-- Equality of constants. -/
def eqv : Value → Value → Bool
  | single x, single y => x.numEq y
  | double x, double y => x.numEq y
  | decimal x, decimal y => x.numEq y
  | dateTimeOffset a, dateTimeOffset b => a.sameInstant b
  | a, b => a == b

/-- Whether a constant is a floating-point value that is not a number. -/
def isNaN : Value → Bool
  | single x => x.isNaN
  | double x => x.isNaN
  | _ => false

end Value

end TreeSql
