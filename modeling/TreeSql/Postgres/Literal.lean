import TreeSql.Number.Shortest
import TreeSql.Postgres.Quote
import TreeSql.Text.Base64
import TreeSql.Value.Basic

/-
  TreeSql.Postgres.Literal — constants as SQL literals.

  Every literal has exactly the intended type on the server: numbers other than `int4` carry a
  cast, times carry the name of their type. A number below zero is put in parentheses so that
  the cast takes all of it; a negative zero is not. The special floating-point values are quoted.
-/
namespace TreeSql.Postgres.Literal

/-- A number text with a cast. -/
def withCast (text : String) (negative : Bool) (type : String) : String :=
  (if negative then "(" ++ text ++ ")" else text) ++ "::" ++ type

def integer (i : Int) (type : String) : String := withCast (Text.integer i) (decide (i < 0)) type

/-- A floating-point number. -/
def binaryFloat {f : Number.BinaryFormat} (x : Number.Binary f) (type : String) : String :=
  if x.isNaN then withCast "'NaN'" false type
  else if x.isInfinite then
    withCast (if x.negative then "'-Infinity'" else "'Infinity'") false type
  else withCast x.text (x.negative && !x.isZero) type

/-- A constant as a literal. -/
def ofValue : Value → String
  | .bool b => if b then "TRUE" else "FALSE"
  | .byte n => integer n.toNat "int2"
  | .sbyte n => integer n.toInt "int2"
  | .int16 n => integer n.toInt "int2"
  | .int32 n => Text.integer n.toInt
  | .int64 n => integer n.toInt "int8"
  | .single x => binaryFloat x "float4"
  | .double x => binaryFloat x "float8"
  | .decimal x => withCast x.text (x.negative && !x.isZero) "numeric"
  | .string s => Quote.string s
  | .binary bytes => "decode('" ++ String.ofList (Text.Base64.encode bytes) ++ "', 'base64')"
  | .guid g => "'" ++ g.text ++ "'::uuid"
  | .dateTime t => "TIMESTAMP '" ++ t.literal ++ "'"
  | .dateTimeOffset t => "TIMESTAMP WITH TIME ZONE '" ++ t.literal ++ "'"
  | .time i => "INTERVAL '" ++ i.text ++ "'"

end TreeSql.Postgres.Literal
