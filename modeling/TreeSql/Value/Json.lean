import TreeSql.DataType.Json
import TreeSql.Value.Basic

/-
  TreeSql.Value.Json — constants in JSON.

  A constant is a variant named for its kind. Floating-point numbers that are not finite are written
  as null; decimals, identifiers and timestamps as text, bytes as an array of numbers.
-/
namespace TreeSql

open Json Decoder

namespace Interval

def toJson (i : Interval) : Json := .record [("micros", .ofInt i.micros.toInt)]

def decoder : Decoder Interval := fun n j => do
  let f ← fields ["micros"] n j
  return ⟨← f.get "micros" Decoder.int64⟩

end Interval

/-- A decimal from text, from an integer of 64 bits, or from the shortest digits of a double. -/
def Number.Decimal.decoder : Decoder Number.Decimal
  | n, .string escaped => Decoder.text Number.Decimal.ofText? n (.string escaped)
  | _, .number token =>
    match machineInteger? token with
    | some i => Number.Decimal.ofInt? i
    | none => do Number.Decimal.ofText? (← Json.double? token).text.toList
  | _, _ => none

namespace Value

def toJson : Value → Json
  | bool b => .variant "Bool" (.bool b)
  | byte n => .variant "Byte" (.ofNat n.toNat)
  | sbyte n => .variant "SByte" (.ofInt n.toInt)
  | int16 n => .variant "Int16" (.ofInt n.toInt)
  | int32 n => .variant "Int32" (.ofInt n.toInt)
  | int64 n => .variant "Int64" (.ofInt n.toInt)
  | single x => .variant "Single" (.ofFloat x)
  | double x => .variant "Double" (.ofFloat x)
  | decimal x => .variant "Decimal" (.ofString x.text)
  | string s => .variant "String" (.ofString s)
  | binary bytes => .variant "Binary" (.array (bytes.map fun b => .ofNat b.toNat))
  | guid g => .variant "Guid" (.ofString g.text)
  | dateTime t => .variant "DateTime" (.ofString t.text)
  | dateTimeOffset t => .variant "DateTimeOffset" (.ofString t.text)
  | time i => .variant "Time" i.toJson

def decoder : Decoder Value :=
  variant fun
    | "Bool" => some (.map bool Decoder.bool)
    | "Byte" => some (.map byte Decoder.uint8)
    | "SByte" => some (.map sbyte Decoder.int8)
    | "Int16" => some (.map int16 Decoder.int16)
    | "Int32" => some (.map int32 Decoder.int32)
    | "Int64" => some (.map int64 Decoder.int64)
    | "Single" => some (.map single Decoder.single)
    | "Double" => some (.map double Decoder.double)
    | "Decimal" => some (.map decimal Number.Decimal.decoder)
    | "String" => some (.map string Decoder.string)
    | "Binary" => some (.map binary (list Decoder.uint8))
    | "Guid" => some (.map guid (text Guid.ofText?))
    | "DateTime" => some (.map dateTime (text Timestamp.ofText?))
    | "DateTimeOffset" => some (.map dateTimeOffset (text ZonedTimestamp.ofText?))
    | "Time" => some (.map time Interval.decoder)
    | _ => none

end Value

end TreeSql
