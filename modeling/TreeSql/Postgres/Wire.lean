import TreeSql.DataType.Basic

/-
  TreeSql.Postgres.Wire — the type under which a parameter travels to the server.

  Strings travel untyped, so that the server reads them as whatever character type the context
  asks for.
-/
namespace TreeSql.Postgres

inductive WireType where
  | bytea
  | boolean
  | smallint
  | integer
  | bigint
  | real
  | double
  | numeric
  | timestamp
  | timestampTz
  | interval
  | uuid
  | unknown
deriving DecidableEq

namespace WireType

def name : WireType → String
  | bytea => "Bytea"
  | boolean => "Boolean"
  | smallint => "Smallint"
  | integer => "Integer"
  | bigint => "Bigint"
  | real => "Real"
  | double => "Double"
  | numeric => "Numeric"
  | timestamp => "Timestamp"
  | timestampTz => "TimestampTz"
  | interval => "Interval"
  | uuid => "Uuid"
  | unknown => "Unknown"

def ofKind : PrimitiveKind → WireType
  | .binary => bytea
  | .boolean => boolean
  | .byte | .sbyte | .int16 => smallint
  | .int32 => integer
  | .int64 => bigint
  | .single => real
  | .double => double
  | .decimal => numeric
  | .dateTime => timestamp
  | .dateTimeOffset => timestampTz
  | .time => interval
  | .guid => uuid
  | .string => unknown

end WireType

end TreeSql.Postgres
