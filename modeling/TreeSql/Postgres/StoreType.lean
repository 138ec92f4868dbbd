import TreeSql.Postgres.TypeName

/-
  TreeSql.Postgres.StoreType — the types of PostgreSQL and the abstract types they stand for.

  `ofDataType` gives the store type of an abstract type, `toDataType` the abstract type of a store
  type. A store type is declared by a canonical name with arguments; `parse` also takes the other
  names of a type, `text` writes the arguments that belong in a declaration.
-/
namespace TreeSql.Postgres

/-- A canonical type name with the facets that its declaration can carry. -/
structure StoreType where
  name : String
  facets : Facets := {}
deriving DecidableEq

namespace StoreType

/-- The precision of a numeric type that has only a scale. -/
def defaultPrecision : UInt8 := 19

/-- The scale of a numeric type that has only a precision. -/
def defaultScale : UInt8 := 4

/-! ## Declarations -/

/-- The names by which a type may be declared, each with the canonical one. -/
def aliases : List (String × String) :=
  [("bool", "bool"), ("boolean", "bool"),
    ("int2", "int2"), ("smallint", "int2"),
    ("int4", "int4"), ("int", "int4"), ("integer", "int4"),
    ("int8", "int8"), ("bigint", "int8"),
    ("serial2", "serial2"), ("smallserial", "serial2"),
    ("serial4", "serial4"), ("serial", "serial4"),
    ("serial8", "serial8"), ("bigserial", "serial8"),
    ("float4", "float4"), ("real", "float4"),
    ("float8", "float8"), ("double precision", "float8"),
    ("numeric", "numeric"), ("decimal", "numeric"),
    ("text", "text"),
    ("varchar", "varchar"), ("character varying", "varchar"),
    ("bpchar", "bpchar"), ("char", "bpchar"), ("character", "bpchar"),
    ("xml", "xml"),
    ("bytea", "bytea"),
    ("uuid", "uuid"),
    ("date", "date"),
    ("time", "time"), ("time without time zone", "time"),
    ("timestamp", "timestamp"), ("timestamp without time zone", "timestamp"),
    ("timestamptz", "timestamptz"), ("timestamp with time zone", "timestamptz"),
    ("interval", "interval"),
    ("rowversion", "rowversion")]

/-- An argument that has to fit eight bits. -/
def smallArg (args : List UInt32) (i : Nat) : Except Error (Option UInt8) :=
  match args[i]? with
  | none => .ok none
  | some n => if n.toNat < 256 then .ok (some n.toUInt8) else .error (.typeArgumentTooLarge n.toNat)

/-- The facets that the arguments of a declaration give; other arguments are dropped. -/
def facetsOfArgs (name : String) (args : List UInt32) : Except Error Facets := do
  if name = "numeric" then
    let precision ← smallArg args 0
    let scale ← smallArg args 1
    return { precision, scale }
  else if name = "varchar" ∨ name = "bpchar" then
    return { maxLength := args[0]? }
  else if name = "timestamp" ∨ name = "timestamptz" ∨ name = "interval" then
    let precision ← smallArg args 0
    return { precision }
  else
    return {}

/-- Reads a declaration. -/
def parse (s : String) : Except Error StoreType := do
  let (words, args) ← TypeName.parse s
  match aliases.lookup words with
  | none => .error (.unknownStoreType words)
  | some name => return { name, facets := ← facetsOfArgs name args }

/-- The arguments of a declaration, with the parentheses. -/
def argsText (name : String) (f : Facets) : String :=
  if name = "numeric" then
    match f.precision, f.scale with
    | some p, some s => "(" ++ Text.numeral p.toNat ++ "," ++ Text.numeral s.toNat ++ ")"
    | _, _ => ""
  else if name = "varchar" ∨ name = "bpchar" then
    match f.maxLength with
    | some n => "(" ++ Text.numeral n.toNat ++ ")"
    | none => ""
  else if name = "timestamp" ∨ name = "timestamptz" ∨ name = "interval" then
    match f.precision with
    | some p => "(" ++ Text.numeral p.toNat ++ ")"
    | none => ""
  else ""

/-- The declaration of a type. -/
def text (t : StoreType) : String := t.name ++ argsText t.name t.facets

/-! ## Abstract types -/

def ofString (f : Facets) : StoreType :=
  if f.fixedLength = some true then ⟨"bpchar", { maxLength := f.maxLength }⟩
  else if f.maxLength.isSome then ⟨"varchar", { maxLength := f.maxLength }⟩
  else ⟨"text", {}⟩

/-- A numeric type has both of precision and scale or neither. -/
def ofDecimal (f : Facets) : StoreType :=
  match f.precision, f.scale with
  | none, none => ⟨"numeric", {}⟩
  | p, s =>
    ⟨"numeric", { precision := p.getD defaultPrecision, scale := s.getD defaultScale }⟩

def ofPrimitive (kind : PrimitiveKind) (f : Facets) : StoreType :=
  match kind with
  | .boolean => ⟨"bool", {}⟩
  | .byte | .sbyte | .int16 => ⟨if f.identity then "serial2" else "int2", {}⟩
  | .int32 => ⟨if f.identity then "serial4" else "int4", {}⟩
  | .int64 => ⟨if f.identity then "serial8" else "int8", {}⟩
  | .single => ⟨"float4", {}⟩
  | .double => ⟨"float8", {}⟩
  | .decimal => ofDecimal f
  | .string => ofString f
  | .binary => ⟨"bytea", {}⟩
  | .guid => ⟨"uuid", {}⟩
  | .dateTime => ⟨"timestamp", { precision := f.precision }⟩
  | .dateTimeOffset => ⟨"timestamptz", { precision := f.precision }⟩
  | .time => ⟨"interval", { precision := f.precision }⟩

/-- The store type of an abstract type. -/
def ofDataType (t : DataType) : Except Error StoreType :=
  match t with
  | .primitive kind f => .ok (ofPrimitive kind f)
  | t => .error (.noStoreType t)

/-- Kind and facets of the abstract type behind a canonical name. -/
def primitive? (name : String) (f : Facets) : Option (PrimitiveKind × Facets) :=
  match name with
  | "bool" => some (.boolean, {})
  | "int2" => some (.int16, {})
  | "int4" => some (.int32, {})
  | "int8" => some (.int64, {})
  | "serial2" => some (.int16, { identity := true })
  | "serial4" => some (.int32, { identity := true })
  | "serial8" => some (.int64, { identity := true })
  | "float4" => some (.single, {})
  | "float8" => some (.double, {})
  | "uuid" => some (.guid, {})
  | "numeric" => some (.decimal, { precision := f.precision, scale := f.scale })
  | "bpchar" => some (.string, { fixedLength := some true, maxLength := f.maxLength })
  | "varchar" => some (.string, { fixedLength := some false, maxLength := f.maxLength })
  | "text" | "xml" => some (.string, { fixedLength := some false })
  | "timestamp" => some (.dateTime, { precision := f.precision })
  | "date" => some (.dateTime, { precision := some 0 })
  | "timestamptz" => some (.dateTimeOffset, { precision := f.precision })
  | "time" | "interval" => some (.time, { precision := f.precision })
  | "bytea" => some (.binary, { fixedLength := some false, maxLength := f.maxLength })
  | "rowversion" => some (.binary, { fixedLength := some true, maxLength := some 8 })
  | _ => none

/-- The abstract type of a store type. -/
def toDataType (t : StoreType) : Except Error DataType :=
  match primitive? t.name t.facets with
  | some (kind, f) => .ok (.primitive kind f)
  | none => .error (.unknownStoreType t.name)

end StoreType

/-! ## Casts -/

/-- The type that a cast to a primitive kind names. -/
def castName : PrimitiveKind → String
  | .boolean => "bool"
  | .byte | .sbyte | .int16 => "int2"
  | .int32 => "int4"
  | .int64 => "int8"
  | .string => "text"
  | .decimal => "numeric"
  | .single => "float4"
  | .double => "float8"
  | .dateTime => "timestamp"
  | .dateTimeOffset => "timestamptz"
  | .time => "interval"
  | .binary => "bytea"
  | .guid => "uuid"

/-- The name of a cast target; facets are not written. -/
def castTarget (t : DataType) : Except Error String :=
  match t with
  | .primitive kind _ => .ok (castName kind)
  | t => .error (.castToNonPrimitive t)

end TreeSql.Postgres
