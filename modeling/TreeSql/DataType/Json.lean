import TreeSql.DataType.Basic
import TreeSql.Json.Decoder

/-
  TreeSql.DataType.Json — types in JSON.

  A type is a record of its shape (`edm`) and its facets; a shape is a variant. All facets are
  written, and all may be absent where types are read.
-/
namespace TreeSql

open Json Decoder

def PrimitiveKind.toJson (k : PrimitiveKind) : Json := .ofString k.name

def PrimitiveKind.decoder : Decoder PrimitiveKind := enum PrimitiveKind.ofName?

/-! ## Facets -/

namespace Facets

def toJson (f : Facets) : Json :=
  .record [("max_length", .ofOption (fun n => .ofNat n.toNat) f.maxLength),
    ("precision", .ofOption (fun n => .ofNat n.toNat) f.precision),
    ("scale", .ofOption (fun n => .ofNat n.toNat) f.scale),
    ("fixed_length", .ofOption .bool f.fixedLength),
    ("identity", .bool f.identity)]

def decoder : Decoder Facets := fun n j => do
  let f ← fields ["max_length", "precision", "scale", "fixed_length", "identity"] n j
  return {
    maxLength := ← f.getD "max_length" (option uint32) none
    precision := ← f.getD "precision" (option uint8) none
    scale := ← f.getD "scale" (option uint8) none
    fixedLength := ← f.getD "fixed_length" (option bool) none
    identity := ← f.getD "identity" bool false }

end Facets

/-! ## Types -/

namespace DataType

/-- A type from the JSON of its shape. -/
def typeRecord (shape : Json) (f : Facets) : Json :=
  .record [("edm", shape), ("facets", f.toJson)]

mutual

def toJson : DataType → Json
  | primitive k f => typeRecord (.variant "Primitive" k.toJson) f
  | row ms f => typeRecord (.variant "Row" (.array (membersToJson ms))) f
  | collection e f => typeRecord (.variant "Collection" e.toJson) f
termination_by structural t => t

def membersToJson : List (Named DataType) → List Json
  | [] => []
  | ⟨name, t⟩ :: ms => .record [("name", .ofString name), ("ty", t.toJson)] :: membersToJson ms
termination_by structural ms => ms

end

/-- A record of a name and a type. -/
def namedDecoder (type : Decoder DataType) : Decoder Member := fun n j => do
  let f ← fields ["name", "ty"] n j
  return ⟨← f.get "name" Decoder.string, ← f.get "ty" type⟩

/-- The shape of a type, as a type without facets. -/
def shapeDecoder (type : Decoder DataType) : Decoder DataType :=
  variant fun
    | "Primitive" => some (.map ofKind PrimitiveKind.decoder)
    | "Row" => some (.map ofMembers (list (namedDecoder type)))
    | "Collection" => some (.map ofElement type)
    | _ => none

def decoderStep (type : Decoder DataType) : Decoder DataType := fun n j => do
  let f ← fields ["edm", "facets"] n j
  let shape ← f.get "edm" (shapeDecoder type)
  return shape.withFacets (← f.getD "facets" Facets.decoder {})

def decoder : Decoder DataType := recursive decoderStep

end DataType

namespace Named

def toJson (m : Member) : Json := .record [("name", .ofString m.name), ("ty", m.type.toJson)]

def decoder : Decoder Member := DataType.namedDecoder DataType.decoder

end Named

end TreeSql
