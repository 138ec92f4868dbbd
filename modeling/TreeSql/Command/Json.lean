import TreeSql.Command.Basic
import TreeSql.Error
import TreeSql.Expr.Json
import TreeSql.Json.Reader
import TreeSql.Json.Written

/-
  TreeSql.Command.Json — command trees in JSON.

  `CommandTree.ofText` reads a tree from JSON text and `CommandTree.text` writes it.
-/
namespace TreeSql

open Json Decoder

namespace ParameterDecl

def toJson (d : ParameterDecl) : Json := .record [("name", .ofString d.name), ("ty", d.type.toJson)]

def decoder : Decoder ParameterDecl := Decoder.map (fun m => ⟨m.name, m.type⟩) Named.decoder

end ParameterDecl

namespace Assignment

def toJson (a : Assignment) : Json :=
  .record [("property", a.property.toJson), ("value", a.value.toJson)]

def decoder : Decoder Assignment := fun n j => do
  let f ← fields ["property", "value"] n j
  return ⟨← f.get "property" Expr.decoder, ← f.get "value" Expr.decoder⟩

end Assignment

/-! ## Changes -/

namespace Insert

def toJson (c : Insert) : Json :=
  .record [("target", c.target.toJson), ("set_clauses", .array (c.assignments.map Assignment.toJson)),
    ("returning", .ofOption Expr.toJson c.returning)]

def decoder : Decoder Insert := fun n j => do
  let f ← fields ["target", "set_clauses", "returning"] n j
  return {
    target := ← f.get "target" BindingOf.decoder
    assignments := ← f.getD "set_clauses" (list Assignment.decoder) []
    returning := ← f.getD "returning" (option Expr.decoder) none }

end Insert

namespace Update

def toJson (c : Update) : Json :=
  .record [("target", c.target.toJson), ("set_clauses", .array (c.assignments.map Assignment.toJson)),
    ("predicate", .ofOption Expr.toJson c.predicate),
    ("returning", .ofOption Expr.toJson c.returning)]

def decoder : Decoder Update := fun n j => do
  let f ← fields ["target", "set_clauses", "predicate", "returning"] n j
  return {
    target := ← f.get "target" BindingOf.decoder
    assignments := ← f.getD "set_clauses" (list Assignment.decoder) []
    predicate := ← f.getD "predicate" (option Expr.decoder) none
    returning := ← f.getD "returning" (option Expr.decoder) none }

end Update

namespace Delete

def toJson (c : Delete) : Json :=
  .record [("target", c.target.toJson), ("predicate", .ofOption Expr.toJson c.predicate)]

def decoder : Decoder Delete := fun n j => do
  let f ← fields ["target", "predicate"] n j
  return {
    target := ← f.get "target" BindingOf.decoder
    predicate := ← f.getD "predicate" (option Expr.decoder) none }

end Delete

/-! ## Trees -/

namespace CommandBody

def toJson : CommandBody → Json
  | query e => .variant "Query" e.toJson
  | insert c => .variant "Insert" c.toJson
  | update c => .variant "Update" c.toJson
  | delete c => .variant "Delete" c.toJson

def decoder : Decoder CommandBody :=
  variant fun
    | "Query" => some (.map query Expr.decoder)
    | "Insert" => some (.map insert Insert.decoder)
    | "Update" => some (.map update Update.decoder)
    | "Delete" => some (.map delete Delete.decoder)
    | _ => none

end CommandBody

namespace CommandTree

def toJson (tree : CommandTree) : Json :=
  .record [("body", tree.body.toJson), ("parameters", .array (tree.parameters.map ParameterDecl.toJson))]

def decoder : Decoder CommandTree := fun n j => do
  let f ← fields ["body", "parameters"] n j
  return {
    body := ← f.get "body" CommandBody.decoder
    parameters := ← f.getD "parameters" (list ParameterDecl.decoder) [] }

/-- The JSON text of a tree. -/
def text (tree : CommandTree) : String := String.ofList tree.toJson.pretty

/-- The tree in a JSON text. -/
def ofText (s : String) : Except Error CommandTree :=
  match (Json.ofText? s.toList).bind (decode? decoder) with
  | some tree => .ok tree
  | none => .error .malformedJson

end CommandTree

end TreeSql
