import TreeSql.DataType.Basic
import TreeSql.Text.Quoted

/-
  TreeSql.DataType.Description — types as error messages show them.

  `usage` shows a type with its facets, `description` leaves out the facets at the top.
-/
namespace TreeSql

/-- An optional part: its absence is shown too. -/
def describeOption (text : Option String) : String :=
  match text with
  | none => "None"
  | some s => "Some(" ++ s ++ ")"

def describeBool (b : Bool) : String := if b then "true" else "false"

def Facets.description (f : Facets) : String :=
  "Facets \x7b max_length: " ++ describeOption (f.maxLength.map fun n => Text.numeral n.toNat) ++
    ", precision: " ++ describeOption (f.precision.map fun n => Text.numeral n.toNat) ++
    ", scale: " ++ describeOption (f.scale.map fun n => Text.numeral n.toNat) ++
    ", fixed_length: " ++ describeOption (f.fixedLength.map describeBool) ++
    ", identity: " ++ describeBool f.identity ++ " \x7d"

namespace DataType

/-- A type, described by its parts, with its facets. -/
def usage (description : String) (f : Facets) : String :=
  "TypeUsage \x7b edm: " ++ description ++ ", facets: " ++ f.description ++ " \x7d"

mutual

/-- A type without the facets at its top. -/
def description : DataType → String
  | primitive k _ => "Primitive(" ++ k.name ++ ")"
  | row ms _ => "Row([" ++ String.intercalate ", " (memberDescriptions ms) ++ "])"
  | collection e _ => "Collection(" ++ usage e.description e.facets ++ ")"
termination_by structural t => t

/-- The members of a row, each with its name in quotes. -/
def memberDescriptions : List (Named DataType) → List String
  | [] => []
  | ⟨n, t⟩ :: ms =>
    ("Member \x7b name: " ++ Text.Quoted.encode n ++ ", ty: " ++ usage t.description t.facets ++
      " \x7d") :: memberDescriptions ms
termination_by structural ms => ms

end

end DataType

end TreeSql
