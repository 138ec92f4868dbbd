import TreeSql.Compile.Relation

/-
  TreeSql.Compile.Tree — expressions of any depth.

  The steps for a value and for rows compile one expression and hand its parts to the steps one level
  below. A value can be handed on once as rows, and a `CASE` as what it is reduced to, which is no
  larger; all else gets smaller, so that twice the size of an expression is enough levels.
-/
namespace TreeSql.Compile

open Sql

/-- The steps for expressions down to a number of levels. -/
def partsTo : (levels : Nat) → Parts
  | 0 => { value := fun _ => .fail .nestedTooDeeply, rows := fun _ _ => .fail .nestedTooDeeply }
  | n + 1 => { value := valueStep (partsTo n), rows := rowsStep (partsTo n) }

/-- The levels that an expression can need. -/
def levels (e : Expr) : Nat := 2 * e.size + 1

/-- An expression in place of a value. -/
def value (e : Expr) : CompileM SqlExpr := (partsTo (levels e)).value e

/-- An expression in place of an input, its rows bound to a variable. -/
def rows (e : Expr) (var : String) : CompileM NodeId := (partsTo (levels e)).rows e var

/-- Parts of any depth. -/
abbrev allParts : Parts := { value, rows }

end TreeSql.Compile
