import TreeSql.Expr.Basic

/-
  TreeSql.Command.Basic — command trees: one query or one change of a table, with the parameters
  that it declares.
-/
namespace TreeSql

structure ParameterDecl where
  name : String
  type : DataType
deriving DecidableEq

/-- The assignment of a value to a column of the target. -/
structure Assignment where
  property : Expr
  value : Expr

structure Insert where
  target : Binding
  assignments : List Assignment := []
  /-- A row of target columns to send back. -/
  returning : Option Expr := none

structure Update where
  target : Binding
  assignments : List Assignment := []
  predicate : Option Expr := none
  returning : Option Expr := none

structure Delete where
  target : Binding
  predicate : Option Expr := none

inductive CommandBody where
  | query (query : Expr)
  | insert (command : Insert)
  | update (command : Update)
  | delete (command : Delete)

def CommandBody.name : CommandBody → String
  | query _ => "query"
  | insert _ => "insert"
  | update _ => "update"
  | delete _ => "delete"

structure CommandTree where
  body : CommandBody
  parameters : List ParameterDecl := []

namespace CommandTree

def ofQuery (query : Expr) : CommandTree := { body := .query query }

def withParameter (tree : CommandTree) (name : String) (type : DataType) : CommandTree :=
  { tree with parameters := tree.parameters ++ [⟨name, type⟩] }

end CommandTree

end TreeSql
