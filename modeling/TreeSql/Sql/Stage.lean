import TreeSql.Expr.Basic
import TreeSql.Sql.Expr
import TreeSql.Text.Digits

/-
  TreeSql.Sql.Stage — `SELECT` statements as data, and the arena that holds them.

  A stage without a projection selects the columns that were pulled up through it: each is a column
  of a source alias under an exposed name. `pull` adds one and keeps the exposed names distinct, by
  names of aliases drawn from a counter. A stage that selects nothing of its own and has no clause
  is a pass-through.
-/
namespace TreeSql.Sql

/-- A column of a select list. -/
structure Column where
  expr : SqlExpr
  name : String
  type : DataType

structure OrderItem where
  expr : SqlExpr
  ascending : Bool

/-- A source column that a stage exposes, and under which name. -/
structure Pulled where
  source : String
  column : String
  name : String
deriving DecidableEq

/-- What stands before `AS` in a `FROM` clause. -/
inductive Source where
  | stage (id : StageId)
  /-- A table name, or a query in parentheses. -/
  | table (text : String)
  | function (call : SqlExpr)
  /-- Constant rows, in parentheses already. -/
  | rows (rows : SqlExpr)
  | setOp (kind : SetOpKind) (operands : List StageId)

/-- A source with its alias. -/
structure FromItem where
  source : Source
  name : String
  /-- A stage that is not to be replaced by its own source. -/
  forceSubquery : Bool := false

/-- A `FROM` clause: one item, or a join. -/
inductive FromTree where
  | item (item : FromItem)
  | join (left : FromTree) (kind : JoinKind) (right : FromTree) (condition : Option SqlExpr)

structure Stage where
  distinct : Bool := false
  projection : Option (List Column) := none
  pulled : List Pulled := []
  from_ : Option FromTree := none
  where_ : Option SqlExpr := none
  groupBy : Option (List SqlExpr) := none
  orderBy : Option (List OrderItem) := none
  skip : Option SqlExpr := none
  limit : Option SqlExpr := none

/-- The stages of one statement, by number. -/
abbrev Stages := List Stage

/-- The name of the alias with the given number. -/
def aliasName (n : Nat) : String := "Alias" ++ Text.numeral n

namespace Stage

/-- A stage that selects from one source. -/
def ofSource (source : Source) (name : String) : Stage := { from_ := some (.item { source, name }) }

/-- Whether the stage adds nothing to its source. -/
def isPassthrough (s : Stage) : Bool :=
  s.projection.isNone && s.where_.isNone && !s.distinct && s.groupBy.isNone && s.orderBy.isNone &&
    s.skip.isNone && s.limit.isNone

/-- The names of the columns that the stage exposes. -/
def outputNames (s : Stage) : List String :=
  match s.projection with
  | some columns => columns.map (·.name)
  | none => s.pulled.map (·.name)

/-! ## Pulling columns up -/

/-- The exposed name of a source column, if it is pulled up already. -/
def exposedName? (s : Stage) (source column : String) : Option String :=
  (s.pulled.find? fun p => p.source == source && p.column == column).map (·.name)

/-- A name that is not taken: the candidate, or the base with the name of a fresh alias after it.
    Gives the number of the last alias drawn. -/
def freshName (taken : List String) (base : String) : (fuel : Nat) → (candidate : String) →
    (counter : Nat) → String × Nat
  | 0, candidate, counter => (candidate, counter)
  | fuel + 1, candidate, counter =>
    if taken.contains candidate then
      freshName taken base fuel (base ++ "_" ++ aliasName (counter + 1)) (counter + 1)
    else (candidate, counter)

/-- Exposes a source column. Gives its name, the new stage and the new alias counter; a column that
    is pulled up already changes nothing. Of the candidate names one more than there are taken ones
    are tried, so one is free. -/
def pull (s : Stage) (source column : String) (counter : Nat) : String × Stage × Nat :=
  match s.exposedName? source column with
  | some name => (name, s, counter)
  | none =>
    let taken := s.pulled.map (·.name)
    let (name, counter) := freshName taken column taken.length column counter
    (name, { s with pulled := s.pulled ++ [⟨source, column, name⟩] }, counter)

/-- Exposes columns under their own names. A column that is exposed already stays where it is. -/
def expose (s : Stage) (source : String) (columns : List String) : Stage :=
  columns.foldl (fun s column =>
    if (s.exposedName? source column).isSome then s
    else { s with pulled := s.pulled ++ [⟨source, column, column⟩] }) s

end Stage

namespace Stages

/-- A stage by number; an unused number is an empty stage. -/
def get (stages : Stages) (id : StageId) : Stage := (stages[id]?).getD {}

end Stages

end TreeSql.Sql
