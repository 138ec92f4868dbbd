import TreeSql.Command.Basic
import TreeSql.Compile.Tree
import TreeSql.Expr.Build
import TreeSql.Settings.Basic
import TreeSql.Sql.Render

/-
  TreeSql.Compile.Statement — statements: what is built for the body of a command tree.

  A query is built in stages, its statement names the last one. Changes are statements on one table,
  whose expressions may hold subqueries. How expressions are compiled is given by `Parts`. Building
  gives a statement and the final state; both are then written together, since nothing that is
  referred to changes after it was built.
-/
namespace TreeSql

open Sql

/-- A statement over the stages of its compilation. -/
inductive Statement where
  | select (root : StageId)
  | insert (table : String) (assignments : List (SqlExpr × SqlExpr)) (returning : Option (List SqlExpr))
  | update (table : String) (assignments : List (SqlExpr × SqlExpr)) (where_ : Option SqlExpr)
      (returning : Option (List SqlExpr))
  | delete (table : String) (where_ : Option SqlExpr)

namespace Statement

/-! ## Writing -/

/-- The columns and values of a new row. -/
def insertedText (expr : SqlExpr → String) (assignments : List (SqlExpr × SqlExpr)) : String :=
  match assignments with
  | [] => " DEFAULT VALUES"
  | as =>
    " (" ++ expr (.list (as.map (·.1))) ++ ") VALUES (" ++ expr (.list (as.map (·.2))) ++ ")"

def assignmentSql (a : SqlExpr × SqlExpr) : SqlExpr := .seq [a.1, .verbatim " = ", a.2]

def render (regime : Regime) (stages : Stages) (s : Statement) : String :=
  let expr := SqlExpr.render regime stages
  match s with
  | select root => stages.select regime root
  | insert table assignments returning =>
    "INSERT INTO " ++ table ++ insertedText expr assignments ++
      clause " RETURNING " (returning.map fun es => expr (.list es))
  | update table assignments where_ returning =>
    "UPDATE " ++ table ++ " SET " ++ expr (.list (assignments.map assignmentSql)) ++
      clause " WHERE " (where_.map expr) ++
      clause " RETURNING " (returning.map fun es => expr (.list es))
  | delete table where_ => "DELETE FROM " ++ table ++ clause " WHERE " (where_.map expr)

end Statement

namespace Compile

/-! ## Queries -/

/-- A projection of a query to the declared members of its rows, if it has no select list of its own
    and all members are primitive. Without it such a query would select a constant. -/
def declaredColumns? (query : Expr) (var : String) : Option Expr :=
  match query with
  | .project .. | .groupBy .. => none
  | query => do
    let row ← query.resultType.element?
    let members ← row.members?
    if members.isEmpty || members.any (·.type.kind?.isNone) then none
    else
      let input := query.bind var
      let args := members.map fun m => Expr.property input.varRef m.name m.type
      some (.project input (.newInstance (.ofMembers members) args))

theorem declaredColumns?_eq_some {query root : Expr} {var : String} (h : declaredColumns? query var = some root) :
    ∃ members : List Member, root = .project (query.bind var) (.newInstance (.ofMembers members)
      (members.map fun m => .property (query.bind var).varRef m.name m.type)) := by
  unfold declaredColumns? at h
  split at h
  · cases h
  · cases h
  · simp only [Option.bind_eq_bind, Option.bind_eq_some_iff] at h
    obtain ⟨row, -, members, -, h⟩ := h
    split at h
    · cases h
    · exact ⟨members, (Option.some.inj h).symm⟩

/-- The columns of a select list. -/
def resultColumns (s : Stage) : List Member :=
  (s.projection.getD []).map fun c => ⟨c.name, c.type⟩

/-- A query as a statement, with its result columns. -/
def queryStatement (p : Parts) (query : Expr) : CompileM (Statement × List Member) := do
  if query.isRelational then
    let label ← nextAlias
    let root := (declaredColumns? query label).getD query
    let stage := (← openStage (← p.rows root label)).stage
    return (.select stage, resultColumns (← getStage stage))
  else .fail (.rootNotRelational query.kind)

/-! ## Changes -/

/-- The table that a change is made to. -/
def targetTable (target : Binding) : Except Error String :=
  match target.expr with
  | .scan set => .ok (tableSql set)
  | e => .error (.targetNotScan e.kind)

def assignmentValues (p : Parts) : List Assignment → CompileM (List (SqlExpr × SqlExpr))
  | [] => return []
  | a :: as => do
    let column ← p.value a.property
    let newValue ← p.value a.value
    return (column, newValue) :: (← assignmentValues p as)

def predicateValue (p : Parts) : Option Expr → CompileM (Option SqlExpr)
  | none => return none
  | some e => return some (← p.value e)

/-- The values that are sent back, with their columns. -/
def returnedValues (p : Parts) : Option Expr → CompileM (Option (List SqlExpr) × List Member)
  | none => return (none, [])
  | some (.newInstance t args) =>
    match t.members? with
    | none => .fail .returningWithoutRow
    | some members =>
      if members.length = args.length then return (some (← valuesOf p.value args), members)
      else .fail (.arity "RETURNING" (Text.numeral members.length) args.length)
  | some _ => .fail .returningNotRow

def insertStatement (p : Parts) (c : Insert) : CompileM (Statement × List Member) := do
  let table ← targetTable c.target
  let assignments ← assignmentValues p c.assignments
  let (returning, columns) ← returnedValues p c.returning
  return (.insert table assignments returning, columns)

def updateStatement (p : Parts) (c : Update) : CompileM (Statement × List Member) := do
  if c.assignments.isEmpty then .fail .updateWithoutAssignments
  else
    let table ← targetTable c.target
    let assignments ← assignmentValues p c.assignments
    let where_ ← predicateValue p c.predicate
    let (returning, columns) ← returnedValues p c.returning
    return (.update table assignments where_ returning, columns)

def deleteStatement (p : Parts) (c : Delete) : CompileM (Statement × List Member) := do
  let table ← targetTable c.target
  return (.delete table (← predicateValue p c.predicate), [])

/-! ## Bodies -/

def statement (p : Parts) : CommandBody → CompileM (Statement × List Member)
  | .query e => queryStatement p e
  | .insert c => insertStatement p c
  | .update c => updateStatement p c
  | .delete c => deleteStatement p c

/-- The setting under which a body is compiled. -/
def contextOf (settings : Settings) : CommandBody → Context
  | .query _ => { mode := .query, liftConstants := settings.liftInQueries }
  | .insert c => { mode := .target c.target.var, liftConstants := settings.liftInChanges }
  | .update c => { mode := .target c.target.var, liftConstants := settings.liftInChanges }
  | .delete c => { mode := .target c.target.var, liftConstants := settings.liftInChanges }

/-- The statement of a body, its result columns and the final state. -/
def build (settings : Settings) (body : CommandBody) :
    Except Error ((Statement × List Member) × State) :=
  (statement allParts body).run (contextOf settings body) {}

end Compile

end TreeSql
