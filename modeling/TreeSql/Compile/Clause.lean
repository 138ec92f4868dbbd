import TreeSql.Compile.State

/-
  TreeSql.Compile.Clause — which clauses a stage can still take.

  A `SELECT` evaluates its clauses in a fixed order. A clause can be attached to a stage if doing so
  means the same as a new `SELECT` around it; where it would not, the stage is closed and wrapped.
-/
namespace TreeSql.Compile

open Sql

/-- What is about to be attached to a stage. -/
inductive Clause where
  | filter
  | groupBy
  | distinct
  | sort
  | skip
  | project
  | limit
  | newInstance
deriving DecidableEq

namespace Clause

def all : List Clause := [filter, groupBy, distinct, sort, skip, project, limit, newInstance]

def name : Clause → String
  | filter => "Filter"
  | groupBy => "GroupBy"
  | distinct => "Distinct"
  | sort => "Sort"
  | skip => "Skip"
  | project => "Project"
  | limit => "Limit"
  | newInstance => "NewInstance"

/-- Whether the clause can be attached to the stage without changing what it means. -/
def compatible (c : Clause) (s : Stage) : Bool :=
  match c with
  | filter | sort => s.projection.isNone && s.groupBy.isNone && s.skip.isNone && s.limit.isNone
  | groupBy =>
    s.projection.isNone && s.groupBy.isNone && !s.distinct && s.orderBy.isNone && s.skip.isNone &&
      s.limit.isNone
  | distinct => s.orderBy.isNone && s.skip.isNone && s.limit.isNone
  | skip => s.projection.isNone && s.skip.isNone && s.limit.isNone
  | project => s.projection.isNone && !s.distinct
  | limit | newInstance => true

end Clause

/-- Puts a stage with the given outer alias around the open stage of a node, and gives its number. -/
def wrap (node : NodeId) (label : String) : CompileM StageId := do
  let last ← openStage node
  let wrapper ← pushStage (.ofSource (.stage last.stage) last.name)
  modifyNode node fun n => { n with wrappers := n.wrappers ++ [⟨label, wrapper⟩] }
  return wrapper

/-- The open stage of a node, wrapped first if it cannot take the clause. -/
def openFor (clause : Clause) (node : NodeId) (label : String) : CompileM StageId := do
  let last ← openStage node
  if clause.compatible (← getStage last.stage) then return last.stage
  else wrap node label

/-! ## Attaching -/

/-- Adds a condition to the `WHERE` clause. -/
def addCondition (condition : SqlExpr) (s : Stage) : Stage :=
  { s with where_ := some (match s.where_ with
    | some present => .binary .and present condition
    | none => condition) }

/-- Adds a limit: of two limits the smaller counts. -/
def addLimit (limit : SqlExpr) (s : Stage) : Stage :=
  { s with limit := some (match s.limit with
    | some present => .call "LEAST" [present, limit]
    | none => limit) }

end TreeSql.Compile
