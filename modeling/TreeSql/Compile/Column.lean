import TreeSql.Compile.State

/-
  TreeSql.Compile.Column — column references, resolved through the stages around a column.

  A reference starts at the innermost stage of the node its variable is bound to and moves outwards
  until it meets a stage in scope. Every stage it leaves has to expose the column, so it is pulled
  up there, and from outside it goes by the alias and the exposed name. From the last stage of a
  node the reference moves on to the join that the node is a side of.
-/
namespace TreeSql.Compile

open Sql

/-- A column by the alias it is visible under and its name there. -/
structure ColumnPath where
  qualifier : String
  name : String

/-- Pulls a column through a stage. -/
def pullThrough (path : ColumnPath) (stage : AliasedStage) : CompileM ColumnPath := do
  return ⟨stage.name, ← pullColumn stage.stage path.qualifier path.name⟩

/-- Pulls a column through stages until one is in scope. Says whether one was. -/
def pullToScope (path : ColumnPath) : List AliasedStage → CompileM (ColumnPath × Bool)
  | [] => return (path, false)
  | stage :: rest => do
    if (← read).scopes.contains stage.stage then return (path, true)
    else pullToScope (← pullThrough path stage) rest

/-- Pulls a column outwards from a node and the joins around it. A join has a smaller number than
    its sides, so the walk ends. -/
def pullFrom (node : NodeId) (path : ColumnPath) : CompileM ColumnPath := do
  let n ← getNode node
  let (path, found) ← pullToScope path n.selects
  if found then return path
  else
    match n.joinParent with
    | some parent => if _h : parent < node then pullFrom parent path else return path
    | none => return path
termination_by node

/-- The variable, or the join member, that a property is taken of. -/
def propertyOwner (base : Expr) : Except Error String :=
  match base with
  | .varRef name _ => .ok name
  | .property _ name _ => .ok name
  | e => .error (.propertyOf e.kind)

/-- A column of a bound input, as it is referred to in the current scope. -/
def boundColumn (base : Expr) (name : String) : CompileM SqlExpr := do
  let owner ← propertyOwner base
  match ← boundNode owner with
  | none => .fail (.unbound owner)
  | some node => do
    let path ← pullFrom node ⟨(← getNode node).first.name, name⟩
    return .columnRef path.qualifier path.name

/-- What an error calls the expression that is not the target. -/
def ownerText (e : Expr) : String :=
  match e with
  | .varRef name _ => name
  | .property _ name _ => name
  | e => e.kind.name

/-- A property access: a column of the target of a change, or of a bound input. -/
def propertyValue (base : Expr) (name : String) : CompileM SqlExpr := do
  match (← read).mode with
  | .query => boundColumn base name
  | .target var =>
    match base with
    | .varRef owner _ =>
      if owner = var then return .property name else .fail (.notOfTarget owner var)
    | e => .fail (.notOfTarget (ownerText e) var)

end TreeSql.Compile
