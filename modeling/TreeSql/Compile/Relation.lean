import TreeSql.Compile.Clause
import TreeSql.Compile.Scalar

/-
  TreeSql.Compile.Relation — expressions that give rows.

  `rowsStep` compiles one expression; how its parts are compiled is given by `Parts`. The result is a
  node for the rows, bound to the variable under which the expressions around it see them. An
  operator attaches its clause to the open stage of its input where that stage can take it, and to a
  stage around it otherwise.
-/
namespace TreeSql.Compile

open Sql Postgres

/-! ## Sources -/

/-- A defining query in parentheses, or the table with its schema. -/
def tableSql (set : EntitySet) : String :=
  match set.mapping.definingQuery with
  | some query => "(" ++ query ++ ")"
  | none =>
    let table := (set.mapping.storeName.or set.mapping.table).getD set.name
    let schema := (set.mapping.storeSchema.or set.mapping.schema).getD set.container
    (if schema.isEmpty then "" else Quote.identifier schema ++ ".") ++ Quote.identifier table

def callRows (p : Parts) (f : FunctionRef) (args : List Expr) (t : DataType) (var : String) :
    CompileM NodeId := do
  let call ← callValue p.value f args t
  pushSource (.function call) var

/-! ## Filters, order and limits -/

def filterRows (p : Parts) (input : Binding) (predicate : Expr) (var : String) :
    CompileM NodeId := do
  let node ← p.rows input.expr input.var
  let stage ← openFor .filter node var
  let condition ← inScope stage (p.value predicate)
  modifyStage stage (addCondition condition)
  return node

/-- Sort keys, in order. -/
def orderItems (p : Parts) : List SortKey → CompileM (List OrderItem)
  | [] => return []
  | key :: keys => do
    let value ← p.value key.expr
    return ⟨value, key.ascending⟩ :: (← orderItems p keys)

/-- Sets the order of a stage. -/
def orderBy (p : Parts) (stage : StageId) (keys : List SortKey) : CompileM Unit := do
  let items ← inScope stage (orderItems p keys)
  modifyStage stage fun s => { s with orderBy := some items }

def sortRows (p : Parts) (input : Binding) (keys : List SortKey) (var : String) :
    CompileM NodeId := do
  let node ← p.rows input.expr input.var
  let stage ← openFor .sort node var
  orderBy p stage keys
  return node

/-- Rows in order without the first ones. The count does not see the rows. -/
def skipRows (p : Parts) (input : Binding) (keys : List SortKey) (count : Expr) (var : String) :
    CompileM NodeId := do
  let node ← p.rows input.expr input.var
  let stage ← openFor .skip node var
  orderBy p stage keys
  let count ← p.value count
  modifyStage stage fun s => { s with skip := some count }
  return node

/-- The first rows. The count does not see the rows. -/
def limitRows (p : Parts) (input count : Expr) : CompileM NodeId := do
  let label ← nextAlias
  let node ← p.rows input label
  let stage ← openStage node
  let count ← p.value count
  modifyStage stage.stage (addLimit count)
  return node

/-- Rows without repetition. A stage put around the input exposes the columns that the input has. -/
def distinctRows (p : Parts) (input : Expr) (var : String) : CompileM NodeId := do
  let label ← nextAlias
  let node ← p.rows input label
  let last ← openStage node
  let closed ← getStage last.stage
  if Clause.distinct.compatible closed then
    modifyStage last.stage fun s => { s with distinct := true }
  else
    let wrapper ← wrap node var
    modifyStage wrapper fun s => { s.expose last.name closed.outputNames with distinct := true }
  return node

/-! ## Rows by their columns -/

/-- Named columns of select-list values. -/
def columnsOf (members : List Member) (values : List SqlExpr) : List Column :=
  members.zipWith (fun m v => ⟨v, m.name, m.type⟩) values

/-- A value in a select list. The type of a string constant has to be given there. -/
def columnValue (arg : Expr) (value : SqlExpr) : SqlExpr :=
  match arg with
  | .constant (.string _) => .cast value "varchar"
  | _ => value

/-- The columns of a row constructor. -/
def rowColumns (p : Parts) (row : Expr) : CompileM (List Column) := do
  match row with
  | .newInstance t args =>
    match t.members? with
    | none => .fail .projectionWithoutRow
    | some members =>
      if members.length = args.length then
        let values ← valuesOf p.value args
        return columnsOf members (args.zipWith columnValue values)
      else .fail (.arity "row constructor" (Text.numeral members.length) args.length)
  | e => .fail (.projectionOf e.kind)

/-- The columns of each row are chosen in the scope of the input, if its stage can take a select
    list. Otherwise they are columns of the closed input. -/
def projectRows (p : Parts) (input : Binding) (row : Expr) (var : String) : CompileM NodeId := do
  let child ← p.rows input.expr input.var
  let last ← openStage child
  if Clause.project.compatible (← getStage last.stage) then
    let columns ← inScope last.stage (rowColumns p row)
    modifyStage last.stage fun s => { s with projection := some columns }
    pushNode { first := ⟨var, last.stage⟩ }
  else
    let columns ← rowColumns p row
    let wrapper ← wrap child var
    modifyStage wrapper fun s => { s with projection := some columns }
    pushNode { first := ⟨var, wrapper⟩ }

/-! ## Constant rows -/

/-- The name of the column of rows that are single values. -/
def valueColumn : String := "C"

/-- One row of constant rows: a row constructor, or a single value. -/
def constantColumns (p : Parts) (arg : Expr) : CompileM (List Column) := do
  match arg with
  | .newInstance t args => rowColumns p (.newInstance t args)
  | e => return [⟨← p.value e, valueColumn, e.resultType⟩]

/-- The select lists of constant rows. -/
def constantSelects (p : Parts) : List Expr → CompileM (List (List SqlExpr))
  | [] => return []
  | arg :: args => do
    let columns ← constantColumns p arg
    let list := SqlExpr.list (columns.map fun c => .column c.expr c.name c.type)
    return [.verbatim "SELECT ", list] :: (← constantSelects p args)

/-- No rows, with a column of the element type. -/
def emptyRows (t : DataType) : Except Error SqlExpr := do
  match t.element? with
  | none => throw .rowsWithoutElementType
  | some element =>
    let type ← castTarget element
    return .verbatim ("(SELECT CAST(NULL AS " ++ type ++ ") LIMIT 0)")

/-- Constant rows: none, or those given one by one. The row of a single element is the first row of
    the input that it is taken from. -/
def constantRows (p : Parts) (t : DataType) (args : List Expr) (var : String) :
    CompileM NodeId := do
  match args with
  | [.element input] => do
    let label ← nextAlias
    let node ← p.rows input label
    modifyStage (← openStage node).stage (addLimit (.constant (.int32 1)))
    return node
  | [] => do
    let rows ← emptyRows t
    pushSource (.rows rows) var
  | args => do
    let selects ← constantSelects p args
    let parts := [SqlExpr.verbatim " UNION ALL "].intercalate selects
    pushSource (.rows (.seq ([.verbatim "("] ++ parts ++ [.verbatim ")"]))) var

/-! ## Set operations -/

/-- The operands of a chain of set operations of one kind. -/
def chainOperands (kind : SetOpKind) : Expr → List Expr
  | .setOp k l r =>
    if k = kind then chainOperands kind l ++ chainOperands kind r else [.setOp k l r]
  | e => [e]

/-- The operands that are combined at once. A difference has two: it is not associative. -/
def setOpOperands (kind : SetOpKind) (l r : Expr) : List Expr :=
  match kind with
  | .except => [l, r]
  | kind => chainOperands kind l ++ chainOperands kind r

/-- Exposes the members of a row type, in order, if the stage has no select list yet. Set
    operations match columns by position. -/
def exposeMembers (stage : StageId) (t : DataType) : CompileM Unit := do
  let s ← getStage stage
  if s.projection.isSome || !s.pulled.isEmpty then return
  match s.from_, t.elementOrSelf.members? with
  | some (.item item), some members => pullMembers item.name members
  | _, _ => return
where
  pullMembers (source : String) : List Member → CompileM Unit
    | [] => return
    | m :: ms => do
      let _ ← pullColumn stage source m.name
      pullMembers source ms

/-- The name that the operand at a place is bound to. -/
def operandName (var : String) (place : Nat) : String := var ++ "_" ++ Text.numeral place

/-- Operands of a set operation from a place on. -/
def operandStages (p : Parts) (var : String) : (place : Nat) → List Expr → CompileM (List StageId)
  | _, [] => return []
  | place, e :: es => do
    let node ← p.rows e (operandName var place)
    let stage := (← openStage node).stage
    exposeMembers stage e.resultType
    return stage :: (← operandStages p var (place + 1) es)

def setOpRows (p : Parts) (kind : SetOpKind) (l r : Expr) (var : String) : CompileM NodeId := do
  let stages ← operandStages p var 0 (setOpOperands kind l r)
  pushSource (.setOp kind stages) var

/-! ## Groups -/

def aggregateValues (p : Parts) : List Aggregate → CompileM (List SqlExpr)
  | [] => return []
  | a :: as => do
    let value ← aggregateValue p.value a
    return value :: (← aggregateValues p as)

def isConstant : Expr → Bool
  | .constant _ => true
  | _ => false

/-- The values to group by. A constant would be read as the place of a column. -/
def groupKeys (keys : List Expr) (values : List SqlExpr) : List SqlExpr :=
  ((keys.zip values).filter fun kv => !isConstant kv.1).map (·.2)

/-- One row per group, with the keys and then the aggregates. -/
def groupRows (p : Parts) (input : GroupBinding) (keys : List Expr) (aggregates : List Aggregate)
    (t : DataType) (var : String) : CompileM NodeId := do
  let node ← p.rows input.expr input.var
  let stage ← openFor .groupBy node var
  bindVar input.groupVar node
  match t.elementOrSelf.members? with
  | none => .fail .groupingWithoutRow
  | some members =>
    if members.length = keys.length + aggregates.length then
      let (keyValues, values) ← inScope stage do
        let keyValues ← valuesOf p.value keys
        return (keyValues, ← aggregateValues p aggregates)
      modifyStage stage fun s =>
        { s with
          projection := some (columnsOf members (keyValues ++ values))
          groupBy := some (groupKeys keys keyValues) }
      return node
    else
      .fail (.arity "group by" (Text.numeral members.length) (keys.length + aggregates.length))

/-! ## Joins -/

/-- A side of a join. Its columns are referred to through the join. -/
def joinSide (p : Parts) (node : NodeId) (e : Expr) (var : String) : CompileM FromItem := do
  let child ← p.rows e var
  modifyNode child fun n => { n with joinParent := some node }
  let last ← openStage child
  return { source := .stage last.stage, name := last.name }

/-- A join of two sides. Its condition sees both. -/
def joined (p : Parts) (stage : StageId) (left : FromTree) (kind : JoinKind) (right : FromTree)
    (condition : Option Expr) : CompileM FromTree := do
  match condition with
  | some c => return .join left kind right (some (← inScope stage (p.value c)))
  | none => return .join left kind right none

/-- The `FROM` clause of a tree of joins under one node. The right side of an apply sees the columns
    to its left, and so do conditions. -/
def joinTree (p : Parts) (node : NodeId) (stage : StageId) (e : Expr) (var : String) :
    CompileM FromTree :=
  match e with
  | .join kind ⟨l, lv⟩ ⟨r, rv⟩ condition => do
    let left ← joinTree p node stage l lv
    let right ←
      if kind.isApply then do
        let item ← inScope stage (joinSide p node r rv)
        pure (.item { item with forceSubquery := true })
      else joinTree p node stage r rv
    joined p stage left kind right condition
  | e => return .item (← joinSide p node e var)

def joinRows (p : Parts) (e : Expr) (var : String) : CompileM NodeId := do
  let stage ← pushStage {}
  let node ← pushNode { first := ⟨var, stage⟩ }
  let from_ ← joinTree p node stage e var
  modifyStage stage fun s => { s with from_ := some from_ }
  return node

/-! ## All relational expressions -/

/-- The node of one relational expression, not bound yet. -/
def nodeStep (p : Parts) (e : Expr) (var : String) : CompileM NodeId :=
  match e with
  | .scan set => pushSource (.table (tableSql set)) var
  | .filter input predicate => filterRows p input predicate var
  | .project input row => projectRows p input row var
  | .sort input keys => sortRows p input keys var
  | .skip input keys count => skipRows p input keys count var
  | .limit input count => limitRows p input count
  | .distinct input => distinctRows p input var
  | .groupBy input keys aggregates t => groupRows p input keys aggregates t var
  | .join kind l r c => joinRows p (.join kind l r c) var
  | .setOp kind l r => setOpRows p kind l r var
  | .newInstance t args => constantRows p t args var
  | .call f args t => callRows p f args t var
  | e => .fail (.notAnInput e.kind)

/-- The step for an expression in place of an input: its node, bound to a variable. -/
def rowsStep (p : Parts) (e : Expr) (var : String) : CompileM NodeId := do
  let node ← nodeStep p e var
  bindVar var node
  return node

end TreeSql.Compile
