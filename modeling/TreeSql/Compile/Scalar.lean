import TreeSql.Compile.Column
import TreeSql.Compile.Function
import TreeSql.Expr.Coalesce

/-
  TreeSql.Compile.Scalar — expressions that give one value.

  `valueStep` compiles one expression; how its parts are compiled is given by `Parts`. Operands are
  compiled from left to right. A `CASE` is reduced first, where it only replaces nulls. A relation
  in place of a value is a subquery of its own.
-/
namespace TreeSql.Compile

open Sql Postgres

/-- How the parts of an expression are compiled: to a value, or to a node whose rows are bound to
    a variable. -/
structure Parts where
  value : Expr → CompileM SqlExpr
  rows : Expr → String → CompileM NodeId

/-- The text that stands for a parameter. -/
def placeholder (name : String) : String := "@" ++ name

/-! ## Constants -/

/-- A constant, or the parameter it is lifted into. -/
def constantValue (v : Value) : CompileM SqlExpr := do
  if (← read).liftConstants then return .verbatim (placeholder (← liftConstant v))
  else return .constant v

/-- A null of a type; for the target of a change its column gives the type. -/
def nullValue (t : DataType) : CompileM SqlExpr := do
  match (← read).mode with
  | .query => return .cast (.verbatim "NULL") (← castTarget t)
  | .target _ => return .verbatim "NULL"

/-! ## Operators -/

/-- A comparison in SQL. -/
def comparisonSql : ComparisonOp → BinaryOp
  | .equals => .equals
  | .notEquals => .notEquals
  | .lessThan => .lessThan
  | .lessThanOrEquals => .lessThanOrEquals
  | .greaterThan => .greaterThan
  | .greaterThanOrEquals => .greaterThanOrEquals

/-- The SQL operator of an arithmetic one with two operands. -/
def arithmeticSql? : ArithmeticOp → Option BinaryOp
  | .plus => some .add
  | .minus => some .sub
  | .multiply => some .mul
  | .divide => some .div
  | .modulo => some .mod
  | .unaryMinus => none

def binaryValue (p : Parts) (op : BinaryOp) (l r : Expr) : CompileM SqlExpr := do
  let left ← p.value l
  let right ← p.value r
  return .binary op left right

def arithmeticValue (p : Parts) (op : ArithmeticOp) (args : List Expr) : CompileM SqlExpr :=
  match arithmeticSql? op, args with
  | none, [arg] => return .leading .minus (← p.value arg)
  | some sql, [l, r] => binaryValue p sql l r
  | none, args => .fail (.arity "unary minus" "1" args.length)
  | some _, args => .fail (.arity op.name "2" args.length)

/-- Membership in a list. Nothing is in the empty list. -/
def isInValue (p : Parts) (item : Expr) (list : List Expr) : CompileM SqlExpr := do
  if list.isEmpty then return .verbatim "FALSE"
  else
    let item ← p.value item
    let items ← valuesOf p.value list
    return .binary .isIn item (.paren (.list items))

/-! ## CASE -/

/-- The branches of a `CASE`. -/
def branchParts (p : Parts) : List (Expr × Expr) → CompileM (List SqlExpr)
  | [] => return []
  | (w, t) :: branches => do
    let condition ← p.value w
    let value ← p.value t
    let rest ← branchParts p branches
    return [.verbatim " WHEN (", condition, .verbatim ") THEN (", value, .verbatim ")"] ++ rest

/-- The default of a `CASE`; a null is left out. -/
def elseParts (p : Parts) (e : Expr) : CompileM (List SqlExpr) := do
  match e with
  | .null _ => return []
  | e => return [.verbatim " ELSE (", ← p.value e, .verbatim ")"]

/-- A reduced `CASE`, or what it was reduced to. -/
def reducedCaseValue (p : Parts) : Expr → CompileM SqlExpr
  | .caseOf conditions values otherwise => do
    if conditions.isEmpty || conditions.length != values.length then
      .fail (.arity "CASE" (Text.numeral conditions.length ++ " THEN branches") values.length)
    else
      let branches ← branchParts p (conditions.zip values)
      let default ← elseParts p otherwise
      return .seq ([.verbatim "CASE"] ++ branches ++ default ++ [.verbatim " END"])
  | e => p.value e

/-! ## Subqueries -/

/-- A relation as a value: a subquery under a new alias. -/
def subqueryValue (p : Parts) (e : Expr) : CompileM SqlExpr := do
  let label ← nextAlias
  let node ← p.rows e label
  return .stage (← openStage node).stage

/-- Pulls a column through stages, innermost first. -/
def pullAll (path : ColumnPath) : List AliasedStage → CompileM Unit
  | [] => return
  | stage :: rest => do pullAll (← pullThrough path stage) rest

/-- A limited relation as a value. The first column of its innermost select list is carried through
    the stages around it, so that the subquery has that column. -/
def limitValue (p : Parts) (e : Expr) : CompileM SqlExpr := do
  let label ← nextAlias
  let n ← getNode (← p.rows e label)
  match (← getStage n.first.stage).projection with
  | some (column :: _) => pullAll ⟨n.first.name, column.name⟩ n.wrappers
  | _ => pure ()
  return .stage n.last.stage

/-! ## All scalar expressions -/

/-- The step for an expression in place of a value. -/
def valueStep (p : Parts) : Expr → CompileM SqlExpr
  | .constant v => constantValue v
  | .null t => nullValue t
  | .paramRef name _ => return .verbatim (placeholder name)
  | .varRef name _ => .fail (.bareVariable name)
  | .property base name _ => propertyValue base name
  | .comparison op l r => binaryValue p (comparisonSql op) l r
  | .arithmetic op args => arithmeticValue p op args
  | .and l r => binaryValue p .and l r
  | .or l r => binaryValue p .or l r
  | .not e => return (← p.value e).negate
  | .isNull e => return .trailing .isNull (← p.value e)
  | .isEmpty e => return (SqlExpr.exists_ (← p.value e)).negate
  | .like e pattern => binaryValue p .like e pattern
  | .isIn item list => isInValue p item list
  | .cast e t => do
    let value ← p.value e
    return .cast value (← castTarget t)
  | .caseOf ws ts o => reducedCaseValue p (Expr.reduce (.caseOf ws ts o))
  | .call f args t => callValue p.value f args t
  | .element e => return .paren (← p.value e)
  | .limit e n => limitValue p (.limit e n)
  | .newInstance t args =>
    if t.element?.isSome then subqueryValue p (.newInstance t args) else .fail .rowOutsideProjection
  | e => subqueryValue p e

end TreeSql.Compile
