import TreeSql.Postgres.Literal
import TreeSql.Postgres.Quote
import TreeSql.Sql.Stage

/-
  TreeSql.Sql.Render — SQL expressions and stages as text.

  Parentheses are written where an operand would otherwise be read differently under the given
  precedence table. A stage in a `FROM` clause is a subquery, except that a pass-through with the
  alias of its only source is replaced by that source (`FromItem.resolve`).

  Stages refer to each other by number. `renderWith` functions take the text of the stages that are
  referred to; `Stages.select` supplies it, one level per stage, which suffices because no stage
  contains itself.
-/
namespace TreeSql.Sql

open Postgres

/-! ## Expressions -/

/-- Whether a left operand with this operator needs parentheses under the parent operator. -/
def wrapsLeft (regime : Regime) (parent child : Operator) : Bool :=
  let c := child.rightPower regime
  let p := parent.leftPower regime
  c < p || (c == p && (parent.isRightAssoc || parent.isNonAssoc regime))

/-- Whether a leading operator as right operand can do without parentheses: what follows it must
    not be taken for part of its operand. `follower` is the operator that follows. -/
def fitsBefore (regime : Regime) (follower : Option Operator) (child : Operator) : Bool :=
  match follower with
  | none => true
  | some f =>
    let c := child.rightPower regime
    let p := f.leftPower regime
    if f.isRightAssoc then p < c else p ≤ c

/-- Whether a right operand with this operator needs parentheses under the parent operator. -/
def wrapsRight (regime : Regime) (follower : Option Operator) (parent child : Operator) : Bool :=
  let c := child.leftPower regime
  let p := parent.rightPower regime
  (c < p || (c == p && (!parent.isRightAssoc || parent.isNonAssoc regime))) &&
    !(child.fixity == .leading && fitsBefore regime follower child)

def inParens (s : String) : String := "(" ++ s ++ ")"

/-- A name after `AS`. -/
def asName (name : String) : String := " AS " ++ Quote.identifier name

/-- Whether an expression is a column that has this name by itself. -/
def SqlExpr.isColumnNamed : SqlExpr → String → Bool
  | columnRef _ n, name => n == name
  | _, _ => false

mutual

/-- An expression as text. `follower` is the nearest enclosing operator whose own sign follows the
    expression; only operators look at it. -/
def SqlExpr.renderWith (regime : Regime) (select : StageId → String) (follower : Option Operator) :
    SqlExpr → String
  | .verbatim text => text
  | .seq parts => String.join (renderAll regime select parts)
  | .list items => ", ".intercalate (renderAll regime select items)
  | .paren inner => inParens (inner.renderWith regime select none)
  | .constant value => Literal.ofValue value
  | .column e name _ =>
    e.renderWith regime select none ++ (if e.isColumnNamed name then "" else asName name)
  | .columnRef qualifier name => Quote.identifier qualifier ++ "." ++ Quote.identifier name
  | .property name => Quote.identifier name
  | .call name args => name ++ inParens (", ".intercalate (renderAll regime select args))
  | .cast value type => "CAST(" ++ value.renderWith regime select none ++ " AS " ++ type ++ ")"
  | .binary op l r =>
    let op : Operator := .binary op
    let wrapL := match l.operator? with
      | some c => wrapsLeft regime op c
      | none => false
    let wrapR := match r.operator? with
      | some c => wrapsRight regime follower op c
      | none => false
    (if wrapL then inParens (l.renderWith regime select none)
      else l.renderWith regime select (some op)) ++ op.text ++
    (if wrapR then inParens (r.renderWith regime select none)
      else r.renderWith regime select follower)
  | .leading op r =>
    let op : Operator := .leading op
    let wrapR := match r.operator? with
      | some c => wrapsRight regime follower op c
      | none => false
    op.text ++ (if wrapR then inParens (r.renderWith regime select none)
      else r.renderWith regime select follower)
  | .trailing op l =>
    let op : Operator := .trailing op
    let wrapL := match l.operator? with
      | some c => wrapsLeft regime op c
      | none => false
    (if wrapL then inParens (l.renderWith regime select none)
      else l.renderWith regime select (some op)) ++ op.text
  | .exists_ inner => "EXISTS " ++ inParens (inner.renderWith regime select none)
  | .stage id => select id
termination_by structural e => e

/-- Each expression of a list as text. -/
def renderAll (regime : Regime) (select : StageId → String) : List SqlExpr → List String
  | [] => []
  | e :: es => e.renderWith regime select none :: renderAll regime select es
termination_by structural es => es

end

/-! ## FROM clauses -/

/-- The only source of a pass-through stage. -/
def Stage.passedSource? (s : Stage) : Option FromItem :=
  match s.from_ with
  | some (.item inner) => if s.isPassthrough then some inner else none
  | _ => none

/-- The item that is written: sources are taken out of pass-through stages with the same alias. -/
def FromItem.resolve (stages : Stages) : (fuel : Nat) → FromItem → FromItem
  | 0, item => item
  | fuel + 1, item =>
    match item.source with
    | .stage id =>
      match (stages.get id).passedSource? with
      | some inner =>
        if !item.forceSubquery && inner.name == item.name then inner.resolve stages fuel else item
      | none => item
    | _ => item

/-- The keyword between the operands of a set operation. -/
def setOpKeyword : SetOpKind → String
  | .unionAll => " UNION ALL "
  | .intersect => " INTERSECT "
  | .except => " EXCEPT "

/-- The keyword between the sides of a join. -/
def joinKeyword : JoinKind → String
  | .inner => " INNER JOIN "
  | .leftOuter => " LEFT OUTER JOIN "
  | .fullOuter => " FULL OUTER JOIN "
  | .cross => " CROSS JOIN "
  | .crossApply => " CROSS JOIN LATERAL "
  | .outerApply => " LEFT OUTER JOIN LATERAL "

def Source.renderWith (regime : Regime) (select : StageId → String) : Source → String
  | .stage id => inParens (select id)
  | .table text => text
  | .function e | .rows e => e.renderWith regime select none
  | .setOp kind operands =>
    inParens ((setOpKeyword kind).intercalate (operands.map fun id => inParens (select id)))

def FromItem.renderWith (regime : Regime) (stages : Stages) (select : StageId → String)
    (item : FromItem) : String :=
  let item := item.resolve stages stages.length
  item.source.renderWith regime select ++ asName item.name

/-- The condition of a join: none for a product, and `TRUE` where none is given. -/
def joinCondition (kind : JoinKind) (condition : Option String) : String :=
  match kind, condition with
  | .cross, _ | .crossApply, _ => ""
  | .outerApply, _ | _, none => " ON TRUE"
  | _, some c => " ON " ++ c

def FromTree.isJoin : FromTree → Bool
  | .item _ => false
  | .join .. => true

/-- Joins group from the left; a join on the right stands in parentheses. -/
def FromTree.renderWith (regime : Regime) (stages : Stages) (select : StageId → String) :
    FromTree → String
  | .item i => i.renderWith regime stages select
  | .join left kind right condition =>
    let r := right.renderWith regime stages select
    left.renderWith regime stages select ++ joinKeyword kind ++
      (if right.isJoin then inParens r else r) ++
      joinCondition kind (condition.map fun c => c.renderWith regime select none)

/-! ## Stages -/

def Pulled.render (p : Pulled) : String :=
  Quote.identifier p.source ++ "." ++ Quote.identifier p.column ++
    (if p.column == p.name then "" else asName p.name)

def Column.renderWith (regime : Regime) (select : StageId → String) (c : Column) : String :=
  (SqlExpr.column c.expr c.name c.type).renderWith regime select none

/-- A clause with its keyword, or nothing. -/
def clause (keyword : String) (text : Option String) : String :=
  match text with
  | none => ""
  | some t => keyword ++ t

namespace Stage

/-- The select list. A stage that nothing was asked of selects a constant. -/
def selectList (regime : Regime) (select : StageId → String) (s : Stage) : String :=
  match s.projection with
  | some columns => ", ".intercalate (columns.map (·.renderWith regime select))
  | none => if s.pulled.isEmpty then "1" else ", ".intercalate (s.pulled.map Pulled.render)

/-- The keys of the `GROUP BY` clause, which is left out without keys. -/
def groupKeys? (s : Stage) : Option (List SqlExpr) :=
  match s.groupBy with
  | some (k :: ks) => some (k :: ks)
  | _ => none

def renderWith (regime : Regime) (stages : Stages) (select : StageId → String) (s : Stage) : String :=
  let expr := fun e => SqlExpr.renderWith regime select none e
  "SELECT " ++ (if s.distinct then "DISTINCT " else "") ++ s.selectList regime select ++
    clause " FROM " (s.from_.map fun f => f.renderWith regime stages select) ++
    clause " WHERE " (s.where_.map expr) ++
    clause " GROUP BY " (s.groupKeys?.map fun ks => ", ".intercalate (ks.map expr)) ++
    clause " ORDER BY " (s.orderBy.map fun items => ", ".intercalate
      (items.map fun i => expr i.expr ++ (if i.ascending then " ASC" else " DESC"))) ++
    clause " OFFSET " (s.skip.map expr) ++
    clause " LIMIT " (s.limit.map expr)

end Stage

namespace Stages

/-- The text of a stage, with stages inside it down to the given depth. -/
def selectTo (regime : Regime) (stages : Stages) : (depth : Nat) → StageId → String
  | 0, _ => ""
  | depth + 1, id => (stages.get id).renderWith regime stages (selectTo regime stages depth)

/-- The text of a stage. -/
def select (regime : Regime) (stages : Stages) (id : StageId) : String :=
  stages.selectTo regime stages.length id

end Stages

/-- The text of an expression over an arena. -/
def SqlExpr.render (regime : Regime) (stages : Stages) (e : SqlExpr) : String :=
  e.renderWith regime (stages.select regime) none

end TreeSql.Sql
