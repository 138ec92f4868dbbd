import TreeSql.DataType.Basic
import TreeSql.Error
import TreeSql.Sql.Operator
import TreeSql.Value.Basic

/-
  TreeSql.Sql.Expr — SQL expressions before they are written.

  An expression refers to a `SELECT` by its number in an arena of stages. Operators stand with
  their operands and without parentheses; writing adds those that are needed. `negate` gives the
  logical complement: it swaps an operator for its opposite, takes a `NOT` away, or adds one.
-/
namespace TreeSql.Sql

/-- The number of a `SELECT` in the arena of one statement. -/
abbrev StageId := Nat

inductive SqlExpr where
  /-- Text as it is. -/
  | verbatim (text : String)
  /-- Fragments one after the other. -/
  | seq (parts : List SqlExpr)
  /-- Fragments with commas between them. -/
  | list (items : List SqlExpr)
  | paren (inner : SqlExpr)
  | constant (value : Value)
  /-- A column of a select list with its name. -/
  | column (expr : SqlExpr) (name : String) (type : DataType)
  /-- A column of a table alias. -/
  | columnRef (qualifier name : String)
  /-- A column of the target of a change. -/
  | property (name : String)
  | call (name : String) (args : List SqlExpr)
  | cast (value : SqlExpr) (type : String)
  | binary (op : BinaryOp) (left right : SqlExpr)
  | leading (op : LeadingOp) (operand : SqlExpr)
  | trailing (op : TrailingOp) (operand : SqlExpr)
  | exists_ (inner : SqlExpr)
  | stage (id : StageId)

namespace SqlExpr

/-- The operator at the top. -/
def operator? : SqlExpr → Option Operator
  | binary op .. => some (.binary op)
  | leading op _ => some (.leading op)
  | trailing op _ => some (.trailing op)
  | _ => none

/-- The expression with a text after it. -/
def followedBy (e : SqlExpr) (suffix : String) : SqlExpr :=
  match e with
  | seq parts => seq (parts ++ [verbatim suffix])
  | e => seq [e, verbatim suffix]

/-- The logical complement. -/
def negate : SqlExpr → SqlExpr
  | binary op l r =>
    match op.negated? with
    | some op' => binary op' l r
    | none => leading .not (binary op l r)
  | trailing op e => trailing op.negated e
  | leading .not e => e
  | e => leading .not e

/-! ## Operators given by value -/

/-- An operator on the operands that are given; refused where it stands otherwise. -/
def ofOperator? (op : Operator) (left right : Option SqlExpr) : Except Error SqlExpr :=
  match op, left, right with
  | .binary op, some l, some r => .ok (binary op l r)
  | .leading op, none, some r => .ok (leading op r)
  | .trailing op, some l, none => .ok (trailing op l)
  | op, l, r =>
    .error (.arity ("operator " ++ op.symbol) (if op.fixity = .binary then "2 operands" else "1 operand")
      (l.toList.length + r.toList.length))

end SqlExpr

end TreeSql.Sql
