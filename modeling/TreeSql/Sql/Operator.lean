/-
  TreeSql.Sql.Operator — SQL operators and how tightly they bind.

  Operators are sorted by where they stand: between two operands, before one or after one.
  Up to server version 9.4 an operator may bind its two sides differently tightly; from 9.5 on one
  number says it (`leftPower`, `rightPower`). `negated?` pairs each operator with the one that
  gives the opposite truth value.
-/
namespace TreeSql.Sql

/-- The two tables of binding powers. -/
inductive Regime where
  /-- Servers before 9.5. -/
  | legacy
  | modern
deriving DecidableEq

def Regime.name : Regime → String
  | legacy => "Legacy"
  | modern => "Modern"

inductive BinaryOp where
  | mul
  | div
  | mod
  | add
  | sub
  | lessThanOrEquals
  | greaterThanOrEquals
  | notEquals
  | bitwiseAnd
  | bitwiseOr
  | bitwiseXor
  /-- Concatenation of strings; the disjunction of text queries. -/
  | concat
  | isIn
  | notIn
  | like
  | notLike
  | lessThan
  | greaterThan
  | equals
  | and
  | or
  | queryMatch
  | queryAnd
  | queryContains
  | queryIsContained
  | regexMatch
deriving DecidableEq

/-- Operators before their operand. -/
inductive LeadingOp where
  | minus
  | bitwiseNot
  | not
  | queryNegate
deriving DecidableEq

/-- Operators after their operand. -/
inductive TrailingOp where
  | isNull
  | isNotNull
deriving DecidableEq

inductive Operator where
  | binary (op : BinaryOp)
  | leading (op : LeadingOp)
  | trailing (op : TrailingOp)
deriving DecidableEq

/-- Where an operator stands. -/
inductive Fixity where
  | binary
  | leading
  | trailing
deriving DecidableEq

namespace Operator

def fixity : Operator → Fixity
  | binary _ => .binary
  | leading _ => .leading
  | trailing _ => .trailing

/-- The operators in the order of the table. -/
def all : List Operator :=
  [.leading .minus, .binary .mul, .binary .div, .binary .mod, .binary .add, .binary .sub,
    .trailing .isNull, .trailing .isNotNull, .binary .lessThanOrEquals,
    .binary .greaterThanOrEquals, .binary .notEquals, .binary .bitwiseAnd, .binary .bitwiseOr,
    .binary .bitwiseXor, .leading .bitwiseNot, .binary .concat, .binary .isIn, .binary .notIn,
    .binary .like, .binary .notLike, .binary .lessThan, .binary .greaterThan, .binary .equals,
    .leading .not, .binary .and, .binary .or, .binary .queryMatch, .binary .queryAnd,
    .leading .queryNegate, .binary .queryContains, .binary .queryIsContained, .binary .regexMatch]

theorem mem_all (op : Operator) : op ∈ all := by
  cases op with
  | binary op => cases op <;> decide
  | leading op => cases op <;> decide
  | trailing op => cases op <;> decide

/-! ## The table -/

/-- The sign or keyword. -/
def symbol : Operator → String
  | .leading .minus => "-"
  | .binary .mul => "*"
  | .binary .div => "/"
  | .binary .mod => "%"
  | .binary .add => "+"
  | .binary .sub => "-"
  | .trailing .isNull => "IS NULL"
  | .trailing .isNotNull => "IS NOT NULL"
  | .binary .lessThanOrEquals => "<="
  | .binary .greaterThanOrEquals => ">="
  | .binary .notEquals => "<>"
  | .binary .bitwiseAnd => "&"
  | .binary .bitwiseOr => "|"
  | .binary .bitwiseXor => "#"
  | .leading .bitwiseNot => "~"
  | .binary .concat => "||"
  | .binary .isIn => "IN"
  | .binary .notIn => "NOT IN"
  | .binary .like => "LIKE"
  | .binary .notLike => "NOT LIKE"
  | .binary .lessThan => "<"
  | .binary .greaterThan => ">"
  | .binary .equals => "="
  | .leading .not => "NOT"
  | .binary .and => "AND"
  | .binary .or => "OR"
  | .binary .queryMatch => "@@"
  | .binary .queryAnd => "&&"
  | .leading .queryNegate => "!!"
  | .binary .queryContains => "@>"
  | .binary .queryIsContained => "<@"
  | .binary .regexMatch => "~"

/-- Binding power towards the left operand before 9.5. -/
def legacyLeft : Operator → Nat
  | .leading .minus => 17
  | .binary .mul | .binary .div | .binary .mod => 15
  | .binary .add | .binary .sub => 14
  | .trailing .isNull | .trailing .isNotNull => 13
  | .binary .isIn => 9
  | .binary .like => 6
  | .binary .lessThan | .binary .greaterThan => 5
  | .binary .equals => 4
  | .binary .notIn | .binary .notLike | .leading .not => 3
  | .binary .and => 2
  | .binary .or => 1
  | _ => 10

/-- Binding power towards the right operand before 9.5. -/
def legacyRight : Operator → Nat
  | .binary .notIn => 9
  | .binary .notLike => 6
  | op => op.legacyLeft

/-- Binding power from 9.5 on. -/
def modernPower : Operator → Nat
  | .leading .minus => 12
  | .binary .mul | .binary .div | .binary .mod => 10
  | .binary .add | .binary .sub => 9
  | .trailing .isNull | .trailing .isNotNull => 4
  | .binary .lessThanOrEquals | .binary .greaterThanOrEquals | .binary .notEquals
  | .binary .lessThan | .binary .greaterThan | .binary .equals => 5
  | .binary .isIn | .binary .notIn | .binary .like | .binary .notLike => 6
  | .leading .not => 3
  | .binary .and => 2
  | .binary .or => 1
  | _ => 8

/-- Whether a chain of the operator groups from the right. -/
def isRightAssoc : Operator → Bool
  | .leading .minus | .leading .not | .leading .queryNegate | .binary .equals => true
  | _ => false

/-- Whether the server refuses a chain of operators of this power. -/
def isNonAssoc (op : Operator) (regime : Regime) : Bool :=
  match op with
  | .trailing _ | .binary .isIn | .binary .notIn | .binary .like | .binary .notLike
  | .binary .lessThan | .binary .greaterThan => true
  | .binary .equals | .binary .notEquals | .binary .lessThanOrEquals
  | .binary .greaterThanOrEquals => regime == .modern
  | _ => false

def leftPower (op : Operator) (regime : Regime) : Nat :=
  match regime with
  | .legacy => op.legacyLeft
  | .modern => op.modernPower

def rightPower (op : Operator) (regime : Regime) : Nat :=
  match regime with
  | .legacy => op.legacyRight
  | .modern => op.modernPower

/-- The symbol with the blanks that part it from its operands. -/
def text (op : Operator) : String :=
  match op.fixity with
  | .binary => " " ++ op.symbol ++ " "
  | .leading => op.symbol ++ " "
  | .trailing => " " ++ op.symbol

end Operator

/-! ## Opposites -/

def BinaryOp.negated? : BinaryOp → Option BinaryOp
  | lessThanOrEquals => some greaterThan
  | greaterThanOrEquals => some lessThan
  | notEquals => some equals
  | isIn => some notIn
  | notIn => some isIn
  | like => some notLike
  | notLike => some like
  | lessThan => some greaterThanOrEquals
  | greaterThan => some lessThanOrEquals
  | equals => some notEquals
  | _ => none

def TrailingOp.negated : TrailingOp → TrailingOp
  | isNull => isNotNull
  | isNotNull => isNull

/-- The operator with the opposite truth value. -/
def Operator.negated? : Operator → Option Operator
  | .binary op => op.negated?.map .binary
  | .trailing op => some (.trailing op.negated)
  | .leading _ => none

theorem BinaryOp.negated?_negated {op op' : BinaryOp} (h : op.negated? = some op') :
    op'.negated? = some op := by
  cases op <;> simp [negated?] at h <;> subst h <;> rfl

theorem TrailingOp.negated_negated (op : TrailingOp) : op.negated.negated = op := by
  cases op <;> rfl

/-! ## Names -/

namespace Operator

def name : Operator → String
  | .leading .minus => "UnaryMinus"
  | .binary .mul => "Mul"
  | .binary .div => "Div"
  | .binary .mod => "Mod"
  | .binary .add => "Add"
  | .binary .sub => "Sub"
  | .trailing .isNull => "IsNull"
  | .trailing .isNotNull => "IsNotNull"
  | .binary .lessThanOrEquals => "LessThanOrEquals"
  | .binary .greaterThanOrEquals => "GreaterThanOrEquals"
  | .binary .notEquals => "NotEquals"
  | .binary .bitwiseAnd => "BitwiseAnd"
  | .binary .bitwiseOr => "BitwiseOr"
  | .binary .bitwiseXor => "BitwiseXor"
  | .leading .bitwiseNot => "BitwiseNot"
  | .binary .concat => "Concat"
  | .binary .isIn => "In"
  | .binary .notIn => "NotIn"
  | .binary .like => "Like"
  | .binary .notLike => "NotLike"
  | .binary .lessThan => "LessThan"
  | .binary .greaterThan => "GreaterThan"
  | .binary .equals => "Equals"
  | .leading .not => "Not"
  | .binary .and => "And"
  | .binary .or => "Or"
  | .binary .queryMatch => "QueryMatch"
  | .binary .queryAnd => "QueryAnd"
  | .leading .queryNegate => "QueryNegate"
  | .binary .queryContains => "QueryContains"
  | .binary .queryIsContained => "QueryIsContained"
  | .binary .regexMatch => "RegexMatch"

def ofName? (s : String) : Option Operator := all.find? (·.name == s)

end Operator

end TreeSql.Sql
