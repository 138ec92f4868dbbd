import TreeSql.DataType.Description
import TreeSql.Expr.Basic
import TreeSql.Postgres.Regex

/-
  TreeSql.Error — why a command tree, a type name, a version or settings are refused.

  One constructor per cause. `category` groups the causes, `message` words them. What succeeds has succeeded in each of
  its steps (`ok_of_bind`).
-/
namespace TreeSql

inductive ErrorCategory where
  | unsupported
  | invalidBinding
  | invalidArity
  | unsupportedType
  | parse
  | settings
  | file
deriving DecidableEq

inductive Error where
  /-- A query that does not produce rows. -/
  | rootNotRelational (kind : ExprKind)
  | notAnInput (kind : ExprKind)
  | propertyOf (kind : ExprKind)
  | rowOutsideProjection
  | rowsWithoutElementType
  | projectionOf (kind : ExprKind)
  | projectionWithoutRow
  | groupingWithoutRow
  | regexOptions (options : Postgres.RegexOptions)
  | regexOptionsNotNatural
  | regexOptionsNotConstant
  | canonicalFunction (name : String) (type : DataType)
  | aggregate (qualifiedName : String)
  | castTargetNotConstant
  | rankWeightNotNumeric
  | rankWeightNotConstant
  | weightLabel
  | castToNonPrimitive (type : DataType)
  | targetNotScan (kind : ExprKind)
  | returningNotRow
  | returningWithoutRow
  | updateWithoutAssignments
  /-- Nested beyond the bound computed from the size of the tree. No compilation gets there. -/
  | nestedTooDeeply
  /-- A variable where a value is needed. -/
  | bareVariable (name : String)
  | unbound (name : String)
  | notOfTarget (found target : String)
  | arity (name expected : String) (actual : Nat)
  | noStoreType (type : DataType)
  | unknownStoreType (name : String)
  | parameterType (name : String)
  | versionExpected (position : Nat) (text : String)
  | typeNameExpected (text : String)
  | trailingInput (position : Nat) (rest : String)
  | typeArgumentTooLarge (argument : Nat)
  /-- Text that is not the JSON form of what is read. -/
  | malformedJson
  | malformedSettings
  | fileNotFound
deriving DecidableEq

namespace Error

def category : Error → ErrorCategory
  | bareVariable _ | unbound _ | notOfTarget .. => .invalidBinding
  | arity .. => .invalidArity
  | noStoreType _ | unknownStoreType _ | parameterType _ => .unsupportedType
  | versionExpected .. | typeNameExpected _ | trailingInput .. | typeArgumentTooLarge _
  | malformedJson => .parse
  | malformedSettings => .settings
  | fileNotFound => .file
  | _ => .unsupported

/-- What is wrong, without the words that go with its category. -/
def detail : Error → String
  | rootNotRelational k => "query root must be relational, found " ++ k.name
  | notAnInput k => k.name ++ " used as a relational input"
  | propertyOf k => "property access on " ++ k.name
  | rowOutsideProjection => "row constructor outside of a projection"
  | rowsWithoutElementType => "constant rows without an element type"
  | projectionOf k => "projection of " ++ k.name ++ "; expected a row constructor"
  | projectionWithoutRow => "projection without a row type"
  | groupingWithoutRow => "grouping without a row result type"
  | regexOptions o => "regex options " ++ o.description
  | regexOptionsNotNatural => "regex options must be a non-negative integer"
  | regexOptionsNotConstant => "regex options must be a constant"
  | canonicalFunction n t => "canonical function Edm." ++ n ++ " returning " ++ t.description
  | aggregate n => "aggregate " ++ n
  | castTargetNotConstant => "cast target must be a constant type name"
  | rankWeightNotNumeric => "ts_rank weights must be numeric"
  | rankWeightNotConstant => "ts_rank weights must be constants"
  | weightLabel => "setweight label must be a constant A-D or 0-3"
  | castToNonPrimitive t => "cast to non-primitive type " ++ t.description
  | targetNotScan k => "DML target must be a table scan, found " ++ k.name
  | returningNotRow => "RETURNING must be a row constructor"
  | returningWithoutRow => "RETURNING without a row type"
  | updateWithoutAssignments => "UPDATE without SET clauses"
  | nestedTooDeeply => "tree nested too deeply"
  | bareVariable n => "'" ++ n ++ "': a variable can only be used through a property access"
  | unbound n => "'" ++ n ++ "': no input is bound to this name"
  | notOfTarget n t =>
    "'" ++ n ++ "': only columns of the target '" ++ t ++ "' can be referenced here"
  | arity n expected actual => n ++ ": expected " ++ expected ++ ", got " ++ Text.numeral actual
  | noStoreType t => t.description
  | unknownStoreType n => n
  | parameterType n => "parameter '" ++ n ++ "' is not of a primitive type"
  | versionExpected p s => Text.numeral p ++ ": expected a server version, found '" ++ s ++ "'"
  | typeNameExpected s => "0: expected a type name, found '" ++ s ++ "'"
  | trailingInput p s => Text.numeral p ++ ": unexpected trailing input '" ++ s ++ "'"
  | typeArgumentTooLarge n => "0: type argument " ++ Text.numeral n ++ " out of range"
  | malformedJson => "0: malformed JSON"
  | malformedSettings => "malformed settings"
  | fileNotFound => "No such file or directory (os error 2)"

/-- The full text of an error. -/
def message (e : Error) : String :=
  (match e.category with
    | .unsupported => "Unsupported construct: "
    | .invalidBinding => "Invalid binding "
    | .invalidArity => "Invalid arity for "
    | .unsupportedType => "Unsupported type: "
    | .parse => "Parse error at position "
    | .settings => "Configuration error: "
    | .file => "IO error: ") ++ e.detail

end Error

theorem ok_of_bind {α β : Type} {x : Except Error α} {f : α → Except Error β} {b : β} (h : x >>= f = .ok b) :
    ∃ a, x = .ok a ∧ f a = .ok b := by
  cases x with
  | error e => cases h
  | ok a => exact ⟨a, rfl, h⟩

end TreeSql
