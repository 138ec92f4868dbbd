import TreeSql.Compile.Canonical
import TreeSql.Compile.State
import TreeSql.Number.Shortest
import TreeSql.Postgres.Quote
import TreeSql.Postgres.StoreType

/-
  TreeSql.Compile.Function — calls of functions and aggregates.

  Canonical functions have an SQL expression each. Of the functions of PostgreSQL, those of text
  search and pattern matching, `coalesce` and `cast` are written in their own way; all others, and
  the functions of any other space, are quoted calls. How an argument is compiled is a parameter of
  every function here. Wrong argument counts are refused before any argument is compiled.
-/
namespace TreeSql.Compile

open Sql Postgres

/-- Compiles expressions from left to right. -/
def valuesOf (value : Expr → CompileM SqlExpr) : List Expr → CompileM (List SqlExpr)
  | [] => return []
  | e :: es => return (← value e) :: (← valuesOf value es)

/-! ## Canonical functions -/

def canonicalValue (value : Expr → CompileM SqlExpr) (name : String) (args : List Expr)
    (resultType : DataType) : CompileM SqlExpr :=
  match CanonicalFunction.ofName? name, args with
  | some (.nullary f), [] => return f.sql
  | some (.unary f), [a] => return f.sql (← value a)
  | some (.binary f), [a, b] => return f.sql (← value a) (← value b)
  | some (.ternary f), [a, b, c] => return f.sql (← value a) (← value b) (← value c)
  | some .round, [a] => return .call "round" [← value a]
  | some .round, [a, b] => return .call "round" [← value a, ← value b]
  | some (.nullary _), _ => .fail (.arity name "0" args.length)
  | some (.unary _), _ => .fail (.arity name "1" args.length)
  | some (.binary _), _ => .fail (.arity name "2" args.length)
  | some (.ternary _), _ => .fail (.arity name "3" args.length)
  | some .round, _ => .fail (.arity name "1 or 2" args.length)
  | none, _ => .fail (.canonicalFunction name resultType)

/-! ## Functions of PostgreSQL -/

/-- The functions of PostgreSQL that are not written as quoted calls. -/
inductive StoreFunction where
  | binary (op : BinaryOp)
  | leading (op : LeadingOp)
  | coalesce
  | rank
  | setWeight
  /-- A cast of the only argument. -/
  | castTo (type : String)
  | matchRegex
  | cast
deriving DecidableEq

def storeFunctions : List (String × StoreFunction) :=
  [("@@", .binary .queryMatch), ("operator_tsquery_and", .binary .queryAnd),
    ("operator_tsquery_or", .binary .concat), ("operator_tsquery_contains", .binary .queryContains),
    ("operator_tsquery_is_contained", .binary .queryIsContained),
    ("operator_tsquery_negate", .leading .queryNegate),
    ("coalesce", .coalesce), ("ts_rank", .rank), ("ts_rank_cd", .rank), ("setweight", .setWeight),
    ("as_tsvector", .castTo "tsvector"), ("as_tsquery", .castTo "tsquery"),
    ("match_regex", .matchRegex), ("cast", .cast)]

def StoreFunction.ofName? (name : String) : Option StoreFunction := storeFunctions.lookup name

/-- The text of a weight in a rank, which has to be a constant number. -/
def rankWeight (e : Expr) : Except Error String :=
  match e with
  | .constant (.single x) => .ok x.text
  | .constant (.double x) => .ok x.text
  | .constant (.decimal x) => .ok x.text
  | .constant v =>
    match v.int? with
    | some i => .ok (Text.integer i)
    | none => .error .rankWeightNotNumeric
  | _ => .error .rankWeightNotConstant

def rankWeights : List Expr → Except Error (List String)
  | [] => .ok []
  | e :: es => return (← rankWeight e) :: (← rankWeights es)

/-- Constant weights as an array literal. -/
def weightsLiteral (weights : List String) : SqlExpr :=
  .verbatim ("'\x7b" ++ ", ".intercalate weights ++ "\x7d'")

/-- A rank: a vector and a query with an optional normalization, and four weights before them or
    none. -/
def rankValue (value : Expr → CompileM SqlExpr) (name : String) (args : List Expr) :
    CompileM SqlExpr := do
  match args.length with
  | 2 | 3 => return .call name (← valuesOf value args)
  | 6 | 7 => do
    let weights ← rankWeights (args.take 4)
    return .call name (weightsLiteral weights :: (← valuesOf value (args.drop 4)))
  | n => .fail (.arity name "2, 3, 6 or 7" n)

/-- The letter of a weight label: a letter of either case, or 0 for D to 3 for A. -/
def weightLetter? (e : Expr) : Option Char :=
  match e with
  | .constant (.string s) =>
    match s.toList with
    | [c] => if ['A', 'B', 'C', 'D'].contains c.toUpper then some c.toUpper else none
    | _ => none
  | .constant v =>
    match v.int? with
    | some 0 => some 'D'
    | some 1 => some 'C'
    | some 2 => some 'B'
    | some 3 => some 'A'
    | _ => none
  | _ => none

/-- The options of a match, which have to be a constant that fits 32 bits. -/
def regexOptions (e : Expr) : Except Error RegexOptions :=
  match e with
  | .constant v =>
    match v.int? with
    | some i => if 0 ≤ i ∧ i < UInt32.size then .ok (.ofBits i.natAbs) else .error .regexOptionsNotNatural
    | none => .error .regexOptionsNotNatural
  | _ => .error .regexOptionsNotConstant

/-- A match of an input with a pattern; the options are put in front of the pattern. -/
def matchValue (value : Expr → CompileM SqlExpr) (input pattern : Expr) (options : RegexOptions) :
    CompileM SqlExpr := do
  match options.letters? with
  | none => .fail (.regexOptions options)
  | some letters => do
    let input ← value input
    let pattern ← value pattern
    if letters.isEmpty then return .binary .regexMatch input pattern
    else
      let embedded := SqlExpr.verbatim (Quote.string ("(?" ++ letters ++ ")"))
      return .binary .regexMatch input (.binary .concat embedded pattern)

/-- The constant type name of a cast target, if it follows the grammar of type names. -/
def castTargetName (e : Expr) : Except Error String :=
  match e with
  | .constant (.string s) => TypeName.check s
  | _ => .error .castTargetNotConstant

def storeValue (value : Expr → CompileM SqlExpr) (f : StoreFunction) (name : String)
    (args : List Expr) : CompileM SqlExpr := do
  match f, args with
  | .binary op, [a, b] => return .binary op (← value a) (← value b)
  | .leading op, [a] => return .leading op (← value a)
  | .castTo type, [a] => return .cast (← value a) type
  | .coalesce, args => return .call "coalesce" (← valuesOf value args)
  | .rank, args => rankValue value name args
  | .setWeight, [vector, label] =>
    match weightLetter? label with
    | none => .fail .weightLabel
    | some c =>
      return .call "setweight" [← value vector, .verbatim ("'" ++ String.singleton c ++ "'")]
  | .matchRegex, [input, pattern] => matchValue value input pattern .empty
  | .matchRegex, [input, pattern, options] => do
    let options ← regexOptions options
    matchValue value input pattern options
  | .cast, [arg, type] => do
    let type ← castTargetName type
    return .cast (← value arg) type
  | .leading _, _ | .castTo _, _ => .fail (.arity name "1" args.length)
  | .matchRegex, _ => .fail (.arity name "2 or 3" args.length)
  | .binary _, _ | .setWeight, _ | .cast, _ => .fail (.arity name "2" args.length)

/-! ## All functions -/

/-- The quoted name of a function. -/
def callName (f : FunctionRef) : String :=
  (match f.schema with
    | some schema => Quote.identifier schema ++ "."
    | none => "") ++ Quote.identifier (f.storeName.getD f.name)

def callValue (value : Expr → CompileM SqlExpr) (f : FunctionRef) (args : List Expr)
    (resultType : DataType) : CompileM SqlExpr := do
  if f.isCanonical then canonicalValue value f.name args resultType
  else
    match if f.isStore then StoreFunction.ofName? f.name else none with
    | some g => storeValue value g f.name args
    | none => return .call (callName f) (← valuesOf value args)

/-! ## Aggregates -/

/-- The canonical aggregates and their names on the server. -/
def aggregateNames : List (String × String) :=
  [("Avg", "avg"), ("Count", "count"), ("BigCount", "count"), ("Max", "max"), ("Min", "min"),
    ("Sum", "sum"), ("StDev", "stddev_samp"), ("StDevP", "stddev_pop"), ("Var", "var_samp"),
    ("VarP", "var_pop")]

/-- The operand of an aggregate over distinct values. -/
def distinctOperand (distinct : Bool) (operand : SqlExpr) : SqlExpr :=
  if distinct then .seq [.verbatim "DISTINCT ", operand] else operand

/-- Concatenation of strings with a separator, by default the empty string. -/
def stringAggValue (value : Expr → CompileM SqlExpr) (a : Aggregate) : CompileM SqlExpr := do
  match a.args with
  | [arg] =>
    return .call "string_agg" [distinctOperand a.distinct (← value arg), .verbatim "''"]
  | [arg, separator] =>
    return .call "string_agg" [distinctOperand a.distinct (← value arg), ← value separator]
  | args => .fail (.arity "StringAgg" "1 or 2" args.length)

/-- An aggregate; the canonical ones are cast to their result type. -/
def aggregateValue (value : Expr → CompileM SqlExpr) (a : Aggregate) : CompileM SqlExpr := do
  if a.function.isStore && a.function.name == "StringAgg" then stringAggValue value a
  else
    match if a.function.isCanonical then aggregateNames.lookup a.function.name else none with
    | none => .fail (.aggregate a.function.qualifiedName)
    | some name =>
      match a.args with
      | [arg] => do
        let operand := distinctOperand a.distinct (← value arg)
        let type ← castTarget a.resultType
        return .cast (.call name [operand]) type
      | args => .fail (.arity a.function.qualifiedName "1" args.length)

end TreeSql.Compile
