import TreeSql.DataType.Basic
import TreeSql.Value.Basic

/-
  TreeSql.Expr.Basic — the expressions of command trees.

  One type covers relational expressions, which produce rows, and scalar ones, which produce one
  value per row. A relational input is bound to a variable that ranges over its rows (`Binding`);
  a grouping binds a second variable for the rows of a group. `kind` is the constructor of an
  expression with its operator, `size` its number of nodes.
-/
namespace TreeSql

/-! ## Parts -/

/-- Where the rows of an entity set are stored. The `store` names win over the plain ones, and a
    defining query stands in for the table. -/
structure TableMapping where
  table : Option String := none
  schema : Option String := none
  storeName : Option String := none
  storeSchema : Option String := none
  definingQuery : Option String := none
deriving DecidableEq

/-- What a scan reads. -/
structure EntitySet where
  name : String
  container : String
  mapping : TableMapping := {}
  columns : List Member := []
deriving DecidableEq

/-- A relational input and the variable bound to its rows. -/
structure BindingOf (ε : Type) where
  expr : ε
  var : String

/-- The input of a grouping. -/
structure GroupBindingOf (ε : Type) where
  expr : ε
  var : String
  groupVar : String

structure SortKeyOf (ε : Type) where
  expr : ε
  ascending : Bool

/-- A function by name. `storeName` is the name to write when it is not `name`. -/
structure FunctionRef where
  space : String
  name : String
  schema : Option String := none
  storeName : Option String := none
deriving DecidableEq

namespace FunctionRef

/-- The space of the functions that every store has. -/
def canonicalSpace : String := "Edm"

/-- The space of the functions of PostgreSQL. -/
def storeSpace : String := "Postgres"

def canonical (name : String) : FunctionRef := { space := canonicalSpace, name }

def store (name : String) : FunctionRef := { space := storeSpace, name }

def isCanonical (f : FunctionRef) : Bool := f.space == canonicalSpace

def isStore (f : FunctionRef) : Bool := f.space == storeSpace

def qualifiedName (f : FunctionRef) : String := f.space ++ "." ++ f.name

end FunctionRef

structure AggregateOf (ε : Type) where
  function : FunctionRef
  args : List ε
  distinct : Bool := false
  resultType : DataType

inductive JoinKind where
  | inner
  | leftOuter
  | fullOuter
  | cross
  | crossApply
  | outerApply
deriving DecidableEq

/-- Whether the right side is evaluated for each row of the left one. -/
def JoinKind.isApply : JoinKind → Bool
  | crossApply | outerApply => true
  | _ => false

inductive SetOpKind where
  | unionAll
  | intersect
  | except
deriving DecidableEq

inductive ComparisonOp where
  | equals
  | notEquals
  | lessThan
  | lessThanOrEquals
  | greaterThan
  | greaterThanOrEquals
deriving DecidableEq

inductive ArithmeticOp where
  | plus
  | minus
  | multiply
  | divide
  | modulo
  | unaryMinus
deriving DecidableEq

/-! ## Expressions -/

inductive Expr where
  | scan (set : EntitySet)
  | filter (input : BindingOf Expr) (predicate : Expr)
  | project (input : BindingOf Expr) (projection : Expr)
  | sort (input : BindingOf Expr) (keys : List (SortKeyOf Expr))
  | skip (input : BindingOf Expr) (keys : List (SortKeyOf Expr)) (count : Expr)
  | limit (input : Expr) (count : Expr)
  | distinct (input : Expr)
  | groupBy (input : GroupBindingOf Expr) (keys : List Expr) (aggregates : List (AggregateOf Expr))
      (resultType : DataType)
  | join (kind : JoinKind) (left right : BindingOf Expr) (condition : Option Expr)
  | setOp (kind : SetOpKind) (left right : Expr)
  /-- A row of the given type, or a collection of rows. -/
  | newInstance (type : DataType) (args : List Expr)
  /-- The single row of an input. -/
  | element (input : Expr)
  | call (function : FunctionRef) (args : List Expr) (resultType : DataType)
  | comparison (op : ComparisonOp) (left right : Expr)
  | arithmetic (op : ArithmeticOp) (args : List Expr)
  | and (left right : Expr)
  | or (left right : Expr)
  | not (arg : Expr)
  | isNull (arg : Expr)
  | isEmpty (arg : Expr)
  | like (arg pattern : Expr)
  | isIn (item : Expr) (list : List Expr)
  | cast (arg : Expr) (type : DataType)
  /-- The value of the first branch whose condition holds. Conditions and values are given apart. -/
  | caseOf (conditions values : List Expr) (otherwise : Expr)
  | constant (value : Value)
  | null (type : DataType)
  | paramRef (name : String) (type : DataType)
  | varRef (name : String) (type : DataType)
  | property (base : Expr) (name : String) (type : DataType)

abbrev Binding := BindingOf Expr

abbrev GroupBinding := GroupBindingOf Expr

abbrev SortKey := SortKeyOf Expr

abbrev Aggregate := AggregateOf Expr

/-! ## Kinds -/

/-- The constructor of an expression, with its operator. -/
inductive ExprKind where
  | scan
  | filter
  | project
  | sort
  | skip
  | limit
  | distinct
  | groupBy
  | join (kind : JoinKind)
  | setOp (kind : SetOpKind)
  | newInstance
  | element
  | call
  | comparison (op : ComparisonOp)
  | arithmetic (op : ArithmeticOp)
  | and
  | or
  | not
  | isNull
  | isEmpty
  | like
  | isIn
  | cast
  | caseOf
  | constant
  | null
  | paramRef
  | varRef
  | property
deriving DecidableEq

namespace Expr

def kind : Expr → ExprKind
  | scan .. => .scan
  | filter .. => .filter
  | project .. => .project
  | sort .. => .sort
  | skip .. => .skip
  | limit .. => .limit
  | distinct .. => .distinct
  | groupBy .. => .groupBy
  | join k .. => .join k
  | setOp k .. => .setOp k
  | newInstance .. => .newInstance
  | element .. => .element
  | call .. => .call
  | comparison op .. => .comparison op
  | arithmetic op .. => .arithmetic op
  | and .. => .and
  | or .. => .or
  | not .. => .not
  | isNull .. => .isNull
  | isEmpty .. => .isEmpty
  | like .. => .like
  | isIn .. => .isIn
  | cast .. => .cast
  | caseOf .. => .caseOf
  | constant .. => .constant
  | null .. => .null
  | paramRef .. => .paramRef
  | varRef .. => .varRef
  | property .. => .property

/-- Whether the expression produces rows. -/
def isRelational : Expr → Bool
  | scan .. | filter .. | project .. | sort .. | skip .. | limit .. | distinct .. | groupBy ..
  | join .. | setOp .. => true
  | newInstance t _ => t.element?.isSome
  | call _ _ t => t.element?.isSome
  | _ => false

def isJoin : Expr → Bool
  | join .. => true
  | _ => false

/-! ## Size -/

mutual

/-- The number of nodes. -/
def size : Expr → Nat
  | scan _ | constant _ | null _ | paramRef .. | varRef .. => 1
  | filter ⟨e, _⟩ p => e.size + p.size + 1
  | project ⟨e, _⟩ p => e.size + p.size + 1
  | sort ⟨e, _⟩ ks => e.size + sizeOfKeys ks + 1
  | skip ⟨e, _⟩ ks n => e.size + sizeOfKeys ks + n.size + 1
  | limit e n => e.size + n.size + 1
  | groupBy ⟨e, _, _⟩ ks aggs _ => e.size + sizeOfAll ks + sizeOfAggregates aggs + 1
  | join _ ⟨l, _⟩ ⟨r, _⟩ c => l.size + r.size + sizeOfOption c + 1
  | setOp _ l r | comparison _ l r | and l r | or l r | like l r => l.size + r.size + 1
  | newInstance _ es | call _ es _ | arithmetic _ es => sizeOfAll es + 1
  | distinct e | element e | not e | isNull e | isEmpty e | cast e _ | property e _ _ => e.size + 1
  | isIn e es => e.size + sizeOfAll es + 1
  | caseOf ws ts o => sizeOfAll ws + sizeOfAll ts + o.size + 1
termination_by structural e => e

def sizeOfAll : List Expr → Nat
  | [] => 0
  | e :: es => e.size + sizeOfAll es
termination_by structural es => es

def sizeOfKeys : List (SortKeyOf Expr) → Nat
  | [] => 0
  | ⟨e, _⟩ :: ks => e.size + sizeOfKeys ks
termination_by structural ks => ks

def sizeOfAggregates : List (AggregateOf Expr) → Nat
  | [] => 0
  | ⟨_, args, _, _⟩ :: aggs => sizeOfAll args + sizeOfAggregates aggs
termination_by structural aggs => aggs

def sizeOfOption : Option Expr → Nat
  | none => 0
  | some e => e.size
termination_by structural e => e

end

end Expr

/-! ## Names -/

namespace JoinKind

def name : JoinKind → String
  | inner => "Inner"
  | leftOuter => "LeftOuter"
  | fullOuter => "FullOuter"
  | cross => "Cross"
  | crossApply => "CrossApply"
  | outerApply => "OuterApply"

def all : List JoinKind := [inner, leftOuter, fullOuter, cross, crossApply, outerApply]

def ofName? (s : String) : Option JoinKind := all.find? (·.name == s)

theorem ofName?_name (k : JoinKind) : ofName? k.name = some k := by cases k <;> decide

end JoinKind

namespace SetOpKind

def name : SetOpKind → String
  | unionAll => "UnionAll"
  | intersect => "Intersect"
  | except => "Except"

def all : List SetOpKind := [unionAll, intersect, except]

def ofName? (s : String) : Option SetOpKind := all.find? (·.name == s)

theorem ofName?_name (k : SetOpKind) : ofName? k.name = some k := by cases k <;> decide

end SetOpKind

namespace ComparisonOp

def name : ComparisonOp → String
  | equals => "Equals"
  | notEquals => "NotEquals"
  | lessThan => "LessThan"
  | lessThanOrEquals => "LessThanOrEquals"
  | greaterThan => "GreaterThan"
  | greaterThanOrEquals => "GreaterThanOrEquals"

def all : List ComparisonOp :=
  [equals, notEquals, lessThan, lessThanOrEquals, greaterThan, greaterThanOrEquals]

def ofName? (s : String) : Option ComparisonOp := all.find? (·.name == s)

theorem ofName?_name (op : ComparisonOp) : ofName? op.name = some op := by cases op <;> decide

end ComparisonOp

namespace ArithmeticOp

def name : ArithmeticOp → String
  | plus => "Plus"
  | minus => "Minus"
  | multiply => "Multiply"
  | divide => "Divide"
  | modulo => "Modulo"
  | unaryMinus => "UnaryMinus"

def all : List ArithmeticOp := [plus, minus, multiply, divide, modulo, unaryMinus]

def ofName? (s : String) : Option ArithmeticOp := all.find? (·.name == s)

theorem ofName?_name (op : ArithmeticOp) : ofName? op.name = some op := by cases op <;> decide

end ArithmeticOp

/-- The kind as error messages show it. -/
def ExprKind.name : ExprKind → String
  | scan => "Scan"
  | filter => "Filter"
  | project => "Project"
  | sort => "Sort"
  | skip => "Skip"
  | limit => "Limit"
  | distinct => "Distinct"
  | groupBy => "GroupBy"
  | join k => "Join(" ++ k.name ++ ")"
  | setOp k => "SetOp(" ++ k.name ++ ")"
  | newInstance => "NewInstance"
  | element => "Element"
  | call => "Function"
  | comparison op => "Comparison(" ++ op.name ++ ")"
  | arithmetic op => "Arithmetic(" ++ op.name ++ ")"
  | and => "And"
  | or => "Or"
  | not => "Not"
  | isNull => "IsNull"
  | isEmpty => "IsEmpty"
  | like => "Like"
  | isIn => "In"
  | cast => "Cast"
  | caseOf => "Case"
  | constant => "Constant"
  | null => "Null"
  | paramRef => "ParameterRef"
  | varRef => "VariableRef"
  | property => "Property"

end TreeSql
