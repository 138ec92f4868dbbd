import TreeSql.Expr.Typing

/-
  TreeSql.Expr.Build — constructors that fill in what the parts of an expression determine.

  The types of members and of property accesses come from the types of the parts. The other
  functions name the common nodes.
-/
namespace TreeSql

namespace Expr

/-! ## Scans and bindings -/

/-- A scan without declared columns. -/
def ofTable (container name : String) : Expr := scan { name, container }

/-- A scan with one more column; other expressions are left alone. -/
def withColumn (e : Expr) (name : String) (type : DataType) : Expr :=
  match e with
  | scan set => scan { set with columns := set.columns ++ [⟨name, type⟩] }
  | e => e

/-- A scan with another mapping; other expressions are left alone. -/
def withMapping (e : Expr) (mapping : TableMapping) : Expr :=
  match e with
  | scan set => scan { set with mapping }
  | e => e

def bind (e : Expr) (var : String) : Binding := ⟨e, var⟩

def groupBind (e : Expr) (var groupVar : String) : GroupBinding := ⟨e, var, groupVar⟩

/-- Access to a member; one that the type does not declare is a string. -/
def member (e : Expr) (name : String) : Expr :=
  let declared := (e.resultType.members?.getD []).find? (·.name == name)
  property e name (match declared with
    | some m => m.type
    | none => .string)

/-! ## Rows -/

/-- A row whose members have the types of the given values. -/
def rowOf (columns : List (String × Expr)) : Expr :=
  newInstance (.ofMembers (columns.map fun c => ⟨c.1, c.2.resultType⟩)) (columns.map (·.2))

def projectTo (input : Binding) (columns : List (String × Expr)) : Expr :=
  project input (rowOf columns)

/-- A grouping whose result type is made of its named keys and aggregates. -/
def groupByNamed (input : GroupBinding) (keys : List (String × Expr))
    (aggregates : List (String × Aggregate)) : Expr :=
  groupBy input (keys.map (·.2)) (aggregates.map (·.2))
    (.ofElement (.ofMembers (keys.map (fun k => ⟨k.1, k.2.resultType⟩) ++
      aggregates.map fun a => ⟨a.1, a.2.resultType⟩)))

def ascending (e : Expr) : SortKey := ⟨e, true⟩

def descending (e : Expr) : SortKey := ⟨e, false⟩

/-! ## Relations -/

def innerJoin (left right : Binding) (condition : Expr) : Expr :=
  join .inner left right (some condition)

def unionAll (left right : Expr) : Expr := setOp .unionAll left right

/-! ## Values -/

/-- A `CASE` with its branches as pairs of condition and value. -/
def caseOfBranches (branches : List (Expr × Expr)) (otherwise : Expr) : Expr :=
  caseOf (branches.map (·.1)) (branches.map (·.2)) otherwise

/-- A call of a function that every store has. -/
def canonicalCall (name : String) (args : List Expr) (type : DataType) : Expr :=
  call (.canonical name) args type

/-- A call of a function of PostgreSQL. -/
def storeCall (name : String) (args : List Expr) (type : DataType) : Expr :=
  call (.store name) args type

end Expr

namespace AggregateOf

/-- A canonical aggregate of one argument. -/
def ofArg (name : String) (arg : Expr) (type : DataType) : Aggregate :=
  { function := .canonical name, args := [arg], resultType := type }

/-- The same aggregate over distinct values. -/
def asDistinct (a : Aggregate) : Aggregate := { a with distinct := true }

end AggregateOf

end TreeSql
