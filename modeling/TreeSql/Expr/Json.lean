import TreeSql.Expr.Basic
import TreeSql.Value.Json

/-
  TreeSql.Expr.Json — expressions in JSON.

  An expression is a variant named for its kind. A variant with several parts is a record of them,
  except that the operands of `And` and `Or` are an array of two.
-/
namespace TreeSql

open Json Decoder

/-! ## Entity sets and functions -/

namespace TableMapping

def toJson (m : TableMapping) : Json :=
  .record [("table", .ofOption .ofString m.table), ("schema", .ofOption .ofString m.schema),
    ("store_name", .ofOption .ofString m.storeName),
    ("store_schema", .ofOption .ofString m.storeSchema),
    ("defining_query", .ofOption .ofString m.definingQuery)]

def decoder : Decoder TableMapping := fun n j => do
  let f ← fields ["table", "schema", "store_name", "store_schema", "defining_query"] n j
  return {
    table := ← f.getD "table" (option string) none
    schema := ← f.getD "schema" (option string) none
    storeName := ← f.getD "store_name" (option string) none
    storeSchema := ← f.getD "store_schema" (option string) none
    definingQuery := ← f.getD "defining_query" (option string) none }

end TableMapping

namespace EntitySet

def toJson (s : EntitySet) : Json :=
  .record [("name", .ofString s.name), ("container", .ofString s.container),
    ("annotations", s.mapping.toJson), ("columns", .array (s.columns.map Named.toJson))]

def decoder : Decoder EntitySet := fun n j => do
  let f ← fields ["name", "container", "annotations", "columns"] n j
  return {
    name := ← f.get "name" string
    container := ← f.get "container" string
    mapping := ← f.getD "annotations" TableMapping.decoder {}
    columns := ← f.getD "columns" (list Named.decoder) [] }

end EntitySet

namespace FunctionRef

def toJson (r : FunctionRef) : Json :=
  .record [("namespace", .ofString r.space), ("name", .ofString r.name),
    ("schema", .ofOption .ofString r.schema), ("store_name", .ofOption .ofString r.storeName)]

def decoder : Decoder FunctionRef := fun n j => do
  let f ← fields ["namespace", "name", "schema", "store_name"] n j
  return {
    space := ← f.get "namespace" string
    name := ← f.get "name" string
    schema := ← f.getD "schema" (option string) none
    storeName := ← f.getD "store_name" (option string) none }

end FunctionRef

/-! ## Writing -/

/-- An input and its variable. -/
def bindingJson (e : Json) (var : String) : Json := .record [("expr", e), ("var", .ofString var)]

/-- The input of a grouping and its variables. -/
def groupBindingJson (e : Json) (var groupVar : String) : Json :=
  .record [("expr", e), ("var", .ofString var), ("group_var", .ofString groupVar)]

def sortKeyJson (e : Json) (ascending : Bool) : Json :=
  .record [("expr", e), ("ascending", .bool ascending)]

def aggregateJson (f : FunctionRef) (args : List Json) (distinct : Bool) (t : DataType) : Json :=
  .record [("function", f.toJson), ("args", .array args), ("distinct", .bool distinct),
    ("result_type", t.toJson)]

namespace Expr

/-- A variant with named parts. -/
def node (name : String) (parts : List (String × Json)) : Json := .variant name (.record parts)

/-- A variant with two operands. -/
def node2 (name : String) (l r : Json) : Json := .variant name (.array [l, r])

mutual

def toJson : Expr → Json
  | scan set => .variant "Scan" set.toJson
  | filter ⟨e, v⟩ p => node "Filter" [("input", bindingJson e.toJson v), ("predicate", p.toJson)]
  | project ⟨e, v⟩ p => node "Project" [("input", bindingJson e.toJson v), ("projection", p.toJson)]
  | sort ⟨e, v⟩ ks => node "Sort" [("input", bindingJson e.toJson v), ("keys", .array (keysToJson ks))]
  | skip ⟨e, v⟩ ks c =>
    node "Skip" [("input", bindingJson e.toJson v), ("keys", .array (keysToJson ks)),
      ("count", c.toJson)]
  | limit e c => node "Limit" [("input", e.toJson), ("limit", c.toJson)]
  | distinct e => .variant "Distinct" e.toJson
  | groupBy ⟨e, v, g⟩ ks aggs t =>
    node "GroupBy" [("input", groupBindingJson e.toJson v g), ("keys", .array (allToJson ks)),
      ("aggregates", .array (aggregatesToJson aggs)), ("result_type", t.toJson)]
  | join k ⟨l, v⟩ ⟨r, w⟩ c =>
    node "Join" [("kind", .ofString k.name), ("left", bindingJson l.toJson v),
      ("right", bindingJson r.toJson w), ("condition", optionToJson c)]
  | setOp k l r =>
    node "SetOp" [("kind", .ofString k.name), ("left", l.toJson), ("right", r.toJson)]
  | newInstance t es => node "NewInstance" [("ty", t.toJson), ("args", .array (allToJson es))]
  | element e => .variant "Element" e.toJson
  | call f es t =>
    node "Function" [("function", f.toJson), ("args", .array (allToJson es)),
      ("result_type", t.toJson)]
  | comparison op l r =>
    node "Comparison" [("op", .ofString op.name), ("left", l.toJson), ("right", r.toJson)]
  | arithmetic op es => node "Arithmetic" [("op", .ofString op.name), ("args", .array (allToJson es))]
  | and l r => node2 "And" l.toJson r.toJson
  | or l r => node2 "Or" l.toJson r.toJson
  | not e => .variant "Not" e.toJson
  | isNull e => .variant "IsNull" e.toJson
  | isEmpty e => .variant "IsEmpty" e.toJson
  | like e p => node "Like" [("argument", e.toJson), ("pattern", p.toJson)]
  | isIn e es => node "In" [("item", e.toJson), ("list", .array (allToJson es))]
  | cast e t => node "Cast" [("argument", e.toJson), ("ty", t.toJson)]
  | caseOf ws ts o =>
    node "Case" [("when", .array (allToJson ws)), ("then", .array (allToJson ts)),
      ("otherwise", o.toJson)]
  | constant v => .variant "Constant" v.toJson
  | null t => .variant "Null" t.toJson
  | paramRef name t => node "ParameterRef" [("name", .ofString name), ("ty", t.toJson)]
  | varRef name t => node "VariableRef" [("name", .ofString name), ("ty", t.toJson)]
  | property e name t =>
    node "Property" [("instance", e.toJson), ("name", .ofString name), ("ty", t.toJson)]
termination_by structural e => e

def allToJson : List Expr → List Json
  | [] => []
  | e :: es => e.toJson :: allToJson es
termination_by structural es => es

def keysToJson : List (SortKeyOf Expr) → List Json
  | [] => []
  | ⟨e, a⟩ :: ks => sortKeyJson e.toJson a :: keysToJson ks
termination_by structural ks => ks

def aggregatesToJson : List (AggregateOf Expr) → List Json
  | [] => []
  | ⟨f, args, d, t⟩ :: aggs => aggregateJson f (allToJson args) d t :: aggregatesToJson aggs
termination_by structural aggs => aggs

def optionToJson : Option Expr → Json
  | none => .null
  | some e => e.toJson
termination_by structural e => e

end

/-! ## Reading -/

section Parts

variable (expr : Decoder Expr)

def bindingDecoder : Decoder Binding := fun n j => do
  let f ← fields ["expr", "var"] n j
  return ⟨← f.get "expr" expr, ← f.get "var" string⟩

def groupBindingDecoder : Decoder GroupBinding := fun n j => do
  let f ← fields ["expr", "var", "group_var"] n j
  return ⟨← f.get "expr" expr, ← f.get "var" string, ← f.get "group_var" string⟩

def sortKeyDecoder : Decoder SortKey := fun n j => do
  let f ← fields ["expr", "ascending"] n j
  return ⟨← f.get "expr" expr, ← f.get "ascending" bool⟩

def aggregateDecoder : Decoder Aggregate := fun n j => do
  let f ← fields ["function", "args", "distinct", "result_type"] n j
  return {
    function := ← f.get "function" FunctionRef.decoder
    args := ← f.get "args" (list expr)
    distinct := ← f.getD "distinct" bool false
    resultType := ← f.get "result_type" DataType.decoder }

/-- The decoder for what belongs to the variant of a name. -/
def contentDecoder? : String → Option (Decoder Expr)
  | "Scan" => some (.map scan EntitySet.decoder)
  | "Filter" => some fun n j => do
    let f ← fields ["input", "predicate"] n j
    return filter (← f.get "input" (bindingDecoder expr)) (← f.get "predicate" expr)
  | "Project" => some fun n j => do
    let f ← fields ["input", "projection"] n j
    return project (← f.get "input" (bindingDecoder expr)) (← f.get "projection" expr)
  | "Sort" => some fun n j => do
    let f ← fields ["input", "keys"] n j
    return sort (← f.get "input" (bindingDecoder expr)) (← f.get "keys" (list (sortKeyDecoder expr)))
  | "Skip" => some fun n j => do
    let f ← fields ["input", "keys", "count"] n j
    return skip (← f.get "input" (bindingDecoder expr)) (← f.get "keys" (list (sortKeyDecoder expr)))
      (← f.get "count" expr)
  | "Limit" => some fun n j => do
    let f ← fields ["input", "limit"] n j
    return limit (← f.get "input" expr) (← f.get "limit" expr)
  | "Distinct" => some (.map distinct expr)
  | "GroupBy" => some fun n j => do
    let f ← fields ["input", "keys", "aggregates", "result_type"] n j
    return groupBy (← f.get "input" (groupBindingDecoder expr)) (← f.get "keys" (list expr))
      (← f.get "aggregates" (list (aggregateDecoder expr))) (← f.get "result_type" DataType.decoder)
  | "Join" => some fun n j => do
    let f ← fields ["kind", "left", "right", "condition"] n j
    return join (← f.get "kind" (enum JoinKind.ofName?)) (← f.get "left" (bindingDecoder expr))
      (← f.get "right" (bindingDecoder expr)) (← f.get? "condition" expr)
  | "SetOp" => some fun n j => do
    let f ← fields ["kind", "left", "right"] n j
    return setOp (← f.get "kind" (enum SetOpKind.ofName?)) (← f.get "left" expr)
      (← f.get "right" expr)
  | "NewInstance" => some fun n j => do
    let f ← fields ["ty", "args"] n j
    return newInstance (← f.get "ty" DataType.decoder) (← f.get "args" (list expr))
  | "Element" => some (.map element expr)
  | "Function" => some fun n j => do
    let f ← fields ["function", "args", "result_type"] n j
    return call (← f.get "function" FunctionRef.decoder) (← f.get "args" (list expr))
      (← f.get "result_type" DataType.decoder)
  | "Comparison" => some fun n j => do
    let f ← fields ["op", "left", "right"] n j
    return comparison (← f.get "op" (enum ComparisonOp.ofName?)) (← f.get "left" expr)
      (← f.get "right" expr)
  | "Arithmetic" => some fun n j => do
    let f ← fields ["op", "args"] n j
    return arithmetic (← f.get "op" (enum ArithmeticOp.ofName?)) (← f.get "args" (list expr))
  | "And" => some (.map (fun (l, r) => and l r) (pair expr expr))
  | "Or" => some (.map (fun (l, r) => or l r) (pair expr expr))
  | "Not" => some (.map not expr)
  | "IsNull" => some (.map isNull expr)
  | "IsEmpty" => some (.map isEmpty expr)
  | "Like" => some fun n j => do
    let f ← fields ["argument", "pattern"] n j
    return like (← f.get "argument" expr) (← f.get "pattern" expr)
  | "In" => some fun n j => do
    let f ← fields ["item", "list"] n j
    return isIn (← f.get "item" expr) (← f.get "list" (list expr))
  | "Cast" => some fun n j => do
    let f ← fields ["argument", "ty"] n j
    return cast (← f.get "argument" expr) (← f.get "ty" DataType.decoder)
  | "Case" => some fun n j => do
    let f ← fields ["when", "then", "otherwise"] n j
    return caseOf (← f.get "when" (list expr)) (← f.get "then" (list expr))
      (← f.get "otherwise" expr)
  | "Constant" => some (.map constant Value.decoder)
  | "Null" => some (.map null DataType.decoder)
  | "ParameterRef" => some fun n j => do
    let f ← fields ["name", "ty"] n j
    return paramRef (← f.get "name" string) (← f.get "ty" DataType.decoder)
  | "VariableRef" => some fun n j => do
    let f ← fields ["name", "ty"] n j
    return varRef (← f.get "name" string) (← f.get "ty" DataType.decoder)
  | "Property" => some fun n j => do
    let f ← fields ["instance", "name", "ty"] n j
    return property (← f.get "instance" expr) (← f.get "name" string)
      (← f.get "ty" DataType.decoder)
  | _ => none

end Parts

def decoder : Decoder Expr := recursive fun expr => variant (contentDecoder? expr)

end Expr

/-! ## Parts by themselves -/

namespace BindingOf

def toJson (b : Binding) : Json := bindingJson b.expr.toJson b.var

def decoder : Decoder Binding := Expr.bindingDecoder Expr.decoder

end BindingOf

def SortKeyOf.toJson (k : SortKey) : Json := sortKeyJson k.expr.toJson k.ascending

def AggregateOf.toJson (a : Aggregate) : Json :=
  aggregateJson a.function (Expr.allToJson a.args) a.distinct a.resultType

end TreeSql
