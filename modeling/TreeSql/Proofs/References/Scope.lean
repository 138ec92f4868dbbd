import TreeSql.Proofs.Compile.Leaves
import TreeSql.Proofs.Compile.Unqualified

/-
  TreeSql.Proofs.References.Scope — which columns the expressions of a statement refer to, and where
  these are to be found.

  An expression of a stage sees the FROM items of the stage and those of the stages around it, the
  nearest first (`Stage.exprs`); a stage inside another one sees less than its expressions do, unless
  it is lateral (`Stage.inner`). A reference is visible if the nearest item with its alias exposes the
  column (`Visible`).

  `Within` walks from a stage to all stages inside it.
-/
namespace TreeSql.Sql

/-! ## Expressions -/

namespace SqlExpr

/-- The columns that an expression refers to, by alias and name. -/
def references (e : SqlExpr) : List (String × String) :=
  e.leaves.filterMap fun
    | columnRef qualifier name => some (qualifier, name)
    | _ => none

/-- The stages inside an expression. -/
def subqueries (e : SqlExpr) : List StageId :=
  e.leaves.filterMap fun
    | stage id => some id
    | _ => none

end SqlExpr

/-! ## FROM clauses -/

/-- The FROM items that can be seen somewhere, the nearest first. -/
abbrev Items := List FromItem

namespace FromTree

def items : FromTree → Items
  | item i => [i]
  | join l _ r _ => l.items ++ r.items

/-- What the right side of a join sees: of its left side only if it is lateral. -/
def rightItems (env : Items) (l : FromTree) (kind : JoinKind) : Items :=
  if kind.isApply then l.items ++ env else env

/-- The stages in a FROM clause, with what they see. -/
def inner (env : Items) : FromTree → List (Items × StageId)
  | item i =>
    match i.source with
    | .stage id => [(env, id)]
    | .setOp _ operands => operands.map (env, ·)
    | _ => []
  | join l kind r _ => l.inner env ++ r.inner (rightItems env l kind)

/-- The expressions in a FROM clause, with what they see. -/
def exprs (env : Items) : FromTree → List (Items × SqlExpr)
  | item i =>
    match i.source with
    | .function e | .rows e => [(env, e)]
    | _ => []
  | join l kind r condition =>
    l.exprs env ++ r.exprs (rightItems env l kind) ++ condition.toList.map (l.items ++ r.items ++ env, ·)

end FromTree

/-! ## Stages -/

namespace Stage

/-- The items of the FROM clause. -/
def items (s : Stage) : Items := s.from_.elim [] FromTree.items

/-- The expressions of the select list. A stage without one selects the pulled columns. -/
def selected (s : Stage) : List SqlExpr := (s.projection.getD s.pulledColumns).map (·.expr)

/-- The expressions of the other clauses that see the FROM clause. -/
def clauses (s : Stage) : List SqlExpr :=
  s.where_.toList ++ s.groupBy.getD [] ++ (s.orderBy.getD []).map (·.expr)

/-- All expressions, with what they see. The numbers of rows see what is around the stage only. -/
def exprs (env : Items) (s : Stage) : List (Items × SqlExpr) :=
  s.selected.map (s.items ++ env, ·) ++ (s.clauses.map (s.items ++ env, ·) ++
    ((s.skip.toList ++ s.limit.toList).map (env, ·) ++ s.from_.elim [] (FromTree.exprs env)))

/-- The stages inside, with what they see. -/
def inner (env : Items) (s : Stage) : List (Items × StageId) :=
  s.from_.elim [] (FromTree.inner env) ++ (s.exprs env).flatMap fun p => p.2.subqueries.map (p.1, ·)

end Stage

/-! ## Columns that exist -/

/-- The names of the columns that each table has. -/
abbrev Schema := String → List String

/-- What a source exposes: the columns of a table, those of a stage, or those of the first operand of a set
    operation. Nothing is known of functions, nor asked of constant rows. -/
def Source.Exposes (schema : Schema) (stages : Stages) (name : String) : Source → Prop
  | .table text => name ∈ schema text
  | .stage id => name ∈ (stages.get id).outputNames
  | .setOp _ operands => ∃ id ∈ operands.head?, name ∈ (stages.get id).outputNames
  | .function _ | .rows _ => True

/-- The nearest item of an alias. -/
def Items.at_ (env : Items) (alias_ : String) : Option FromItem := env.find? fun i => i.name == alias_

/-- The nearest item with the alias exposes the column. -/
def Visible (schema : Schema) (stages : Stages) (env : Items) (r : String × String) : Prop :=
  ∃ i ∈ Items.at_ env r.1, i.source.Exposes schema stages r.2

instance (schema : Schema) (stages : Stages) (name : String) :
    (source : Source) → Decidable (source.Exposes schema stages name)
  | .table text => inferInstanceAs (Decidable (name ∈ schema text))
  | .stage id => inferInstanceAs (Decidable (name ∈ (stages.get id).outputNames))
  | .setOp _ operands => inferInstanceAs (Decidable (∃ id ∈ operands.head?, name ∈ (stages.get id).outputNames))
  | .function _ | .rows _ => isTrue trivial

instance (schema : Schema) (stages : Stages) (env : Items) (r : String × String) :
    Decidable (Visible schema stages env r) :=
  inferInstanceAs (Decidable (∃ i ∈ Items.at_ env r.1, _))

/-- The stages inside a stage, with what they see. -/
inductive Within (stages : Stages) (root : StageId) : Items → StageId → Prop
  | root : Within stages root [] root
  | step {env : Items} {id : StageId} {p : Items × StageId} : Within stages root env id →
    p ∈ (stages.get id).inner env → Within stages root p.1 p.2

end TreeSql.Sql
