import TreeSql.Sql.Expr

/-
  TreeSql.Proofs.Compile.Leaves — the columns and the subqueries in an expression.

  Expressions are put together from columns and subqueries by operators and calls. `negate` and `followedBy`
  add none and leave none out.
-/
namespace TreeSql

namespace Sql.SqlExpr

mutual

/-- The column references and subqueries, from left to right. -/
def leaves : SqlExpr → List SqlExpr
  | columnRef qualifier name => [columnRef qualifier name]
  | stage id => [stage id]
  | seq es | list es | call _ es => leavesOfAll es
  | paren e | column e _ _ | cast e _ | leading _ e | trailing _ e | exists_ e => leaves e
  | binary _ l r => leaves l ++ leaves r
  | verbatim _ | constant _ | property _ => []
termination_by structural e => e

def leavesOfAll : List SqlExpr → List SqlExpr
  | [] => []
  | e :: es => leaves e ++ leavesOfAll es
termination_by structural es => es

end

theorem leavesOfAll_eq_flatMap (es : List SqlExpr) : leavesOfAll es = es.flatMap leaves := by
  induction es with
  | nil => rfl
  | cons e es ih => rw [leavesOfAll, ih, List.flatMap_cons]

theorem leaves_followedBy (a : SqlExpr) (text : String) : (a.followedBy text).leaves = a.leaves := by
  cases a <;> simp [followedBy, leaves, leavesOfAll, leavesOfAll_eq_flatMap]

theorem leaves_negate (a : SqlExpr) : a.negate.leaves = a.leaves := by
  cases a with
  | binary op l r => cases h : op.negated? <;> simp [negate, leaves, h]
  | leading op e => cases op <;> simp [negate, leaves]
  | _ => simp [negate, leaves]

end Sql.SqlExpr

end TreeSql
