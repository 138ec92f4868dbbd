import TreeSql.Expr.Equivalence

/-
  TreeSql.Expr.Coalesce — `CASE` expressions that only replace a null, as calls of `coalesce`.

  A last branch `WHEN x IS NULL THEN y ELSE x` is `coalesce(x, y)`, and that call is the new `ELSE`
  for the branches before it. `reduce` works from the inside: first the branches of a `CASE` and
  the operand of an `IS NULL`, then the branches from the last one on, as long as the rule applies.
  Other expressions are left alone, operands included.
-/
namespace TreeSql.Expr

def coalesceName : String := "coalesce"

def isCoalesce (f : FunctionRef) : Bool := f.isStore && f.name == coalesceName

/-- The arguments of a call of `coalesce`; any other expression by itself. -/
def coalesceArgs : Expr → List Expr
  | call f args t => if isCoalesce f then args else [call f args t]
  | e => [e]

/-- The first of two values that is not null. -/
def coalesce (arg fallback : Expr) : Expr :=
  call (.store coalesceName) (coalesceArgs arg ++ coalesceArgs fallback) arg.resultType

/-- A `CASE` with its branches given last first, where the branches at the end that only replace a
    null are collapsed into the `ELSE` value. -/
def collapse : (conditions values : List Expr) → (otherwise : Expr) → Expr
  | isNull arg :: ws, t :: ts, o =>
    if ws.length = ts.length ∧ equivalent arg o = true then
      if ws.isEmpty then coalesce arg t else collapse ws ts (coalesce arg t)
    else caseOf (isNull arg :: ws).reverse (t :: ts).reverse o
  | ws, ts, o => caseOf ws.reverse ts.reverse o

mutual

/-- The expression with its reducible `CASE` expressions reduced. -/
def reduce : Expr → Expr
  | caseOf ws ts o => collapse (reduceAll ws).reverse (reduceAll ts).reverse (reduce o)
  | isNull e => isNull (reduce e)
  | e => e
termination_by structural e => e

def reduceAll : List Expr → List Expr
  | [] => []
  | e :: es => reduce e :: reduceAll es
termination_by structural es => es

end

theorem reduceAll_eq_map (es : List Expr) : reduceAll es = es.map reduce := by
  induction es with
  | nil => rfl
  | cons e es ih => simp [reduceAll, ih]

end TreeSql.Expr
