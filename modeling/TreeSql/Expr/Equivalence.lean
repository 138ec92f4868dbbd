import TreeSql.Expr.Typing

/-
  TreeSql.Expr.Equivalence — when two separate expressions are known to have the same value.

  `equivalent` compares kind, type and the parts that determine the value. It is narrow: the
  kinds it does not list (among them all relational ones) are equivalent to nothing, not even to a
  copy. So it is symmetric and transitive, but reflexive only on the kinds it compares.
-/
namespace TreeSql.Expr

/-- Same kind and same type, facets aside. -/
def sameShape (a b : Expr) : Bool := a.kind == b.kind && decide (a.resultType.SameType b.resultType)

mutual

/-- Whether two expressions are known to have the same value. -/
def equivalent (a b : Expr) : Bool :=
  match a, b with
  | call f as t, call g bs u =>
    sameShape (call f as t) (call g bs u) && f.space == g.space && f.name == g.name &&
      allEquivalent as bs
  | constant v, constant w => sameShape (constant v) (constant w) && v.eqv w
  | comparison op l r, comparison op' l' r' =>
    sameShape (comparison op l r) (comparison op' l' r') && equivalent l l' && equivalent r r'
  | and l r, and l' r' => equivalent l l' && equivalent r r'
  | or l r, or l' r' => equivalent l l' && equivalent r r'
  | arithmetic op as, arithmetic op' bs =>
    sameShape (arithmetic op as) (arithmetic op' bs) && allEquivalent as bs
  | not x, not y => equivalent x y
  | isNull x, isNull y => equivalent x y
  | cast x t, cast y u => sameShape (cast x t) (cast y u) && equivalent x y
  | property x n t, property y m u =>
    sameShape (property x n t) (property y m u) && n == m && equivalent x y
  | varRef n t, varRef m u => sameShape (varRef n t) (varRef m u) && n == m
  | paramRef n t, paramRef m u => sameShape (paramRef n t) (paramRef m u) && n == m
  | _, _ => false
termination_by structural a

/-- Equivalence of argument lists, place by place. -/
def allEquivalent (as bs : List Expr) : Bool :=
  match as, bs with
  | [], [] => true
  | a :: as, b :: bs => equivalent a b && allEquivalent as bs
  | _, _ => false
termination_by structural as

end

end TreeSql.Expr
