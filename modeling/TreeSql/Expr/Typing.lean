import TreeSql.Expr.Basic

/-
  TreeSql.Expr.Typing — the type of an expression.

  A relational expression has the type of a collection of its rows, a scalar one that of its
  value. Most nodes carry their type or take it from one operand; nothing is checked.
-/
namespace TreeSql

namespace Expr

/-- The type of an expression. An element that is not taken from a collection has the type of its
    input, and an arithmetic expression without operands is an `Int32`. -/
def resultType : Expr → DataType
  | scan set => .ofElement (.ofMembers set.columns)
  | filter ⟨e, _⟩ _ | sort ⟨e, _⟩ _ | skip ⟨e, _⟩ _ _ => e.resultType
  | limit e _ | distinct e => e.resultType
  | project _ p => .ofElement p.resultType
  | groupBy _ _ _ t | call _ _ t => t
  | join _ ⟨l, v⟩ ⟨r, w⟩ _ =>
    .ofElement (.ofMembers [⟨v, l.resultType.elementOrSelf⟩, ⟨w, r.resultType.elementOrSelf⟩])
  | setOp _ l _ => l.resultType
  | newInstance t _ => t
  | element e => e.resultType.elementOrSelf
  | comparison .. | and .. | or .. | not _ | isNull _ | isEmpty _ | like .. | isIn .. => .boolean
  | arithmetic _ [] => .ofKind .int32
  | arithmetic _ (e :: _) => e.resultType
  | cast _ t | null t | paramRef _ t | varRef _ t | property _ _ t => t
  | caseOf _ [] o => o.resultType
  | caseOf _ (e :: _) _ => e.resultType
  | constant v => .ofKind v.kind

end Expr

/-! ## Bindings -/

namespace BindingOf

/-- The type of the rows that the variable ranges over. -/
def elementType (b : Binding) : DataType := b.expr.resultType.elementOrSelf

/-- A reference to the variable. -/
def varRef (b : Binding) : Expr := .varRef b.var b.elementType

end BindingOf

namespace GroupBindingOf

def elementType (b : GroupBinding) : DataType := b.expr.resultType.elementOrSelf

/-- A reference to the row variable. -/
def varRef (b : GroupBinding) : Expr := .varRef b.var b.elementType

/-- A reference to the group variable. -/
def groupVarRef (b : GroupBinding) : Expr := .varRef b.groupVar b.elementType

end GroupBindingOf

end TreeSql
