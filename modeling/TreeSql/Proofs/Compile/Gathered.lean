import TreeSql.Compile.Relation
import TreeSql.Proofs.Expr.Nodes

/-
  TreeSql.Proofs.Compile.Gathered — where the members of a list come from.

  Select lists, group keys, constant rows and the operands of set operations are gathered from values and
  expressions that are given. What is said of all of these holds of what is gathered.
-/
namespace TreeSql.Compile

open Sql

theorem expr_mem_of_mem_columnsOf {members : List Member} {values : List SqlExpr} {c : Column}
    (h : c ∈ columnsOf members values) : c.expr ∈ values := by
  unfold columnsOf at h
  induction members generalizing values with
  | nil => simp at h
  | cons m members ih =>
    cases values with
    | nil => simp at h
    | cons v values =>
      rcases List.mem_cons.mp h with rfl | h
      · exact .head _
      · exact .tail _ (ih h)

/-- Values in a select list are the given ones, or the given ones with their type. -/
theorem mem_columnValues {args : List Expr} {values : List SqlExpr} {v : SqlExpr}
    (h : v ∈ args.zipWith columnValue values) : ∃ x ∈ values, v = x ∨ v = .cast x "varchar" := by
  induction args generalizing values with
  | nil => simp at h
  | cons arg args ih =>
    cases values with
    | nil => simp at h
    | cons x values =>
      rcases List.mem_cons.mp h with rfl | h
      · refine ⟨x, .head _, ?_⟩
        unfold columnValue
        split
        · exact .inr rfl
        · exact .inl rfl
      · obtain ⟨x, hx, hv⟩ := ih h
        exact ⟨x, .tail _ hx, hv⟩

theorem mem_of_mem_groupKeys {keys : List Expr} {values : List SqlExpr} {v : SqlExpr}
    (h : v ∈ groupKeys keys values) :
    v ∈ values := by
  obtain ⟨kv, hkv, rfl⟩ := List.mem_map.mp h
  exact (List.of_mem_zip (List.mem_filter.mp hkv).1).2

theorem mem_intercalate {α : Type} {x : α} {sep : List α} {ls : List (List α)} (h : x ∈ sep.intercalate ls) :
    x ∈ sep ∨ ∃ l ∈ ls, x ∈ l := by
  induction ls with
  | nil => cases h
  | cons l ls ih =>
    cases ls with
    | nil => exact .inr ⟨l, .head _, by simpa using h⟩
    | cons l' ls =>
      have hsplit : x ∈ l ++ (sep ++ sep.intercalate (l' :: ls)) := by simpa [List.intercalate] using h
      rcases List.mem_append.mp hsplit with hx | hx
      · exact .inr ⟨l, .head _, hx⟩
      · rcases List.mem_append.mp hx with hx | hx
        · exact .inl hx
        · exact (ih hx).imp_right fun ⟨l, hl, hx⟩ => ⟨l, .tail _ hl, hx⟩

/-! ## Operands of set operations -/

variable {test : Expr → Bool} {e l r : Expr}

theorem everyNode_setOp {kind : SetOpKind} (h : (Expr.setOp kind l r).everyNode test = true) :
    l.everyNode test = true ∧ r.everyNode test = true := by
  rw [Expr.everyNode, Bool.and_eq_true, Bool.and_eq_true] at h
  exact h.2

theorem everyNode_chainOperands {kind : SetOpKind} (h : e.everyNode test = true) :
    ∀ o ∈ chainOperands kind e, o.everyNode test = true := by
  induction e using chainOperands.induct kind with
  | case1 l r ihl ihr =>
    obtain ⟨hl, hr⟩ := everyNode_setOp h
    rw [chainOperands, if_pos rfl]
    exact fun o ho => (List.mem_append.mp ho).elim (ihl hl o) (ihr hr o)
  | case2 k l r hk =>
    rw [chainOperands, if_neg hk]
    exact fun o ho => List.mem_singleton.mp ho ▸ h
  | case3 e hne =>
    rw [chainOperands]
    · exact fun o ho => List.mem_singleton.mp ho ▸ h
    · exact hne

theorem everyNode_setOpOperands (kind : SetOpKind) (hl : l.everyNode test = true) (hr : r.everyNode test = true) :
    ∀ o ∈ setOpOperands kind l r, o.everyNode test = true := by
  have hchain (kind : SetOpKind) : ∀ o ∈ chainOperands kind l ++ chainOperands kind r, o.everyNode test = true :=
    fun o ho => (List.mem_append.mp ho).elim (everyNode_chainOperands hl o) (everyNode_chainOperands hr o)
  cases kind with
  | except => exact List.forall_mem_cons.mpr ⟨hl, List.forall_mem_singleton.mpr hr⟩
  | _ => exact hchain _

end TreeSql.Compile
