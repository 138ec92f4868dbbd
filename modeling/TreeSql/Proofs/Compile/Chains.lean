import TreeSql.Compile.Relation

/-
  TreeSql.Proofs.Compile.Chains — the operands of chains of set operations.

  What holds of a tree of set operations and goes over to the sides of each holds of the operands that are
  combined at once (`chainOperands_induct`, `setOpOperands_induct`).
-/
namespace TreeSql.Compile

variable {P : Expr → Prop} {kind : SetOpKind} {e l r : Expr}

theorem chainOperands_ne_nil (kind : SetOpKind) (e : Expr) : chainOperands kind e ≠ [] := by
  fun_induction chainOperands kind e with
  | case1 l r ihl _ => exact List.append_ne_nil_of_left_ne_nil ihl _
  | case2 k l r hk => exact List.cons_ne_nil _ _
  | case3 e hne => exact List.cons_ne_nil _ _

theorem chainOperands_induct (hsides : ∀ l r, P (.setOp kind l r) → P l ∧ P r) (he : P e) :
    ∀ o ∈ chainOperands kind e, P o := by
  fun_induction chainOperands kind e with
  | case1 l r ihl ihr =>
    obtain ⟨hl, hr⟩ := hsides l r he
    exact fun o ho => (List.mem_append.mp ho).elim (ihl hl o) (ihr hr o)
  | case2 | case3 => exact fun o ho => List.mem_singleton.mp ho ▸ he

/-- The operands of a chain, apart from those of a difference, are those of its sides. -/
theorem setOpOperands_eq (hkind : kind ≠ .except) (l r : Expr) :
    setOpOperands kind l r = chainOperands kind l ++ chainOperands kind r := by
  cases kind with
  | except => exact absurd rfl hkind
  | _ => rfl

theorem setOpOperands_induct (hsides : ∀ l r, P (.setOp kind l r) → P l ∧ P r) (hl : P l) (hr : P r) :
    ∀ o ∈ setOpOperands kind l r, P o := by
  by_cases hkind : kind = .except
  · subst hkind
    intro o ho
    rcases List.mem_cons.mp ho with rfl | ho
    · exact hl
    · exact List.mem_singleton.mp ho ▸ hr
  · rw [setOpOperands_eq hkind]
    exact fun o ho => (List.mem_append.mp ho).elim (chainOperands_induct hsides hl o) (chainOperands_induct hsides hr o)

end TreeSql.Compile
