import TreeSql.Expr.Coalesce

/-
  TreeSql.Proofs.Expr.Reads — scalar expressions and the variables they read.

  `readsOnly vars` holds of expressions without relations in which every property is taken of one of
  the variables. Reducing keeps this (`readsOnly_reduce`) and makes no expression larger
  (`size_reduce`).
-/
namespace TreeSql

namespace Expr

mutual

/-- Whether the expression is scalar throughout and takes properties of the given variables only. -/
def readsOnly (vars : List String) : Expr → Bool
  | constant _ | null _ | paramRef .. => true
  | property (varRef x _) _ _ => vars.contains x
  | comparison _ l r | and l r | or l r | like l r => readsOnly vars l && readsOnly vars r
  | not e | isNull e | cast e _ => readsOnly vars e
  | arithmetic _ es | call _ es _ => readsOnlyAll vars es
  | isIn e es => readsOnly vars e && readsOnlyAll vars es
  | caseOf ws ts o => readsOnlyAll vars ws && readsOnlyAll vars ts && readsOnly vars o
  | _ => false
termination_by structural e => e

def readsOnlyAll (vars : List String) : List Expr → Bool
  | [] => true
  | e :: es => readsOnly vars e && readsOnlyAll vars es
termination_by structural es => es

end

variable {vars : List String}

theorem readsOnlyAll_iff {es : List Expr} :
    readsOnlyAll vars es = true ↔ ∀ e ∈ es, e.readsOnly vars = true := by
  induction es with
  | nil => simp [readsOnlyAll]
  | cons e es ih => simp [readsOnlyAll, ih]

theorem size_le_sizeOfAll {es : List Expr} {e : Expr} (h : e ∈ es) : e.size ≤ sizeOfAll es := by
  induction es with
  | nil => cases h
  | cons e' es ih =>
    rw [sizeOfAll]
    rcases List.mem_cons.mp h with rfl | h
    · omega
    · have := ih h
      omega

theorem sizeOfAll_append (es es' : List Expr) :
    sizeOfAll (es ++ es') = sizeOfAll es + sizeOfAll es' := by
  induction es with
  | nil => simp [sizeOfAll]
  | cons e es ih =>
    rw [List.cons_append, sizeOfAll, sizeOfAll, ih]
    omega

theorem sizeOfAll_reverse (es : List Expr) : sizeOfAll es.reverse = sizeOfAll es := by
  induction es with
  | nil => rfl
  | cons e es ih =>
    rw [List.reverse_cons, sizeOfAll_append, ih]
    simp only [sizeOfAll]
    omega

theorem size_pos (e : Expr) : 0 < e.size := by
  cases e <;> simp [size]

/-! ## Reduced CASE expressions -/

theorem sizeOfAll_coalesceArgs (e : Expr) : sizeOfAll (coalesceArgs e) ≤ e.size := by
  cases e with
  | call f args t =>
    by_cases hf : isCoalesce f = true
    · simp [coalesceArgs, hf, size]
    · simp [coalesceArgs, hf, sizeOfAll]
  | _ => simp [coalesceArgs, sizeOfAll]

theorem size_coalesce (a b : Expr) : (coalesce a b).size ≤ a.size + b.size + 1 := by
  have ha := sizeOfAll_coalesceArgs a
  have hb := sizeOfAll_coalesceArgs b
  rw [coalesce, size, sizeOfAll_append]
  omega

theorem readsOnly_coalesceArgs {e : Expr} (h : e.readsOnly vars = true) :
    readsOnlyAll vars (coalesceArgs e) = true := by
  cases e with
  | call f args t =>
    by_cases hf : isCoalesce f = true
    · simpa [coalesceArgs, hf, readsOnly] using h
    · simpa [coalesceArgs, hf, readsOnlyAll] using h
  | _ => simpa [coalesceArgs, readsOnlyAll] using h

theorem readsOnly_coalesce {a b : Expr} (ha : a.readsOnly vars = true)
    (hb : b.readsOnly vars = true) : (coalesce a b).readsOnly vars = true := by
  have ha' := readsOnlyAll_iff.mp (readsOnly_coalesceArgs ha)
  have hb' := readsOnlyAll_iff.mp (readsOnly_coalesceArgs hb)
  rw [coalesce, readsOnly, readsOnlyAll_iff]
  intro e he
  rcases List.mem_append.mp he with he | he
  · exact ha' e he
  · exact hb' e he

/-- The size of a CASE with the given parts. -/
def sizeOfCase (ws ts : List Expr) (o : Expr) : Nat := sizeOfAll ws + sizeOfAll ts + o.size + 1

/-- A collapsed CASE is a CASE no larger than before, or smaller. -/
theorem size_collapse (ws ts : List Expr) (o : Expr) :
    (collapse ws ts o).size ≤ sizeOfCase ws ts o ∧
      ((∃ ws' ts' o', collapse ws ts o = caseOf ws' ts' o') ∨
        (collapse ws ts o).size < sizeOfCase ws ts o) := by
  fun_induction collapse ws ts o with
  | case1 arg ws t ts o h hnil =>
    have := size_coalesce arg t
    have := size_pos o
    simp only [sizeOfCase, sizeOfAll, size]
    omega
  | case2 arg ws t ts o h hnil ih =>
    have := size_coalesce arg t
    have := size_pos o
    simp only [sizeOfCase, sizeOfAll, size] at ih ⊢
    omega
  | case3 arg ws t ts o h =>
    simp only [size, sizeOfAll_reverse, sizeOfCase]
    exact ⟨Nat.le_refl _, .inl ⟨_, _, _, rfl⟩⟩
  | case4 ws ts o h =>
    simp only [size, sizeOfAll_reverse, sizeOfCase]
    exact ⟨Nat.le_refl _, .inl ⟨_, _, _, rfl⟩⟩

theorem readsOnly_collapse {ws ts : List Expr} {o : Expr} (hw : ∀ e ∈ ws, e.readsOnly vars = true)
    (ht : ∀ e ∈ ts, e.readsOnly vars = true) (ho : o.readsOnly vars = true) :
    (collapse ws ts o).readsOnly vars = true := by
  have hcase {ws ts : List Expr} {o : Expr} (hw : ∀ e ∈ ws, e.readsOnly vars = true)
      (ht : ∀ e ∈ ts, e.readsOnly vars = true) (ho : o.readsOnly vars = true) :
      (caseOf ws.reverse ts.reverse o).readsOnly vars = true := by
    have hw' := readsOnlyAll_iff.mpr fun e he => hw e (List.mem_reverse.mp he)
    have ht' := readsOnlyAll_iff.mpr fun e he => ht e (List.mem_reverse.mp he)
    rw [readsOnly, hw', ht', ho]
    rfl
  fun_induction collapse ws ts o with
  | case1 arg ws t ts o h hnil =>
    exact readsOnly_coalesce (by simpa [readsOnly] using hw (isNull arg) (.head _)) (ht t (.head _))
  | case2 arg ws t ts o h hnil ih =>
    refine ih (fun e he => hw e (.tail _ he)) (fun e he => ht e (.tail _ he)) ?_
    exact readsOnly_coalesce (by simpa [readsOnly] using hw (isNull arg) (.head _)) (ht t (.head _))
  | case3 arg ws t ts o h => exact hcase hw ht ho
  | case4 ws ts o h => exact hcase hw ht ho

mutual

theorem size_reduce : ∀ e : Expr, (reduce e).size ≤ e.size
  | caseOf ws ts o => by
    have hw := sizeOfAll_reduceAll ws
    have ht := sizeOfAll_reduceAll ts
    have ho := size_reduce o
    have hc := (size_collapse (reduceAll ws).reverse (reduceAll ts).reverse (reduce o)).1
    rw [sizeOfCase, sizeOfAll_reverse, sizeOfAll_reverse] at hc
    rw [reduce, size]
    omega
  | isNull e => by
    have := size_reduce e
    rw [reduce, size, size]
    omega
  | scan _ | filter .. | project .. | sort .. | skip .. | limit .. | distinct _ | groupBy ..
  | join .. | setOp .. | newInstance .. | element _ | call .. | comparison .. | arithmetic ..
  | and .. | or .. | not _ | isEmpty _ | like .. | isIn .. | cast .. | constant _ | null _
  | paramRef .. | varRef .. | property .. => Nat.le_refl _

theorem sizeOfAll_reduceAll : ∀ es : List Expr, sizeOfAll (reduceAll es) ≤ sizeOfAll es
  | [] => Nat.le_refl _
  | e :: es => by
    have := size_reduce e
    have := sizeOfAll_reduceAll es
    simp only [reduceAll, sizeOfAll]
    omega

end

mutual

theorem readsOnly_reduce : ∀ {e : Expr}, e.readsOnly vars = true → (reduce e).readsOnly vars = true
  | caseOf ws ts o, h => by
    simp only [readsOnly, Bool.and_eq_true] at h
    obtain ⟨⟨hw, ht⟩, ho⟩ := h
    refine readsOnly_collapse (fun e he => ?_) (fun e he => ?_) (readsOnly_reduce ho)
    · exact readsOnlyAll_iff.mp (readsOnlyAll_reduceAll hw) e (List.mem_reverse.mp he)
    · exact readsOnlyAll_iff.mp (readsOnlyAll_reduceAll ht) e (List.mem_reverse.mp he)
  | isNull e, h => readsOnly_reduce (e := e) h
  | scan _, h | filter .., h | project .., h | sort .., h | skip .., h | limit .., h
  | distinct _, h | groupBy .., h | join .., h | setOp .., h | newInstance .., h | element _, h
  | call .., h | comparison .., h | arithmetic .., h | and .., h | or .., h | not _, h
  | isEmpty _, h | like .., h | isIn .., h | cast .., h | constant _, h | null _, h
  | paramRef .., h | varRef .., h | property .., h => h

theorem readsOnlyAll_reduceAll :
    ∀ {es : List Expr}, readsOnlyAll vars es = true → readsOnlyAll vars (reduceAll es) = true
  | [], _ => rfl
  | e :: es, h => by
    simp only [readsOnlyAll, Bool.and_eq_true] at h
    rw [reduceAll, readsOnlyAll, readsOnly_reduce h.1, readsOnlyAll_reduceAll h.2]
    rfl

end

/-- What a CASE is reduced to is a CASE no larger, or a smaller expression. -/
theorem reduce_caseOf (ws ts : List Expr) (o : Expr) :
    (∃ ws' ts' o', reduce (caseOf ws ts o) = caseOf ws' ts' o') ∨
      (reduce (caseOf ws ts o)).size < (caseOf ws ts o).size := by
  have hw := sizeOfAll_reduceAll ws
  have ht := sizeOfAll_reduceAll ts
  have ho := size_reduce o
  rcases (size_collapse (reduceAll ws).reverse (reduceAll ts).reverse (reduce o)).2 with h | h
  · exact .inl h
  · rw [sizeOfCase, sizeOfAll_reverse, sizeOfAll_reverse] at h
    refine .inr ?_
    rw [reduce, size]
    omega

end Expr

end TreeSql
