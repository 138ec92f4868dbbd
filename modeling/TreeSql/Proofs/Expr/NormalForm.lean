import TreeSql.Proofs.Expr.Reads

/-
  TreeSql.Proofs.Expr.NormalForm — reducing once is enough.

  A `CASE` is collapsible if its last branch only replaces a null. `reduce` looks at the expressions that
  are `Reached` from the top through branches of `CASE` and operands of `IS NULL`; an expression is normal if
  no collapsible one is among them.

  Collapsing a branch makes a new `ELSE` value, which may make the branch before it collapsible. So `collapse`
  goes on as far as it can: what it gives is normal if the parts are (`isNormal_collapse`), and it leaves alone
  what is not collapsible (`collapse_of_not_collapsible`). By induction over the expression, a reduced
  expression is normal (`isNormal_reduce`) and a normal one is reduced already (`reduce_of_isNormal`). Together
  they give `reduce_settles`.
-/
namespace TreeSql.Expr

/-! ## Normal expressions -/

/-- The second expression stands in the first one, below branches of `CASE` and operands of `IS NULL` only. -/
inductive Reached : Expr → Expr → Prop
  | self (e : Expr) : Reached e e
  | condition {ws ts : List Expr} {o w x : Expr} (hw : w ∈ ws) (h : Reached w x) : Reached (caseOf ws ts o) x
  | value {ws ts : List Expr} {o t x : Expr} (ht : t ∈ ts) (h : Reached t x) : Reached (caseOf ws ts o) x
  | otherwise {ws ts : List Expr} {o x : Expr} (h : Reached o x) : Reached (caseOf ws ts o) x
  | operand {e x : Expr} (h : Reached e x) : Reached (isNull e) x

/-- A `CASE` with a value for each condition, whose last one tests for null what is equivalent to the `ELSE`
    value. -/
def Collapsible (e : Expr) : Prop :=
  ∃ (ws ts : List Expr) (arg o : Expr), e = caseOf (ws ++ [isNull arg]) ts o ∧ ws.length + 1 = ts.length ∧
    equivalent arg o = true

/-- No collapsible `CASE` is reached. -/
def IsNormal (e : Expr) : Prop := ∀ x, Reached e x → ¬Collapsible x

variable {ws ts : List Expr} {o e : Expr}

theorem isNormal_caseOf (h : ¬Collapsible (caseOf ws ts o)) (hw : ∀ w ∈ ws, IsNormal w) (ht : ∀ t ∈ ts, IsNormal t)
    (ho : IsNormal o) : IsNormal (caseOf ws ts o) := by
  intro x hx
  cases hx with
  | self => exact h
  | condition hmem hx => exact hw _ hmem x hx
  | value hmem hx => exact ht _ hmem x hx
  | otherwise hx => exact ho x hx

theorem isNormal_isNull (h : IsNormal e) : IsNormal (isNull e) := by
  intro x hx
  cases hx with
  | self => exact fun ⟨_, _, _, _, he, _⟩ => nomatch he
  | operand hx => exact h x hx

/-- Nothing else is reached from an expression that is neither a `CASE` nor an `IS NULL`. -/
theorem isNormal_of_kind (hcase : e.kind ≠ .caseOf) (hnull : e.kind ≠ .isNull) : IsNormal e := by
  intro x hx
  cases hx with
  | self =>
    rintro ⟨ws, ts, arg, o, rfl, -⟩
    exact hcase rfl
  | condition | value | otherwise => exact absurd rfl hcase
  | operand => exact absurd rfl hnull

theorem isNormal_coalesce (a b : Expr) : IsNormal (coalesce a b) :=
  isNormal_of_kind (by simp [coalesce, kind]) (by simp [coalesce, kind])

/-! ## Collapsing -/

/-- The `CASE` whose branches are given last first is collapsible if the first of them can be taken off. -/
theorem collapsible_reverse_iff : Collapsible (caseOf ws.reverse ts.reverse o) ↔
    ∃ arg ws' t ts', ws = isNull arg :: ws' ∧ ts = t :: ts' ∧ ws'.length = ts'.length ∧ equivalent arg o = true := by
  constructor
  · rintro ⟨ws', ts', arg, o', he, hlength, heq⟩
    obtain ⟨hws, rfl, rfl⟩ : ws.reverse = ws' ++ [isNull arg] ∧ ts.reverse = ts' ∧ o = o' := by simpa using he
    have hws : ws = isNull arg :: ws'.reverse := by rw [← List.reverse_reverse ws, hws, List.reverse_concat]
    obtain ⟨t, ts, rfl⟩ : ∃ t ts', ts = t :: ts' :=
      List.exists_cons_of_length_eq_add_one (by simpa using hlength.symm)
    exact ⟨arg, _, t, ts, hws, rfl, by simpa using hlength, heq⟩
  · rintro ⟨arg, ws', t, ts', rfl, rfl, hlength, heq⟩
    exact ⟨ws'.reverse, _, arg, o, by rw [List.reverse_cons], by simp [hlength], heq⟩

theorem collapse_of_not_collapsible (h : ¬Collapsible (caseOf ws ts o)) :
    collapse ws.reverse ts.reverse o = caseOf ws ts o := by
  have h' : ¬Collapsible (caseOf ws.reverse.reverse ts.reverse.reverse o) := by simpa using h
  rw [collapsible_reverse_iff] at h'
  unfold collapse
  split
  · rename_i arg ws' t ts' hws hts
    rw [if_neg fun hc => h' ⟨arg, ws', t, ts', hws, hts, hc.1, hc.2⟩, ← hws, ← hts, List.reverse_reverse,
      List.reverse_reverse]
  · rw [List.reverse_reverse, List.reverse_reverse]

/-- Collapsing takes branches off until none is left that can be. -/
theorem isNormal_collapse (hw : ∀ w ∈ ws, IsNormal w) (ht : ∀ t ∈ ts, IsNormal t) (ho : IsNormal o) :
    IsNormal (collapse ws ts o) := by
  have hcase {ws ts : List Expr} {o : Expr} (h : ¬Collapsible (caseOf ws.reverse ts.reverse o))
      (hw : ∀ w ∈ ws, IsNormal w) (ht : ∀ t ∈ ts, IsNormal t) (ho : IsNormal o) :
      IsNormal (caseOf ws.reverse ts.reverse o) :=
    isNormal_caseOf h (fun w hmem => hw w (List.mem_reverse.mp hmem)) (fun t hmem => ht t (List.mem_reverse.mp hmem)) ho
  fun_induction collapse ws ts o with
  | case1 arg ws t ts o h hnil => exact isNormal_coalesce arg t
  | case2 arg ws t ts o h hnil ih =>
    exact ih (fun w hmem => hw w (.tail _ hmem)) (fun t hmem => ht t (.tail _ hmem)) (isNormal_coalesce arg t)
  | case3 arg ws t ts o h =>
    refine hcase (fun hc => h ?_) hw ht ho
    obtain ⟨_, _, _, _, hws, hts, hlength, heq⟩ := collapsible_reverse_iff.mp hc
    cases hws
    cases hts
    exact ⟨hlength, heq⟩
  | case4 ws ts o h =>
    refine hcase (fun hc => ?_) hw ht ho
    obtain ⟨arg, ws', t, ts', hws, hts, -⟩ := collapsible_reverse_iff.mp hc
    exact h arg ws' t ts' hws hts

/-! ## Reducing -/

mutual

theorem isNormal_reduce : ∀ e : Expr, IsNormal (reduce e)
  | caseOf ws ts o =>
    isNormal_collapse (fun w hw => isNormal_reduceAll ws w (List.mem_reverse.mp hw))
      (fun t ht => isNormal_reduceAll ts t (List.mem_reverse.mp ht)) (isNormal_reduce o)
  | isNull e => isNormal_isNull (isNormal_reduce e)
  | scan _ | filter .. | project .. | sort .. | skip .. | limit .. | distinct _ | groupBy ..
  | join .. | setOp .. | newInstance .. | element _ | call .. | comparison .. | arithmetic ..
  | and .. | or .. | not _ | isEmpty _ | like .. | isIn .. | cast .. | constant _ | null _
  | paramRef .. | varRef .. | property .. => isNormal_of_kind nofun nofun

theorem isNormal_reduceAll : ∀ es : List Expr, ∀ e ∈ reduceAll es, IsNormal e
  | [] => by simp [reduceAll]
  | e :: es => by
    rw [reduceAll, List.forall_mem_cons]
    exact ⟨isNormal_reduce e, isNormal_reduceAll es⟩

end

mutual

theorem reduce_of_isNormal : ∀ {e : Expr}, IsNormal e → reduce e = e
  | caseOf ws ts o, h => by
    rw [reduce, reduceAll_of_isNormal fun w hw x hx => h x (.condition hw hx),
      reduceAll_of_isNormal fun t ht x hx => h x (.value ht hx), reduce_of_isNormal fun x hx => h x (.otherwise hx)]
    exact collapse_of_not_collapsible (h _ (.self _))
  | isNull e, h => by rw [reduce, reduce_of_isNormal fun x hx => h x (.operand hx)]
  | scan _, _ | filter .., _ | project .., _ | sort .., _ | skip .., _ | limit .., _
  | distinct _, _ | groupBy .., _ | join .., _ | setOp .., _ | newInstance .., _ | element _, _
  | call .., _ | comparison .., _ | arithmetic .., _ | and .., _ | or .., _ | not _, _
  | isEmpty _, _ | like .., _ | isIn .., _ | cast .., _ | constant _, _ | null _, _
  | paramRef .., _ | varRef .., _ | property .., _ => rfl

theorem reduceAll_of_isNormal : ∀ {es : List Expr}, (∀ e ∈ es, IsNormal e) → reduceAll es = es
  | [], _ => rfl
  | e :: es, h => by
    rw [List.forall_mem_cons] at h
    rw [reduceAll, reduce_of_isNormal h.1, reduceAll_of_isNormal h.2]

end

/-- One pass reaches a normal form: reducing again changes nothing, and no collapsible `CASE` is reached. -/
theorem reduce_settles (e : Expr) :
    reduce (reduce e) = reduce e ∧ ∀ x, Reached (reduce e) x → ¬Collapsible x :=
  ⟨reduce_of_isNormal (isNormal_reduce e), isNormal_reduce e⟩

/-- Two tests for null in a row. The first one tests what the second one is collapsed into. -/
def nullsInTurn : Expr :=
  let parameter (name : String) : Expr := paramRef name (.ofKind .int32)
  caseOf [isNull (coalesce (parameter "x") (parameter "y")), isNull (parameter "x")] [parameter "z", parameter "y"]
    (parameter "x")

example : reduce nullsInTurn = call (.store coalesceName)
    [paramRef "x" (.ofKind .int32), paramRef "y" (.ofKind .int32), paramRef "z" (.ofKind .int32)] (.ofKind .int32) :=
  rfl

end TreeSql.Expr
