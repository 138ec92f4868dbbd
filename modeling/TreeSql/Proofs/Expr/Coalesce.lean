import TreeSql.Proofs.Expr.Reads

/-
  TreeSql.Proofs.Expr.Coalesce — reducing `CASE` expressions keeps what they compute.

  An `Interpretation` gives every expression a nullable value, freely except that `CASE`, `IS NULL`
  and `coalesce` have their own meaning and that equivalent expressions have one value. `reduce`
  keeps the value of an expression in every interpretation, and it keeps the type, facets aside,
  where the values of each `CASE` it goes through have one type (`reduce_meaning`). Both follow the
  recursion of `collapse`, which takes the branches from the last one on: the branch it takes off
  and the `ELSE` value are together worth the call of `coalesce` that replaces them.
-/
universe u

namespace TreeSql.Expr

/-! ## Interpretations -/

/-- Whether an expression is a `CASE`, an `IS NULL` or a call of `coalesce`. -/
def choosesByNull : Expr → Bool
  | caseOf .. | isNull _ => true
  | call f _ _ => isCoalesce f
  | _ => false

/-- Values for the expressions that do not choose by null, with `none` for null. -/
structure Interpretation (V : Type u) where
  node : Expr → Option V
  ofBool : Bool → V
  /-- Whether a value counts as true in a condition. -/
  holds : V → Bool
  holds_ofBool : ∀ b, holds (ofBool b) = b
  node_equivalent : ∀ a b, choosesByNull a = false → choosesByNull b = false →
    equivalent a b = true → node a = node b

namespace Interpretation

variable {V : Type u} (I : Interpretation V)

/-- The value of the first branch whose condition is true, of `o` if there is none. -/
def firstTrue : (conditions values : List (Option V)) → (o : Option V) → Option V
  | w :: ws, t :: ts, o => if w.any I.holds then t else firstTrue ws ts o
  | _, _, o => o

mutual

/-- The value of an expression. -/
def eval : Expr → Option V
  | caseOf ws ts o => I.firstTrue (evalAll ws) (evalAll ts) (eval o)
  | isNull e => some (I.ofBool (eval e).isNone)
  | call f args t =>
    if isCoalesce f then (evalAll args).findSome? id else I.node (call f args t)
  | e => I.node e
termination_by structural e => e

def evalAll : List Expr → List (Option V)
  | [] => []
  | e :: es => eval e :: evalAll es
termination_by structural es => es

end

theorem evalAll_eq_map (es : List Expr) : I.evalAll es = es.map I.eval := by
  induction es with
  | nil => rfl
  | cons e es ih => simp [evalAll, ih]

theorem eval_caseOf (ws ts : List Expr) (o : Expr) :
    I.eval (caseOf ws ts o) = I.firstTrue (ws.map I.eval) (ts.map I.eval) (I.eval o) := by
  rw [eval, evalAll_eq_map, evalAll_eq_map]

theorem eval_isNull (e : Expr) : I.eval (isNull e) = some (I.ofBool (I.eval e).isNone) := by
  rw [eval]

theorem eval_call {f : FunctionRef} (h : isCoalesce f = true) (args : List Expr) (t : DataType) :
    I.eval (call f args t) = (I.evalAll args).findSome? id := by
  rw [eval, if_pos h]

theorem eval_of_choosesByNull {e : Expr} (h : choosesByNull e = false) : I.eval e = I.node e := by
  cases e with
  | call f args t => rw [eval, if_neg (by simpa [choosesByNull] using h)]
  | caseOf ws ts o => cases h
  | isNull e => cases h
  | _ => rfl

/-- Branches are tried from the first one on, so the later ones can be put into the `ELSE` value. -/
theorem firstTrue_append {ws ts : List (Option V)} (h : ws.length = ts.length)
    (ws' ts' : List (Option V)) (o : Option V) :
    I.firstTrue (ws ++ ws') (ts ++ ts') o = I.firstTrue ws ts (I.firstTrue ws' ts' o) := by
  induction ws generalizing ts with
  | nil =>
    obtain rfl : ts = [] := List.length_eq_zero_iff.mp h.symm
    simp [firstTrue]
  | cons w ws ih =>
    obtain ⟨t, ts, rfl⟩ := List.exists_cons_of_length_eq_add_one h.symm
    simp only [List.cons_append, firstTrue]
    rw [ih (by simpa using h)]

end Interpretation

/-! ## Equivalent expressions -/

/-- Equivalent expressions are of one kind: two null tests, two calls of `coalesce`, or neither
    chooses by null. -/
inductive EquivalentByKind : Expr → Expr → Prop where
  | isNull {x y : Expr} (h : equivalent x y = true) : EquivalentByKind (isNull x) (isNull y)
  | coalesce {f g : FunctionRef} {as bs : List Expr} {t u : DataType} (hf : isCoalesce f = true)
      (hg : isCoalesce g = true) (h : allEquivalent as bs = true) :
      EquivalentByKind (call f as t) (call g bs u)
  | other {a b : Expr} (ha : choosesByNull a = false) (hb : choosesByNull b = false) :
      EquivalentByKind a b

theorem equivalentByKind {a b : Expr} (h : equivalent a b = true) : EquivalentByKind a b := by
  by_cases hkind : a.kind = .call ∨ a.kind = .isNull
  · cases a <;> try simp [kind] at hkind
    all_goals cases b <;> try exact absurd h Bool.false_ne_true
    case call.call f as t g bs u =>
      simp only [equivalent, Bool.and_eq_true, beq_iff_eq] at h
      obtain ⟨⟨⟨-, hspace⟩, hname⟩, hargs⟩ := h
      have hfg : isCoalesce f = isCoalesce g := by
        simp only [isCoalesce, FunctionRef.isStore, hspace, hname]
      by_cases hf : isCoalesce f = true
      · exact .coalesce hf (hfg ▸ hf) hargs
      · have hf := Bool.eq_false_iff.mpr hf
        exact .other hf (hfg.symm.trans hf)
    case isNull.isNull x y => exact .isNull (by rwa [equivalent] at h)
  · refine .other ?_ ?_
    · cases a <;> first | rfl | exact absurd h Bool.false_ne_true | simp [kind] at hkind
    · cases a <;> cases b <;> first
        | rfl
        | exact absurd h Bool.false_ne_true
        | simp [kind] at hkind

theorem sameType_of_equivalent {a b : Expr} (h : equivalent a b = true) :
    a.resultType.SameType b.resultType := by
  cases a <;> cases b <;> first
    | exact absurd h Bool.false_ne_true
    | rfl
    | (simp only [equivalent, sameShape, Bool.and_eq_true, decide_eq_true_eq] at h
       simp only [h])

namespace Interpretation

variable {V : Type u} (I : Interpretation V)

mutual

theorem eval_of_equivalent {a b : Expr} (h : equivalent a b = true) : I.eval a = I.eval b := by
  match equivalentByKind h with
  | .isNull h => rw [eval_isNull, eval_isNull, eval_of_equivalent h]
  | .coalesce hf hg h => rw [eval_call I hf, eval_call I hg, evalAll_of_equivalent h]
  | .other ha hb =>
    rw [I.eval_of_choosesByNull ha, I.eval_of_choosesByNull hb]
    exact I.node_equivalent a b ha hb h
termination_by 2 * a.size
decreasing_by all_goals simp only [size]; omega

theorem evalAll_of_equivalent {as bs : List Expr} (h : allEquivalent as bs = true) :
    I.evalAll as = I.evalAll bs := by
  match as, bs, h with
  | [], [], _ => rfl
  | a :: as, b :: bs, h =>
    simp only [allEquivalent, Bool.and_eq_true] at h
    rw [evalAll, evalAll, eval_of_equivalent h.1, evalAll_of_equivalent h.2]
termination_by 2 * sizeOfAll as + 1
decreasing_by
  all_goals
    have := size_pos a
    simp only [sizeOfAll]
    omega

end

/-! ## Reduced expressions keep their value -/

theorem firstNonNull_coalesceArgs (e : Expr) :
    (I.evalAll (coalesceArgs e)).findSome? id = I.eval e := by
  cases e with
  | call f args t =>
    by_cases hf : isCoalesce f = true
    · rw [coalesceArgs, if_pos hf, eval_call I hf]
    · rw [coalesceArgs, if_neg hf]
      simp [evalAll]
  | _ => simp [coalesceArgs, evalAll]

theorem eval_coalesce (arg fallback : Expr) :
    I.eval (coalesce arg fallback) = (I.eval arg).or (I.eval fallback) := by
  have happend : I.evalAll (coalesceArgs arg ++ coalesceArgs fallback) =
      I.evalAll (coalesceArgs arg) ++ I.evalAll (coalesceArgs fallback) := by
    simp only [evalAll_eq_map, List.map_append]
  rw [coalesce, eval_call I (by decide), happend, List.findSome?_append,
    firstNonNull_coalesceArgs, firstNonNull_coalesceArgs]

/-- A last branch that only replaces a null is worth the call of `coalesce`. -/
theorem firstTrue_isNull {arg o : Expr} (h : equivalent arg o = true) (t : Expr) :
    I.firstTrue [I.eval (isNull arg)] [I.eval t] (I.eval o) = I.eval (coalesce arg t) := by
  rw [eval_coalesce, eval_isNull, ← I.eval_of_equivalent h, firstTrue]
  cases I.eval arg with
  | none => simp [I.holds_ofBool]
  | some v => simp [I.holds_ofBool, firstTrue]

theorem eval_collapse (ws ts : List Expr) (o : Expr) :
    I.eval (collapse ws ts o) =
      I.firstTrue (ws.reverse.map I.eval) (ts.reverse.map I.eval) (I.eval o) := by
  fun_induction collapse ws ts o with
  | case1 arg ws t ts o h hnil =>
    obtain rfl : ws = [] := List.isEmpty_iff.mp hnil
    obtain rfl : ts = [] := List.length_eq_zero_iff.mp h.1.symm
    exact (I.firstTrue_isNull h.2 t).symm
  | case2 arg ws t ts o h hnil ih =>
    simp only [List.reverse_cons, List.map_append, List.map_cons, List.map_nil]
    rw [ih, firstTrue_append I (by simpa using h.1), firstTrue_isNull I h.2]
  | case3 arg ws t ts o h => rw [eval_caseOf]
  | case4 ws ts o h => rw [eval_caseOf]

mutual

theorem eval_reduce : ∀ e : Expr, I.eval (reduce e) = I.eval e
  | caseOf ws ts o => by
    rw [reduce, eval_collapse, eval_caseOf, List.reverse_reverse, List.reverse_reverse,
      map_eval_reduceAll ws, map_eval_reduceAll ts, eval_reduce o]
  | isNull e => by rw [reduce, eval_isNull, eval_isNull, eval_reduce e]
  | scan _ | filter .. | project .. | sort .. | skip .. | limit .. | distinct _ | groupBy ..
  | join .. | setOp .. | newInstance .. | element _ | call .. | comparison .. | arithmetic ..
  | and .. | or .. | not _ | isEmpty _ | like .. | isIn .. | cast .. | constant _ | null _
  | paramRef .. | varRef .. | property .. => rfl

theorem map_eval_reduceAll : ∀ es : List Expr, (reduceAll es).map I.eval = es.map I.eval
  | [] => rfl
  | e :: es => by
    rw [reduceAll, List.map_cons, List.map_cons, eval_reduce e, map_eval_reduceAll es]

end

end Interpretation

/-! ## Reduced expressions keep their type -/

mutual

/-- Whether in every `CASE` that reducing goes through the `THEN` values have the type of the `ELSE`
    value, facets aside. -/
def UniformCases : Expr → Prop
  | caseOf ws ts o =>
    (∀ t ∈ ts, t.resultType.SameType o.resultType) ∧ UniformCasesAll ws ∧ UniformCasesAll ts ∧
      UniformCases o
  | isNull e => UniformCases e
  | _ => True
termination_by structural e => e

def UniformCasesAll : List Expr → Prop
  | [] => True
  | e :: es => UniformCases e ∧ UniformCasesAll es
termination_by structural es => es

end

theorem sameType_caseOf {T : DataType} {ws ts : List Expr} {o : Expr}
    (ht : ∀ t ∈ ts, t.resultType.SameType T) (ho : o.resultType.SameType T) :
    (caseOf ws ts o).resultType.SameType T := by
  cases ts with
  | nil => exact ho
  | cons t ts => exact ht t (.head _)

theorem sameType_collapse {T : DataType} {ws ts : List Expr} {o : Expr}
    (ht : ∀ t ∈ ts, t.resultType.SameType T) (ho : o.resultType.SameType T) :
    (collapse ws ts o).resultType.SameType T := by
  have hcoalesce {arg o : Expr} (h : equivalent arg o = true) (ho : o.resultType.SameType T)
      (t : Expr) : (coalesce arg t).resultType.SameType T :=
    (sameType_of_equivalent h).trans ho
  fun_induction collapse ws ts o with
  | case1 arg ws t ts o h hnil => exact hcoalesce h.2 ho t
  | case2 arg ws t ts o h hnil ih =>
    exact ih (fun t ht' => ht t (.tail _ ht')) (hcoalesce h.2 ho t)
  | case3 arg ws t ts o h =>
    exact sameType_caseOf (fun t ht' => ht t (List.mem_reverse.mp ht')) ho
  | case4 ws ts o h =>
    exact sameType_caseOf (fun t ht' => ht t (List.mem_reverse.mp ht')) ho

mutual

theorem sameType_reduce : ∀ {e : Expr}, UniformCases e →
    (reduce e).resultType.SameType e.resultType
  | caseOf ws ts o, h => by
    obtain ⟨hT, -, hts, ho⟩ := h
    have ho := sameType_reduce ho
    have hcase : (caseOf ws ts o).resultType.SameType o.resultType := sameType_caseOf hT .rfl
    refine DataType.SameType.trans (sameType_collapse (fun t ht => ?_) ho) hcase.symm
    exact sameType_reduceAll hts hT t (List.mem_reverse.mp ht)
  | isNull e, h => .rfl
  | scan _, _ | filter .., _ | project .., _ | sort .., _ | skip .., _ | limit .., _
  | distinct _, _ | groupBy .., _ | join .., _ | setOp .., _ | newInstance .., _ | element _, _
  | call .., _ | comparison .., _ | arithmetic .., _ | and .., _ | or .., _ | not _, _
  | isEmpty _, _ | like .., _ | isIn .., _ | cast .., _ | constant _, _ | null _, _
  | paramRef .., _ | varRef .., _ | property .., _ => .rfl

theorem sameType_reduceAll {T : DataType} : ∀ {es : List Expr}, UniformCasesAll es →
    (∀ e ∈ es, e.resultType.SameType T) → ∀ e ∈ reduceAll es, e.resultType.SameType T
  | [], _, _ => by simp [reduceAll]
  | e :: es, h, hT => by
    rw [reduceAll, List.forall_mem_cons]
    exact ⟨(sameType_reduce h.1).trans (hT e (.head _)),
      sameType_reduceAll h.2 fun e he => hT e (.tail _ he)⟩

end

/-- Reducing keeps the value of an expression in every interpretation, and its type where the values
    of each `CASE` have one type. -/
theorem reduce_meaning (e : Expr) :
    (∀ {V : Type u} (I : Interpretation V), I.eval (reduce e) = I.eval e) ∧
      (UniformCases e → (reduce e).resultType.SameType e.resultType) :=
  ⟨fun I => I.eval_reduce e, sameType_reduce⟩

/-! ## A chain of null tests -/

private def parameter (name : String) : Expr := paramRef name (.ofKind .int32)

/-- `x`, in place of a null `y`, in place of another one `z`. -/
def firstOfThree : Expr :=
  caseOf [isNull (parameter "x")]
    [caseOf [isNull (parameter "y")] [parameter "z"] (parameter "y")] (parameter "x")

example : reduce firstOfThree =
    call (.store coalesceName) [parameter "x", parameter "y", parameter "z"] (.ofKind .int32) :=
  rfl

/-- Every parameter has its name as its value, but for `x`, which is null. -/
def nullX : Interpretation String where
  node
    | paramRef name _ => if name = "x" then none else some name
    | _ => none
  ofBool b := toString b
  holds s := s == "true"
  holds_ofBool := by decide
  node_equivalent a b _ _ h := by
    cases a <;> cases b <;> first
      | rfl
      | exact absurd h Bool.false_ne_true
      | (simp only [equivalent, Bool.and_eq_true, beq_iff_eq] at h
         simp only [h])

theorem reduce_firstOfThree :
    UniformCases firstOfThree ∧ (reduce firstOfThree).resultType.SameType (.ofKind .int32) ∧
      nullX.eval (reduce firstOfThree) = some "y" := by
  have huniform : UniformCases firstOfThree := by
    simp [firstOfThree, UniformCases, UniformCasesAll, parameter, resultType, DataType.SameType.rfl]
  obtain ⟨heval, htype⟩ := reduce_meaning firstOfThree
  refine ⟨huniform, htype huniform, ?_⟩
  rw [heval nullX]
  decide +kernel

end TreeSql.Expr
