import TreeSql.Proofs.Compile.Levels

/-
  TreeSql.Proofs.Compile.Negation — `negate` is the complement, and negating twice changes nothing.

  In any three-valued interpretation of the operators in which an operator and its opposite are complements,
  the truth value of `negate` is the negated one (`Interpretation.truth_negate`): the cases of `negate` are the
  laws that the interpretation has.

  On SQL expressions `negate` does not undo itself: `NOT (a = b)` becomes `a = b`, and that `a <> b`. But no
  expression is compiled to a `NOT` over an operator that has an opposite: a `NOT` comes from `negate` alone,
  which swaps such an operator. So what is compiled negates back (`negatesBack_value`), and a double negation
  is compiled to what its operand is compiled to (`negation_complements`).
-/
namespace TreeSql

namespace Sql

/-! ## Three-valued logic -/

/-- What operators do to values, with a truth value for each of them that is none for a null. Expressions of
    all other forms have any value. Operators that are opposites are complements, and a null has no complement
    but itself. -/
structure Interpretation (V : Type) where
  truth : V → Option Bool
  atom : SqlExpr → V
  binary : BinaryOp → V → V → V
  leading : LeadingOp → V → V
  trailing : TrailingOp → V → V
  truth_binary {op op' : BinaryOp} (h : op.negated? = some op') (x y : V) :
    truth (binary op' x y) = (truth (binary op x y)).map (!·)
  truth_not (x : V) : truth (leading .not x) = (truth x).map (!·)
  truth_trailing (op : TrailingOp) (x : V) : truth (trailing op.negated x) = (truth (trailing op x)).map (!·)

namespace Interpretation

variable {V : Type} (I : Interpretation V)

/-- The value of an expression. -/
def eval : SqlExpr → V
  | .binary op l r => I.binary op (eval l) (eval r)
  | .leading op e => I.leading op (eval e)
  | .trailing op e => I.trailing op (eval e)
  | e => I.atom e

/-- A test of two values that are not null. -/
def test (f : Bool → Bool → Bool) (x y : Option Bool) : Option Bool := x.bind fun a => y.map (f a)

/-- Truth values as values: `AND` and `OR` as the standard has them, comparisons of `FALSE` and `TRUE`, and no
    value for what is not a truth value. -/
def truthTables : Interpretation (Option Bool) where
  truth x := x
  atom
    | .verbatim text => if text = "TRUE" then some true else if text = "FALSE" then some false else none
    | _ => none
  binary
    | .and, x, y => if x = some false ∨ y = some false then some false else test (· && ·) x y
    | .or, x, y => if x = some true ∨ y = some true then some true else test (· || ·) x y
    | .equals, x, y | .isIn, x, y | .like, x, y => test (· == ·) x y
    | .notEquals, x, y | .notIn, x, y | .notLike, x, y => (test (· == ·) x y).map (!·)
    | .lessThan, x, y => test (fun a b => !a && b) x y
    | .greaterThanOrEquals, x, y => (test (fun a b => !a && b) x y).map (!·)
    | .greaterThan, x, y => test (fun a b => a && !b) x y
    | .lessThanOrEquals, x, y => (test (fun a b => a && !b) x y).map (!·)
    | _, _, _ => none
  leading
    | .not, x => x.map (!·)
    | _, _ => none
  trailing
    | .isNull, x => some x.isNone
    | .isNotNull, x => some x.isSome
  truth_binary {op op'} h x y := by
    have htwice (z : Option Bool) : z = (z.map (!·)).map (!·) := by cases z <;> simp
    cases op <;> cases h <;> first | rfl | exact htwice _
  truth_not _ := rfl
  truth_trailing op x := by cases op <;> cases x <;> rfl

/-- The truth value of the complement is the negated one. -/
theorem truth_negate (x : SqlExpr) : I.truth (I.eval x.negate) = (I.truth (I.eval x)).map (!·) := by
  have hwrapped (y : SqlExpr) : I.truth (I.eval (.leading .not y)) = (I.truth (I.eval y)).map (!·) :=
    I.truth_not (I.eval y)
  cases x with
  | binary op l r =>
    cases h : op.negated? with
    | none =>
      simp only [SqlExpr.negate, h]
      exact hwrapped _
    | some op' =>
      simp only [SqlExpr.negate, h]
      exact I.truth_binary h _ _
  | trailing op e => exact I.truth_trailing op _
  | leading op e =>
    cases op with
    | not =>
      -- The complement takes the `NOT` away: negating its truth value twice gives it back.
      rw [hwrapped, Option.map_map]
      show I.truth (I.eval e) = _
      cases I.truth (I.eval e) <;> simp
    | _ => exact hwrapped _
  | _ => exact hwrapped _

end Interpretation

/-! ## Expressions that negate back -/

namespace SqlExpr

/-- Negating twice gives the expression itself. -/
def NegatesBack (x : SqlExpr) : Prop := x.negate.negate = x

/-- Whether there is a `NOT` at the top. -/
def isNot : SqlExpr → Bool
  | leading .not _ => true
  | _ => false

theorem negatesBack_of_isNot {x : SqlExpr} (h : x.isNot = false) : x.NegatesBack := by
  cases x with
  | binary op l r =>
    cases hop : op.negated? with
    | none => simp [NegatesBack, negate, hop]
    | some op' => simp [NegatesBack, negate, hop, BinaryOp.negated?_negated hop]
  | trailing op e => simp [NegatesBack, negate, TrailingOp.negated_negated]
  | leading op e =>
    cases op with
    | not => cases h
    | _ => rfl
  | _ => rfl

theorem NegatesBack.negate {x : SqlExpr} (h : x.NegatesBack) : x.negate.NegatesBack := congrArg SqlExpr.negate h

/-- Not all expressions negate back. -/
theorem not_negatesBack_not (l r : SqlExpr) : ¬(leading .not (binary .equals l r)).NegatesBack := by
  intro h
  cases h

end SqlExpr

end Sql

namespace Compile

open Sql SqlExpr Postgres

/-! ## What a step can give -/

section

variable {α β : Type} {P : α → Prop}

/-- Whatever the step gives has the property. -/
def Returns (m : CompileM α) (P : α → Prop) : Prop := ∀ c s a t, Gives m c s a t → P a

theorem returns_pure {a : α} (h : P a) : Returns (pure a) P := fun _ _ _ _ hrun => (gives_pure.mp hrun).1 ▸ h

theorem returns_bind {m : CompileM β} {f : β → CompileM α} (h : ∀ b, Returns (f b) P) : Returns (m >>= f) P := by
  intro c s a t hrun
  obtain ⟨b, u, -, hrest⟩ := gives_bind.mp hrun
  exact h b c u a t hrest

theorem returns_fail (e : Error) : Returns (.fail e) P := fun _ _ _ _ hrun => (not_gives_fail hrun).elim

theorem Returns.mono {m : CompileM α} {Q : α → Prop} (h : Returns m P) (hPQ : ∀ a, P a → Q a) : Returns m Q :=
  fun c s a t hrun => hPQ a (h c s a t hrun)

end

variable {v : Expr → CompileM SqlExpr}

/-! ## Functions -/

theorem isNot_unary (f : UnaryFunction) (x : SqlExpr) : (f.sql x).isNot = false := by cases f <;> rfl

theorem isNot_binary (f : BinaryFunction) (x y : SqlExpr) : (f.sql x y).isNot = false := by
  cases f with
  | diff unit => cases unit <;> rfl
  | _ => rfl

theorem isNot_ternary (f : TernaryFunction) (x y z : SqlExpr) : (f.sql x y z).isNot = false := by cases f <;> rfl

/-- Not a `NOT`. -/
abbrev Affirms (m : CompileM SqlExpr) : Prop := Returns m fun x => x.isNot = false

theorem affirms_canonicalValue (name : String) (args : List Expr) (t : DataType) :
    Affirms (canonicalValue v name args t) := by
  unfold canonicalValue
  split
  · rename_i f _
    exact returns_pure (by cases f <;> rfl)
  · exact returns_bind fun _ => returns_pure (isNot_unary _ _)
  · exact returns_bind fun _ => returns_bind fun _ => returns_pure (isNot_binary _ _ _)
  · exact returns_bind fun _ => returns_bind fun _ => returns_bind fun _ => returns_pure (isNot_ternary _ _ _ _)
  · exact returns_bind fun _ => returns_pure rfl
  · exact returns_bind fun _ => returns_bind fun _ => returns_pure rfl
  all_goals exact returns_fail _

theorem affirms_call (name : String) (args : List Expr) : Affirms (do return .call name (← valuesOf v args)) :=
  returns_bind fun _ => returns_pure rfl

theorem affirms_rankValue (name : String) (args : List Expr) : Affirms (rankValue v name args) := by
  unfold rankValue
  split
  · exact affirms_call name args
  · exact affirms_call name args
  · exact returns_bind fun _ => returns_bind fun _ => returns_pure rfl
  · exact returns_bind fun _ => returns_bind fun _ => returns_pure rfl
  · exact returns_fail _

theorem affirms_matchValue (input pattern : Expr) (options : RegexOptions) :
    Affirms (matchValue v input pattern options) := by
  unfold matchValue
  split
  · exact returns_fail _
  · rename_i letters _
    refine returns_bind fun _ => returns_bind fun _ => ?_
    split <;> exact returns_pure rfl

/-- The only operator before its operand among the functions of PostgreSQL negates text queries. -/
theorem leading_ofName? {name : String} {op : LeadingOp} (h : StoreFunction.ofName? name = some (.leading op)) :
    op = .queryNegate := by
  obtain ⟨before, after, hsplit, -⟩ := List.lookup_eq_some_iff.mp h
  have hmem : (name, StoreFunction.leading op) ∈ storeFunctions := hsplit ▸ List.mem_append_right before (.head after)
  simp [storeFunctions] at hmem
  exact hmem.2

theorem affirms_storeValue {g : StoreFunction} (hg : g ≠ .leading .not) (name : String) (args : List Expr) :
    Affirms (storeValue v g name args) := by
  unfold storeValue
  split
  · exact returns_bind fun _ => returns_bind fun _ => returns_pure rfl
  · rename_i op _
    refine returns_bind fun _ => returns_pure ?_
    cases op with
    | not => exact (hg rfl).elim
    | _ => rfl
  · exact returns_bind fun _ => returns_pure rfl
  · exact affirms_call _ _
  · exact affirms_rankValue name _
  · split
    · exact returns_fail _
    · exact returns_bind fun _ => returns_pure rfl
  · exact affirms_matchValue _ _ _
  · exact returns_bind fun _ => affirms_matchValue _ _ _
  · exact returns_bind fun _ => returns_bind fun _ => returns_pure rfl
  all_goals exact returns_fail _

theorem affirms_callValue (f : FunctionRef) (args : List Expr) (t : DataType) : Affirms (callValue v f args t) := by
  unfold callValue
  split
  · exact affirms_canonicalValue _ _ _
  · split
    · rename_i g hg
      refine affirms_storeValue ?_ _ _
      rintro rfl
      split at hg
      · cases leading_ofName? hg
      · cases hg
    · exact affirms_call _ _

/-! ## All scalar expressions -/

section

variable {p : Parts}

theorem affirms_constantValue (x : Value) : Affirms (constantValue x) := by
  refine returns_bind fun c => ?_
  split
  · exact returns_bind fun _ => returns_pure rfl
  · exact returns_pure rfl

theorem affirms_nullValue (t : DataType) : Affirms (nullValue t) := by
  refine returns_bind fun c => ?_
  split
  · exact returns_bind fun _ => returns_pure rfl
  · exact returns_pure rfl

theorem affirms_propertyValue (base : Expr) (name : String) : Affirms (propertyValue base name) := by
  refine returns_bind fun c => ?_
  split
  · refine returns_bind fun _ => returns_bind fun _ => ?_
    split
    · exact returns_fail _
    · exact returns_bind fun _ => returns_bind fun _ => returns_pure rfl
  · split
    · split
      · exact returns_pure rfl
      · exact returns_fail _
    · exact returns_fail _

theorem affirms_binaryValue (op : BinaryOp) (l r : Expr) : Affirms (binaryValue p op l r) :=
  returns_bind fun _ => returns_bind fun _ => returns_pure rfl

theorem affirms_arithmeticValue (op : ArithmeticOp) (args : List Expr) : Affirms (arithmeticValue p op args) := by
  unfold arithmeticValue
  split
  · exact returns_bind fun _ => returns_pure rfl
  · exact affirms_binaryValue _ _ _
  · exact returns_fail _
  · exact returns_fail _

theorem affirms_isInValue (item : Expr) (list : List Expr) : Affirms (isInValue p item list) := by
  unfold isInValue
  split
  · exact returns_pure rfl
  · exact returns_bind fun _ => returns_bind fun _ => returns_pure rfl

theorem affirms_subqueryValue (e : Expr) : Affirms (subqueryValue p e) :=
  returns_bind fun _ => returns_bind fun _ => returns_bind fun _ => returns_pure rfl

theorem affirms_limitValue (e : Expr) : Affirms (limitValue p e) := by
  refine returns_bind fun _ => returns_bind fun _ => returns_bind fun n => returns_bind fun s => ?_
  split
  · exact returns_bind fun _ => returns_pure rfl
  · exact returns_pure rfl

/-- The parts are compiled to expressions that negate back. -/
abbrev NegateBack (p : Parts) : Prop := ∀ e, Returns (p.value e) NegatesBack

theorem negatesBack_reducedCaseValue (h : NegateBack p) (e : Expr) : Returns (reducedCaseValue p e) NegatesBack := by
  unfold reducedCaseValue
  split
  · split
    · exact returns_fail _
    · exact returns_bind fun _ => returns_bind fun _ => returns_pure (negatesBack_of_isNot rfl)
  · exact h _

theorem negatesBack_valueStep (h : NegateBack p) (e : Expr) : Returns (valueStep p e) NegatesBack := by
  have hplain {m : CompileM SqlExpr} (hm : Affirms m) : Returns m NegatesBack :=
    hm.mono fun _ => negatesBack_of_isNot
  cases e with
  | constant x => exact hplain (affirms_constantValue x)
  | null t => exact hplain (affirms_nullValue t)
  | paramRef => exact hplain (returns_pure rfl)
  | varRef => exact returns_fail _
  | property base name => exact hplain (affirms_propertyValue base name)
  | comparison | and | or | like => exact hplain (affirms_binaryValue _ _ _)
  | arithmetic op args => exact hplain (affirms_arithmeticValue op args)
  | not e =>
    intro c s a t hrun
    obtain ⟨x, u, hx, hrest⟩ := gives_bind.mp hrun
    obtain ⟨rfl, -⟩ := gives_pure.mp hrest
    exact (h e c s x u hx).negate
  | isNull | element => exact hplain (returns_bind fun _ => returns_pure rfl)
  | isEmpty e => exact returns_bind fun _ => returns_pure (negatesBack_of_isNot rfl).negate
  | isIn item list => exact hplain (affirms_isInValue item list)
  | cast => exact hplain (returns_bind fun _ => returns_bind fun _ => returns_pure rfl)
  | caseOf => exact negatesBack_reducedCaseValue h _
  | call f args t => exact hplain (affirms_callValue f args t)
  | limit e n => exact hplain (affirms_limitValue _)
  | newInstance t args =>
    rw [valueStep]
    split
    · exact hplain (affirms_subqueryValue _)
    · exact returns_fail _
  | scan | filter | project | sort | skip | distinct | groupBy | join | setOp =>
    exact hplain (affirms_subqueryValue _)

end

theorem negateBack_partsTo (n : Nat) : NegateBack (partsTo n) := by
  induction n with
  | zero => exact fun _ => returns_fail _
  | succ n ih => exact fun e => negatesBack_valueStep ih e

/-- Whatever is compiled negates back. -/
theorem negatesBack_value (e : Expr) : Returns (value e) NegatesBack := negateBack_partsTo _ e

/-! ## Double negation -/

theorem gives_not {n : Nat} {e : Expr} {c : Context} {s t : State} {x : SqlExpr}
    (h : Gives ((partsTo n).value e) c s x t) : Gives ((partsTo (n + 1)).value (.not e)) c s x.negate t :=
  gives_bind.mpr ⟨x, t, h, gives_pure.mpr ⟨rfl, rfl⟩⟩

theorem gives_not_not {e : Expr} {c : Context} {s t : State} {x : SqlExpr} (h : Gives (value e) c s x t) :
    Gives (value (.not (.not e))) c s x t := by
  have hback : x.negate.negate = x := negatesBack_value e c s x t h
  have hlevels : levels (.not (.not e)) = levels e + 2 + 2 := by
    simp only [levels, Expr.size]
    omega
  have hdouble := gives_not (gives_not h)
  rw [hback] at hdouble
  unfold value
  rw [hlevels]
  exact hdouble.deeper (Nat.le_add_right _ _)

/-- An expression negated twice is compiled to what it is compiled to itself, with the same effects; and the
    truth value of the complement is the negated one, whatever the operators mean. -/
theorem negation_complements :
    (∀ (e : Expr) (c : Context) (s t : State) (x : SqlExpr),
      Gives (value e) c s x t → Gives (value (.not (.not e))) c s x t) ∧
    ∀ {V : Type} (I : Interpretation V) (x : SqlExpr), I.truth (I.eval x.negate) = (I.truth (I.eval x)).map (!·) :=
  ⟨fun _ _ _ _ _ => gives_not_not, fun I x => I.truth_negate x⟩

/-- `NOT (@a = @b)` is compiled to `@a <> @b`, also with two more negations around it. -/
theorem negation_complements_notEquals :
    Gives (value (.not (.not (.not (.comparison .equals (.paramRef "a" .boolean) (.paramRef "b" .boolean))))))
        { mode := .query, liftConstants := false } {}
        (.binary .notEquals (.verbatim "@a") (.verbatim "@b")) {} ∧
      Interpretation.truthTables.truth
          (Interpretation.truthTables.eval (SqlExpr.binary .notEquals (.verbatim "TRUE") (.verbatim "FALSE")).negate) =
        some false :=
  ⟨negation_complements.1 _ _ _ _ _ rfl, negation_complements.2 Interpretation.truthTables _⟩

end Compile

end TreeSql
