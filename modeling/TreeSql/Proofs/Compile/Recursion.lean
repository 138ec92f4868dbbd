import TreeSql.Compile.Tree
import TreeSql.Proofs.Compile.Chains
import TreeSql.Proofs.Expr.Reads

/-
  TreeSql.Proofs.Compile.Recursion — compiling an expression comes to an end.

  The steps for values and rows go on to other expressions. A step for rows goes on to smaller ones only
  (`rowsStep_congr`), a step for a value also to its own rows (`valueStep_congr`); what a `CASE` is reduced to
  is not a part of it, but it is smaller unless it is a `CASE` again, whose parts are gone on to. So the steps
  below a number of levels do not matter, whatever they are (`agree_partsOver`): the recursion does not reach
  them.

  Hence there is exactly one way to compile expressions that does what the steps say, without any levels
  (`recursive_iff`).
-/
namespace TreeSql.Compile

open Sql Postgres

variable {p p' : Parts}

section Congruence

variable {value value' : Expr → CompileM SqlExpr}

/-! ## Calls -/

theorem valuesOf_congr {es : List Expr} (h : ∀ e ∈ es, value e = value' e) :
    valuesOf value es = valuesOf value' es := by
  induction es with
  | nil => rfl
  | cons e es ih =>
    rw [List.forall_mem_cons] at h
    simp only [valuesOf, h.1, ih h.2]

theorem canonicalValue_congr {args : List Expr} (h : ∀ e ∈ args, value e = value' e) (name : String) (t : DataType) :
    canonicalValue value name args t = canonicalValue value' name args t := by
  unfold canonicalValue
  split <;> simp_all

theorem rankValue_congr {args : List Expr} (h : ∀ e ∈ args, value e = value' e) (name : String) :
    rankValue value name args = rankValue value' name args := by
  have hrest : ∀ e ∈ args.drop 4, value e = value' e := fun e he => h e (List.mem_of_mem_drop he)
  simp only [rankValue, valuesOf_congr h, valuesOf_congr hrest]

theorem storeValue_congr {args : List Expr} (h : ∀ e ∈ args, value e = value' e) (f : StoreFunction) (name : String) :
    storeValue value f name args = storeValue value' f name args := by
  unfold storeValue
  split <;> simp_all [valuesOf_congr h, rankValue_congr h, matchValue]

theorem callValue_congr {args : List Expr} (h : ∀ e ∈ args, value e = value' e) (f : FunctionRef) (t : DataType) :
    callValue value f args t = callValue value' f args t := by
  simp only [callValue, canonicalValue_congr h, storeValue_congr h, valuesOf_congr h]

theorem aggregateValue_congr {a : Aggregate} (h : ∀ e ∈ a.args, value e = value' e) :
    aggregateValue value a = aggregateValue value' a := by
  obtain ⟨f, args, distinct, t⟩ := a
  have hstring : stringAggValue value ⟨f, args, distinct, t⟩ = stringAggValue value' ⟨f, args, distinct, t⟩ := by
    unfold stringAggValue
    split <;> simp_all
  unfold aggregateValue
  rw [hstring]
  split
  · rfl
  · split
    · rfl
    · split <;> simp_all

/-! ## Steps over smaller expressions -/

/-- Both compile the expressions of fewer nodes in the same way. -/
structure AgreeBelow (n : Nat) (p p' : Parts) : Prop where
  value {e : Expr} (h : e.size < n) : p.value e = p'.value e
  rows {e : Expr} (h : e.size < n) (var : String) : p.rows e var = p'.rows e var

variable {n : Nat}

theorem AgreeBelow.mono {m : Nat} (h : AgreeBelow n p p') (hm : m ≤ n) : AgreeBelow m p p' :=
  ⟨fun he => h.value (Nat.lt_of_lt_of_le he hm), fun he => h.rows (Nat.lt_of_lt_of_le he hm)⟩

theorem AgreeBelow.values (h : AgreeBelow n p p') (es : List Expr) (hsize : Expr.sizeOfAll es < n) :
    ∀ e ∈ es, p.value e = p'.value e :=
  fun _ he => h.value (Nat.lt_of_le_of_lt (Expr.size_le_sizeOfAll he) hsize)

/-! ## Values -/

theorem branchParts_congr (h : AgreeBelow n p p') (ws ts : List Expr) (hw : Expr.sizeOfAll ws < n)
    (ht : Expr.sizeOfAll ts < n) : branchParts p (ws.zip ts) = branchParts p' (ws.zip ts) := by
  induction ws generalizing ts with
  | nil => rfl
  | cons w ws ih =>
    cases ts with
    | nil => rfl
    | cons t ts =>
      simp only [Expr.sizeOfAll] at hw ht
      simp only [List.zip_cons_cons, branchParts, h.value (e := w) (by omega), h.value (e := t) (by omega),
        ih ts (by omega) (by omega)]

theorem elseParts_congr (h : AgreeBelow n p p') {e : Expr} (he : e.size < n) : elseParts p e = elseParts p' e := by
  unfold elseParts
  split
  · rfl
  · rw [h.value he]

/-- The visit of a reduced `CASE` goes on to its parts, or to a smaller expression that it was reduced to. -/
theorem reducedCaseValue_congr {ws ts : List Expr} {o : Expr} (h : AgreeBelow (Expr.caseOf ws ts o).size p p') :
    reducedCaseValue p (Expr.reduce (.caseOf ws ts o)) = reducedCaseValue p' (Expr.reduce (.caseOf ws ts o)) := by
  have hle := Expr.size_reduce (.caseOf ws ts o)
  have hlt := Expr.reduce_caseOf ws ts o
  generalize Expr.reduce (.caseOf ws ts o) = reduced at hle hlt
  cases reduced with
  | caseOf ws' ts' o' =>
    rw [Expr.size] at hle
    simp only [reducedCaseValue, branchParts_congr h ws' ts' (by omega) (by omega),
      elseParts_congr h (e := o') (by omega)]
  | _ => exact h.value (hlt.resolve_left nofun)

theorem valueStep_congr {e : Expr} (h : AgreeBelow e.size p p') (hrows : ∀ var, p.rows e var = p'.rows e var) :
    valueStep p e = valueStep p' e := by
  cases e with
  | comparison op l r | and l r | or l r | like l r =>
    simp only [Expr.size] at h
    simp only [valueStep, binaryValue, h.value (e := l) (by omega), h.value (e := r) (by omega)]
  | arithmetic op args =>
    have hargs := h.values args (Nat.lt_succ_self _)
    simp only [valueStep, arithmeticValue]
    split <;> simp_all [binaryValue]
  | not e | isNull e | isEmpty e | cast e t | element e =>
    simp only [valueStep, h.value (e := e) (Nat.lt_succ_self _)]
  | isIn item list =>
    simp only [Expr.size] at h
    simp only [valueStep, isInValue, h.value (e := item) (by omega), valuesOf_congr (h.values list (by omega))]
  | caseOf ws ts o => exact reducedCaseValue_congr h
  | call f args t => exact callValue_congr (h.values args (Nat.lt_succ_self _)) f t
  | limit e n => simp only [valueStep, limitValue, hrows]
  | _ => simp only [valueStep, subqueryValue, hrows]

/-! ## Rows -/

theorem orderItems_congr (h : AgreeBelow n p p') (keys : List SortKey) (hkeys : Expr.sizeOfKeys keys < n) :
    orderItems p keys = orderItems p' keys := by
  induction keys with
  | nil => rfl
  | cons key keys ih =>
    simp only [Expr.sizeOfKeys] at hkeys
    simp only [orderItems, h.value (e := key.expr) (by omega), ih (by omega)]

theorem rowColumns_congr (h : AgreeBelow n p p') (row : Expr) (hrow : row.size ≤ n) :
    rowColumns p row = rowColumns p' row := by
  unfold rowColumns
  split
  · rw [valuesOf_congr (h.values _ hrow)]
  · rfl

theorem constantColumns_congr (h : AgreeBelow n p p') (arg : Expr) (harg : arg.size < n) :
    constantColumns p arg = constantColumns p' arg := by
  unfold constantColumns
  split
  · exact rowColumns_congr h _ (Nat.le_of_lt harg)
  · rw [h.value harg]

theorem constantSelects_congr (h : AgreeBelow n p p') {args : List Expr} (hargs : Expr.sizeOfAll args < n) :
    constantSelects p args = constantSelects p' args := by
  induction args with
  | nil => rfl
  | cons arg args ih =>
    simp only [Expr.sizeOfAll] at hargs
    simp only [constantSelects, constantColumns_congr h arg (by omega), ih (by omega)]

theorem constantRows_congr (h : AgreeBelow n p p') (t : DataType) {args : List Expr} (hargs : Expr.sizeOfAll args < n)
    (var : String) : constantRows p t args var = constantRows p' t args var := by
  unfold constantRows
  split
  · rename_i input
    have hinput : input.size < n := by
      simp only [Expr.sizeOfAll, Expr.size] at hargs
      omega
    simp only [h.rows hinput]
  · rfl
  · rw [constantSelects_congr h hargs]

theorem operandStages_congr (h : AgreeBelow n p p') (var : String) (place : Nat) {es : List Expr}
    (hes : ∀ e ∈ es, e.size < n) : operandStages p var place es = operandStages p' var place es := by
  induction es generalizing place with
  | nil => rfl
  | cons e es ih =>
    rw [List.forall_mem_cons] at hes
    simp only [operandStages, h.rows hes.1, ih _ hes.2]

theorem setOpRows_congr (h : AgreeBelow n p p') (kind : SetOpKind) {l r : Expr} (hl : l.size < n) (hr : r.size < n)
    (var : String) : setOpRows p kind l r var = setOpRows p' kind l r var := by
  have hoperands : ∀ o ∈ setOpOperands kind l r, o.size < n := by
    refine setOpOperands_induct (P := fun e => e.size < n) (fun l r hlr => ?_) hl hr
    rw [Expr.size] at hlr
    constructor <;> omega
  rw [setOpRows, setOpRows, operandStages_congr h var 0 hoperands]

theorem aggregateValues_congr (h : AgreeBelow n p p') (aggregates : List Aggregate)
    (hsize : Expr.sizeOfAggregates aggregates < n) : aggregateValues p aggregates = aggregateValues p' aggregates := by
  induction aggregates with
  | nil => rfl
  | cons a as ih =>
    simp only [Expr.sizeOfAggregates] at hsize
    simp only [aggregateValues, aggregateValue_congr (h.values a.args (by omega)), ih (by omega)]

theorem joinSide_congr {e : Expr} (he : ∀ var, p.rows e var = p'.rows e var) (node : NodeId) (var : String) :
    joinSide p node e var = joinSide p' node e var := by
  simp only [joinSide, he]

theorem joined_congr (h : AgreeBelow n p p') (condition : Option Expr) (hsize : Expr.sizeOfOption condition < n)
    (stage : StageId) (left : FromTree) (kind : JoinKind) (right : FromTree) :
    joined p stage left kind right condition = joined p' stage left kind right condition := by
  cases condition with
  | none => rfl
  | some c => simp only [joined, h.value hsize]

/-- A tree of joins goes on to its sides and conditions. They are smaller, and so is the tree if it is no join. -/
theorem joinTree_congr (h : AgreeBelow n p p') (node : NodeId) (stage : StageId) {e : Expr}
    (he : e.isJoin = true ∧ e.size = n ∨ e.size < n) (var : String) :
    joinTree p node stage e var = joinTree p' node stage e var := by
  induction e, var using joinTree.induct with
  | case1 var kind l lv r rv condition ihl ihr =>
    have hsize : (Expr.join kind ⟨l, lv⟩ ⟨r, rv⟩ condition).size ≤ n := he.elim (fun h => Nat.le_of_eq h.2) Nat.le_of_lt
    simp only [Expr.size] at hsize
    simp only [joinTree, ihl (by omega), ihr (by omega), joinSide_congr (h.rows (e := r) (by omega)),
      joined_congr h condition (by omega)]
  | case2 var e hne =>
    have hlt : e.size < n := by
      refine he.resolve_left fun hjoin => ?_
      cases e with
      | join kind l r condition => exact hne kind _ _ _ _ condition rfl
      | _ => cases hjoin.1
    simp only [joinTree, joinSide_congr (h.rows hlt)]

theorem nodeStep_congr {e : Expr} (h : AgreeBelow e.size p p') (var : String) :
    nodeStep p e var = nodeStep p' e var := by
  cases e with
  | filter input predicate =>
    simp only [Expr.size] at h
    simp only [nodeStep, filterRows, h.rows (e := input.expr) (by omega), h.value (e := predicate) (by omega)]
  | project input row =>
    simp only [Expr.size] at h
    simp only [nodeStep, projectRows, h.rows (e := input.expr) (by omega), rowColumns_congr h row (by omega)]
  | sort input keys =>
    simp only [Expr.size] at h
    simp only [nodeStep, sortRows, orderBy, h.rows (e := input.expr) (by omega),
      orderItems_congr h keys (by omega)]
  | skip input keys count =>
    simp only [Expr.size] at h
    simp only [nodeStep, skipRows, orderBy, h.rows (e := input.expr) (by omega), h.value (e := count) (by omega),
      orderItems_congr h keys (by omega)]
  | limit input count =>
    simp only [Expr.size] at h
    simp only [nodeStep, limitRows, h.rows (e := input) (by omega), h.value (e := count) (by omega)]
  | distinct input => simp only [nodeStep, distinctRows, h.rows (e := input) (Nat.lt_succ_self _)]
  | groupBy input keys aggregates t =>
    simp only [Expr.size] at h
    simp only [nodeStep, groupRows, h.rows (e := input.expr) (by omega),
      valuesOf_congr (h.values keys (by omega)), aggregateValues_congr h aggregates (by omega)]
  | join kind l r c => simp only [nodeStep, joinRows, joinTree_congr h _ _ (e := .join kind l r c) (.inl ⟨rfl, rfl⟩)]
  | setOp kind l r =>
    simp only [Expr.size] at h
    exact setOpRows_congr h kind (by omega) (by omega) var
  | newInstance t args => exact constantRows_congr h t (Nat.lt_succ_self _) var
  | call f args t => simp only [nodeStep, callRows, callValue_congr (h.values args (Nat.lt_succ_self _))]
  | _ => rfl

theorem rowsStep_congr {e : Expr} (h : AgreeBelow e.size p p') (var : String) :
    rowsStep p e var = rowsStep p' e var := by
  simp only [rowsStep, nodeStep_congr h]

end Congruence

/-! ## Levels -/

/-- The steps down to a number of levels, with any others below them. -/
def partsOver (below : Parts) : (levels : Nat) → Parts
  | 0 => below
  | n + 1 => { value := valueStep (partsOver below n), rows := rowsStep (partsOver below n) }

theorem partsTo_eq (n : Nat) : partsTo n = partsOver (partsTo 0) n := by
  induction n with
  | zero => rfl
  | succ n ih => exact congrArg (fun p : Parts => ({ value := valueStep p, rows := rowsStep p } : Parts)) ih

/-- With levels enough for expressions of a size, it does not matter what is below them. -/
theorem agree_partsOver (below below' : Parts) {size n m : Nat} (hn : 2 * size ≤ n) (hm : 2 * size ≤ m) :
    AgreeBelow size.succ (partsOver below n) (partsOver below' m) := by
  induction size generalizing n m with
  | zero => exact ⟨fun {e} he => absurd e.size_pos (by omega), fun {e} he => absurd e.size_pos (by omega)⟩
  | succ size ih =>
    -- The rows of an expression need one level over its parts, its value one more.
    obtain ⟨n, rfl⟩ : ∃ k, n = k + 2 := ⟨n - 2, by omega⟩
    obtain ⟨m, rfl⟩ : ∃ k, m = k + 2 := ⟨m - 2, by omega⟩
    have hrows {e : Expr} (he : e.size < size + 2) {n m : Nat} (hn : 2 * size ≤ n) (hm : 2 * size ≤ m) (var : String) :
        (partsOver below (n + 1)).rows e var = (partsOver below' (m + 1)).rows e var :=
      rowsStep_congr ((ih hn hm).mono (by omega)) var
    constructor
    · intro e he
      exact valueStep_congr ((ih (n := n + 1) (m := m + 1) (by omega) (by omega)).mono (by omega))
        (hrows he (by omega) (by omega))
    · exact fun he => hrows he (by omega) (by omega)

/-- No expression's steps reach below twice as many levels as it has nodes. -/
theorem value_partsOver (below : Parts) {e : Expr} {n : Nat} (hn : 2 * e.size ≤ n) :
    (partsOver below n).value e = value e := by
  unfold value
  rw [partsTo_eq]
  exact (agree_partsOver below (partsTo 0) hn (Nat.le_succ _)).value (Nat.lt_succ_self _)

theorem rows_partsOver (below : Parts) {e : Expr} {n : Nat} (hn : 2 * e.size ≤ n) (var : String) :
    (partsOver below n).rows e var = rows e var := by
  unfold rows
  rw [partsTo_eq]
  exact (agree_partsOver below (partsTo 0) hn (Nat.le_succ _)).rows (Nat.lt_succ_self _) var

/-! ## The recursion itself -/

/-- The ways to compile expressions that do at each what its step says, going on to themselves. -/
def Recursive (p : Parts) : Prop :=
  (∀ e, p.value e = valueStep p e) ∧ ∀ e var, p.rows e var = rowsStep p e var

theorem Recursive.partsOver_eq (h : Recursive p) (n : Nat) : partsOver p n = p := by
  induction n with
  | zero => rfl
  | succ n ih =>
    obtain ⟨hvalue, hrows⟩ := h
    rw [partsOver, ih]
    have hv : valueStep p = p.value := funext fun e => (hvalue e).symm
    have hr : rowsStep p = p.rows := funext fun e => funext fun var => (hrows e var).symm
    rw [hv, hr]

/-- Below the first step, the levels left are enough for all that an expression goes on to. -/
theorem agreeBelow_value_rows (e : Expr) : AgreeBelow e.size (partsTo (2 * e.size)) ⟨value, rows⟩ where
  value h := by
    rw [partsTo_eq]
    exact value_partsOver _ (by omega)
  rows h var := by
    rw [partsTo_eq]
    exact rows_partsOver _ (by omega) var

theorem recursive_value_rows : Recursive ⟨value, rows⟩ := by
  refine ⟨fun e => Eq.trans ?_ (valueStep_congr (agreeBelow_value_rows e) fun var => ?_),
    fun e var => rowsStep_congr (agreeBelow_value_rows e) var⟩
  · rfl
  · rw [partsTo_eq]
    exact rows_partsOver _ (Nat.le_refl _) var

/-- There is one way to compile expressions that does what the steps say. -/
theorem recursive_iff : Recursive p ↔ p = ⟨value, rows⟩ := by
  refine ⟨fun h => ?_, fun h => h ▸ recursive_value_rows⟩
  have hvalue : p.value = value := funext fun e => by
    have := value_partsOver p (Nat.le_refl (2 * e.size))
    rwa [h.partsOver_eq] at this
  have hrows : p.rows = rows := funext fun e => funext fun var => by
    have := rows_partsOver p (Nat.le_refl (2 * e.size)) var
    rwa [h.partsOver_eq] at this
  rw [← hvalue, ← hrows]

/-- What an expression is reduced to has no more nodes, and fewer where a `CASE` is none any longer. Compiling an
    expression goes on from step to step and to what a `CASE` is reduced to, and comes to an end: twice as many
    levels as the expression has nodes are enough, whatever is below them. -/
theorem value_terminates (e : Expr) :
    ((Expr.reduce e).size ≤ e.size ∧
      (e.kind = .caseOf → (Expr.reduce e).kind ≠ .caseOf → (Expr.reduce e).size < e.size)) ∧
      (value e = valueStep ⟨value, rows⟩ e ∧ ∀ var, rows e var = rowsStep ⟨value, rows⟩ e var) ∧
      ∀ (below : Parts) (n : Nat), 2 * e.size ≤ n →
        (partsOver below n).value e = value e ∧ ∀ var, (partsOver below n).rows e var = rows e var := by
  refine ⟨⟨Expr.size_reduce e, fun hcase hother => ?_⟩, ⟨recursive_value_rows.1 e, recursive_value_rows.2 e⟩, ?_⟩
  · cases e with
    | caseOf ws ts o =>
      obtain ⟨ws', ts', o', h⟩ | hlt := Expr.reduce_caseOf ws ts o
      · exact absurd (congrArg Expr.kind h) hother
      · exact hlt
    | _ => cases hcase
  · exact fun below n hn => ⟨value_partsOver below hn, rows_partsOver below hn⟩

end TreeSql.Compile
