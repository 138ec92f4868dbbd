import TreeSql.Compile.Tree
import TreeSql.Expr.Build
import TreeSql.Proofs.Compile.Run
import TreeSql.Proofs.Operators.Recognition

/-
  TreeSql.Proofs.Operators.TextQueries — a negated text query loses its grouping.

  The operators of text queries are on one level of PostgreSQL's grammar and group from the left, the
  negation before its operand included. So every right operand that is no column and no negation has to
  stand in parentheses. It does under an operator between two operands. Negation counts as an operator
  that groups from the right, so its operand never stands in parentheses: the negation of `a && b` has the
  text of the conjunction of the negation of `a` with `b`.

  `gives_textQuery`: a nesting of the store functions is compiled to the same nesting of operators.
  `read_textQuery_iff`: it reads back from its text exactly if every negation is of a column or of another negation
  (`negatesAtoms`). Two such nestings have different texts.
-/
namespace TreeSql.Compile

open Sql Sql.Written

/-! ## Text queries -/

/-- The operators between two text queries, and the match of a vector with a query. -/
inductive TextOp where
  | queryMatch
  | and
  | or
  | contains
  | isContained
deriving DecidableEq

namespace TextOp

/-- The store function for the operator. -/
def function : TextOp → String
  | queryMatch => "@@"
  | and => "operator_tsquery_and"
  | or => "operator_tsquery_or"
  | contains => "operator_tsquery_contains"
  | isContained => "operator_tsquery_is_contained"

def sql : TextOp → BinaryOp
  | queryMatch => .queryMatch
  | and => .queryAnd
  | or => .concat
  | contains => .queryContains
  | isContained => .queryIsContained

theorem ofName?_function (op : TextOp) : StoreFunction.ofName? op.function = some (.binary op.sql) := by
  cases op <;> decide

end TextOp

/-- A nesting of operators on columns. -/
inductive TextQuery where
  | column (name : String)
  | binary (op : TextOp) (left right : TextQuery)
  | negate (operand : TextQuery)
deriving DecidableEq

namespace TextQuery

def sql : TextQuery → SqlExpr
  | column n => .property n
  | binary op l r => .binary op.sql l.sql r.sql
  | negate q => .leading .queryNegate q.sql

def isBinary : TextQuery → Bool
  | binary .. => true
  | _ => false

/-- Nothing is negated but columns and negations. -/
def negatesAtoms : TextQuery → Bool
  | column _ => true
  | binary _ l r => l.negatesAtoms && r.negatesAtoms
  | negate q => !q.isBinary && q.negatesAtoms

/-- The query as calls of store functions, on columns of a variable. -/
inductive Calls (var : String) : Expr → TextQuery → Prop
  | column (t t' : DataType) (n : String) : Calls var (.property (.varRef var t) n t') (.column n)
  | binary {op : TextOp} {f : FunctionRef} {a b : Expr} {l r : TextQuery} (hspace : f.isStore = true)
      (hname : f.name = op.function) (hl : Calls var a l) (hr : Calls var b r) (t : DataType) :
      Calls var (.call f [a, b] t) (.binary op l r)
  | negate {f : FunctionRef} {a : Expr} {q : TextQuery} (hspace : f.isStore = true)
      (hname : f.name = "operator_tsquery_negate") (hq : Calls var a q) (t : DataType) :
      Calls var (.call f [a] t) (.negate q)

end TextQuery

/-! ## Compiling -/

theorem callValue_store {f : FunctionRef} (hspace : f.isStore = true) {g : StoreFunction}
    (hname : StoreFunction.ofName? f.name = some g) (value : Expr → CompileM SqlExpr) (args : List Expr)
    (t : DataType) : callValue value f args t = storeValue value g f.name args := by
  have hcanonical : f.isCanonical = false := by
    rw [FunctionRef.isCanonical, eq_of_beq hspace]
    decide
  rw [callValue, hcanonical, if_neg Bool.false_ne_true, if_pos hspace, hname]

/-- At any number of levels that is enough for it, a query is compiled to its operators. -/
theorem gives_textQuery {var : String} {c : Context} (hc : c.mode = .target var) {s : State} {e : Expr}
    {q : TextQuery} (h : q.Calls var e) {n : Nat} (hn : e.size ≤ n) :
    Gives ((partsTo n).value e) c s q.sql s := by
  induction h generalizing n with
  | column t t' name =>
    obtain ⟨m, rfl⟩ : ∃ m, n = m + 1 := ⟨n - 1, by simp [Expr.size] at hn; omega⟩
    have hvalue : (partsTo (m + 1)).value (.property (.varRef var t) name t') =
        propertyValue (.varRef var t) name := rfl
    rw [hvalue, propertyValue, gives_read_bind, hc]
    simp only [if_pos]
    exact gives_pure.mpr ⟨rfl, rfl⟩
  | @binary op f a b l r hspace hname hl hr t ihl ihr =>
    have hsize : a.size + b.size + 1 ≤ n := by simpa [Expr.size, Expr.sizeOfAll] using hn
    obtain ⟨m, rfl⟩ : ∃ m, n = m + 1 := ⟨n - 1, by omega⟩
    have hvalue : (partsTo (m + 1)).value (.call f [a, b] t) =
        storeValue (partsTo m).value (.binary op.sql) f.name [a, b] :=
      callValue_store hspace (hname ▸ op.ofName?_function) _ _ _
    rw [hvalue]
    exact gives_bind.mpr ⟨_, _, ihl (by omega), gives_bind.mpr ⟨_, _, ihr (by omega), rfl⟩⟩
  | @negate f a q hspace hname hq t ih =>
    have hsize : a.size + 1 ≤ n := by simpa [Expr.size, Expr.sizeOfAll] using hn
    obtain ⟨m, rfl⟩ : ∃ m, n = m + 1 := ⟨n - 1, by omega⟩
    have hvalue : (partsTo (m + 1)).value (.call f [a] t) =
        storeValue (partsTo m).value (.leading .queryNegate) f.name [a] :=
      callValue_store hspace (by rw [hname]; decide) _ _ _
    rw [hvalue]
    exact gives_bind.mpr ⟨_, _, ih (by omega), rfl⟩

/-! ## Reading -/

end TreeSql.Compile

namespace TreeSql.Sql

open Written Compile

/-- PostgreSQL's grammar of text queries: one level, from the left. -/
def Grammar.textQueries : Grammar where
  before _ := 0
  after _ := 0
  chaining _ := .fromLeft

theorem yields_textQueries (op c : Operator) : Grammar.textQueries.yields op c = true := rfl

/-- Before an operator everything has its operands. -/
theorem before_textQueries (w : Written) (op : Operator) : w.Before .textQueries op := by
  refine ⟨fun _ _ => rfl, ?_⟩
  rw [Grammar.admits]
  cases w.top <;> rfl

/-- After an operator nothing takes a left operand. -/
theorem after_textQueries_iff {w : Written} {op : Operator} : w.After .textQueries op ↔ w.leftEdge = [] := by
  cases h : w.leftEdge with
  | nil => simp [Written.After, h]
  | cons c cs =>
    refine iff_of_false (fun hafter => ?_) (List.cons_ne_nil c cs)
    cases (yields_textQueries op c).symm.trans (hafter c (by rw [h]; exact .head _))

theorem operatorTree_textQuery (q : TextQuery) : OperatorTree (fun _ => true) q.sql := by
  induction q with
  | column n => exact .column n
  | binary op l r ihl ihr => exact .binary rfl ihl ihr
  | negate q ih => exact .leading rfl ih

/-- On its right, an operator between two operands has parentheses around others of its kind. -/
theorem wrapsRight_textOp (regime : Regime) (follower : Option Operator) (op op' : TextOp) :
    wrapsRight regime follower (.binary op.sql) (.binary op'.sql) = true := by
  cases regime <;> cases op <;> cases op' <;> rfl

/-- A negation has none. -/
theorem wrapsRight_negate (regime : Regime) (follower : Option Operator) (op : TextOp) :
    wrapsRight regime follower (.leading .queryNegate) (.binary op.sql) = false := by
  cases regime <;> cases op <;> rfl

/-- What does not begin with an operand stands anywhere. -/
theorem after_operand_of_not_isBinary {q : TextQuery} (hq : q.isBinary = false) {regime : Regime}
    {follower : Option Operator} (wraps : Bool) (inner : Written) (op : Operator) :
    (operand wraps inner (q.sql.written regime follower)).After .textQueries op := by
  refine of_operand (P := fun w => w.After .textQueries op) wraps (after_paren _ _ _)
    (after_textQueries_iff.mpr ?_)
  cases q with
  | column n | negate q => rfl
  | binary op l r => cases hq

theorem proper_textQuery_iff (q : TextQuery) (regime : Regime) (follower : Option Operator) :
    (q.sql.written regime follower).Proper .textQueries ↔ q.negatesAtoms = true := by
  have hoperand {q : TextQuery} (ih : ∀ follower,
      (q.sql.written regime follower).Proper .textQueries ↔ q.negatesAtoms = true) (wraps : Bool)
      (follower follower' : Option Operator) :
      (operand wraps (q.sql.written regime follower) (q.sql.written regime follower')).Proper .textQueries ↔
        q.negatesAtoms = true :=
    of_operand (P := fun w => w.Proper .textQueries ↔ q.negatesAtoms = true) wraps (ih _) (ih _)
  induction q generalizing follower with
  | column n => simp [TextQuery.sql, SqlExpr.written, Proper, TextQuery.negatesAtoms]
  | binary op l r ihl ihr =>
    have hafter : (operand (wrapsRightOperand regime follower (.binary op.sql) r.sql) (r.sql.written regime none)
        (r.sql.written regime follower)).After .textQueries (.binary op.sql) := by
      cases hr : r.isBinary with
      | false => exact after_operand_of_not_isBinary hr _ _ _
      | true =>
        cases r with
        | column n | negate q => cases hr
        | binary op' l' r' =>
          have hwraps : wrapsRightOperand regime follower (.binary op.sql) (TextQuery.binary op' l' r').sql =
            true := wrapsRight_textOp regime follower op op'
          rw [hwraps]
          exact after_paren _ _ _
    simp only [TextQuery.sql, SqlExpr.written, Proper, TextQuery.negatesAtoms, before_textQueries, hafter,
      hoperand ihl, hoperand ihr, true_and, Bool.and_eq_true]
  | negate q ih =>
    have hafter : (operand (wrapsRightOperand regime follower (.leading .queryNegate) q.sql)
        (q.sql.written regime none) (q.sql.written regime follower)).After .textQueries (.leading .queryNegate) ↔
          q.isBinary = false := by
      cases hq : q.isBinary with
      | false => exact iff_of_true (after_operand_of_not_isBinary hq _ _ _) rfl
      | true =>
        refine iff_of_false (fun hafter => ?_) Bool.noConfusion
        cases q with
        | column n | negate q => cases hq
        | binary op' l' r' =>
          have hbare : wrapsRightOperand regime follower (.leading .queryNegate)
            (TextQuery.binary op' l' r').sql = false := wrapsRight_negate regime follower op'
          rw [hbare] at hafter
          exact List.cons_ne_nil _ _ (after_textQueries_iff.mp hafter)
    simp only [TextQuery.sql, SqlExpr.written, Proper, TextQuery.negatesAtoms, hafter, hoperand ih,
      Bool.and_eq_true, Bool.not_eq_true']

theorem sql_textQuery_injective {q q' : TextQuery} (h : q.sql = q'.sql) : q = q' := by
  induction q generalizing q' with
  | column n =>
    cases q' with
    | column n' =>
      cases h
      rfl
    | binary op' l' r' | negate q' => cases h
  | binary op l r ihl ihr =>
    cases q' with
    | binary op' l' r' =>
      obtain ⟨hop, hl, hr⟩ := SqlExpr.binary.inj h
      have hop : op = op' := by
        revert hop
        cases op <;> cases op' <;> decide
      rw [hop, ihl hl, ihr hr]
    | column n' | negate q' => cases h
  | negate q ih =>
    cases q' with
    | negate q' => rw [ih (SqlExpr.leading.inj h).2]
    | column n' | binary op' l' r' => cases h

end TreeSql.Sql

namespace TreeSql.Compile

open Sql

/-- A nesting of store functions is compiled to the same nesting of operators. It reads back from its text exactly if
    nothing is negated but columns and negations, and two such nestings have different texts. -/
theorem read_textQuery_iff {var : String} {e : Expr} {q : TextQuery} (h : q.Calls var e) {c : Context}
    (hc : c.mode = .target var) (s : State) (regime : Regime) (select : StageId → String) :
    Gives (value e) c s q.sql s ∧
      (Grammar.textQueries.read? (q.sql.renderWith regime select none) = some q.sql ↔
        q.negatesAtoms = true) ∧
      ∀ q' : TextQuery, q ≠ q' → q.negatesAtoms = true → q'.negatesAtoms = true →
        q.sql.renderWith regime select none ≠ q'.sql.renderWith regime select none := by
  have hread (q : TextQuery) :=
    (read_render_iff .textQueries (operatorTree_textQuery q) regime select).trans (proper_textQuery_iff q regime none)
  refine ⟨gives_textQuery hc h (by rw [levels]; omega), hread q, fun q' hne hq hq' htext => hne ?_⟩
  have hback := (hread q).mpr hq
  rw [htext, (hread q').mpr hq'] at hback
  exact sql_textQuery_injective (Option.some.inj hback).symm

/-- A conjunction with a disjunction of a column and its double negation. -/
theorem read_textQuery_double_negation :
    let column (n : String) : Expr := .property (.varRef "t" .string) n .string
    let negated (e : Expr) : Expr := .storeCall "operator_tsquery_negate" [e] .string
    let e : Expr := .storeCall "operator_tsquery_and"
      [column "a", .storeCall "operator_tsquery_or" [column "b", negated (negated (column "c"))] .string] .string
    let q : TextQuery := .binary .and (.column "a") (.binary .or (.column "b") (.negate (.negate (.column "c"))))
    let c : Context := { mode := .target "t", liftConstants := false }
    q.Calls "t" e ∧ c.mode = .target "t" ∧ Gives (value e) c {} q.sql {} ∧
      Grammar.textQueries.read? (q.sql.renderWith .modern (fun _ => "") none) = some q.sql := by
  intro column negated e q c
  have h : q.Calls "t" e :=
    .binary rfl rfl (.column _ _ "a")
      (.binary rfl rfl (.column _ _ "b") (.negate rfl rfl (.negate rfl rfl (.column _ _ "c") _) _) _) _
  have hread := read_textQuery_iff h (c := c) rfl {} .modern (fun _ => "")
  exact ⟨h, rfl, hread.1, hread.2.1.mpr (by decide)⟩

/-- The negation of a conjunction has the text of the conjunction of a negation in both tables, and is read as that. -/
theorem text_of_negated_conjunction :
    let column (n : String) : Expr := .property (.varRef "t" .string) n .string
    let negated (e : Expr) : Expr := .storeCall "operator_tsquery_negate" [e] .string
    let conjunction (l r : Expr) : Expr := .storeCall "operator_tsquery_and" [l, r] .string
    let q : TextQuery := .negate (.binary .and (.column "a") (.column "b"))
    let q' : TextQuery := .binary .and (.negate (.column "a")) (.column "b")
    let c : Context := { mode := .target "t", liftConstants := false }
    Gives (value (negated (conjunction (column "a") (column "b")))) c {} q.sql {} ∧
      Gives (value (conjunction (negated (column "a")) (column "b"))) c {} q'.sql {} ∧ q ≠ q' ∧
      ∀ regime, q.sql.renderWith regime (fun _ => "") none = q'.sql.renderWith regime (fun _ => "") none ∧
        Grammar.textQueries.read? (q.sql.renderWith regime (fun _ => "") none) = some q'.sql := by
  intro column negated conjunction q q' c
  have h : q.Calls "t" (negated (conjunction (column "a") (column "b"))) :=
    .negate rfl rfl (.binary rfl rfl (.column _ _ "a") (.column _ _ "b") _) _
  have h' : q'.Calls "t" (conjunction (negated (column "a")) (column "b")) :=
    .binary rfl rfl (.negate rfl rfl (.column _ _ "a") _) (.column _ _ "b") _
  have htext (regime : Regime) :
      q.sql.renderWith regime (fun _ => "") none = q'.sql.renderWith regime (fun _ => "") none := by
    cases regime <;> decide
  refine ⟨gives_textQuery rfl h (by rw [levels]; omega), gives_textQuery rfl h' (by rw [levels]; omega),
    by decide, fun regime => ⟨htext regime, ?_⟩⟩
  rw [htext regime, read_render_iff .textQueries (operatorTree_textQuery q'), proper_textQuery_iff]
  decide

end TreeSql.Compile
