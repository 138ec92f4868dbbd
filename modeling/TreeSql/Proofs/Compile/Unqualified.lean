import TreeSql.Compile.Scalar
import TreeSql.Proofs.Compile.Arena
import TreeSql.Proofs.Compile.Leaves

/-
  TreeSql.Proofs.Compile.Unqualified — expressions as they read over a single row.

  `unqualified` leaves out by which alias a column goes, and puts the constants back that were lifted
  into parameters. Two expressions that are the same then differ only in where they stand. The
  operations that expressions are put together with respect this.

  `Stage.listed` is a stage with the select list that is written for it, and `Stage.reads` the columns
  that the written stage refers to.
-/
namespace TreeSql

/-! ## Parameters -/

theorem Text.numeral_inj {m n : Nat} (h : numeral m = numeral n) : m = n := by
  have hd : Nat.toDigits 10 m = Nat.toDigits 10 n := by
    simpa [numeral, digits] using congrArg String.toList h
  rw [← Nat.ofDigitChars_ten_toDigits (n := m), hd, Nat.ofDigitChars_ten_toDigits]

namespace Sql

open Compile

/-- The constant that a text is the placeholder of. -/
def liftedValue? (lifted : List Value) (text : String) : Option Value :=
  ((List.range lifted.length).find? fun i => placeholder (liftedName i) == text).bind
    fun i => lifted[i]?

theorem placeholder_liftedName_inj {i j : Nat}
    (h : placeholder (liftedName i) = placeholder (liftedName j)) : i = j := by
  simp only [placeholder, liftedName] at h
  exact Text.numeral_inj (by simpa using h)

theorem liftedValue?_placeholder {lifted : List Value} {i : Nat} (hi : i < lifted.length) :
    liftedValue? lifted (placeholder (liftedName i)) = some lifted[i] := by
  have hfind : ((List.range lifted.length).find?
      fun j => placeholder (liftedName j) == placeholder (liftedName i)) = some i := by
    rw [List.find?_range_eq_some]
    refine ⟨by simp, by simpa using hi, fun j hj => ?_⟩
    have hne : placeholder (liftedName j) ≠ placeholder (liftedName i) := by
      intro h
      have := placeholder_liftedName_inj h
      omega
    simpa using hne
  rw [liftedValue?, hfind]
  simp [hi]

namespace SqlExpr

/-! ## Leaving out aliases -/

mutual

/-- The expression over a single row: without aliases, and with lifted constants put back. -/
def unqualified (lifted : List Value) : SqlExpr → SqlExpr
  | verbatim text =>
    match liftedValue? lifted text with
    | some v => constant v
    | none => verbatim text
  | seq parts => seq (unqualifiedAll lifted parts)
  | list items => list (unqualifiedAll lifted items)
  | paren e => paren (unqualified lifted e)
  | constant v => constant v
  | column e name t => column (unqualified lifted e) name t
  | columnRef _ name => columnRef "" name
  | property name => property name
  | call name args => call name (unqualifiedAll lifted args)
  | cast e t => cast (unqualified lifted e) t
  | binary op l r => binary op (unqualified lifted l) (unqualified lifted r)
  | leading op e => leading op (unqualified lifted e)
  | trailing op e => trailing op (unqualified lifted e)
  | exists_ e => exists_ (unqualified lifted e)
  | stage id => stage id
termination_by structural e => e

def unqualifiedAll (lifted : List Value) : List SqlExpr → List SqlExpr
  | [] => []
  | e :: es => unqualified lifted e :: unqualifiedAll lifted es
termination_by structural es => es

end

mutual

/-- The names of the columns that the expression refers to, from left to right. -/
def columns : SqlExpr → List String
  | verbatim _ | constant _ | property _ | stage _ => []
  | seq es | list es | call _ es => columnsOfAll es
  | paren e | column e _ _ | cast e _ | leading _ e | trailing _ e | exists_ e => columns e
  | columnRef _ name => [name]
  | binary _ l r => columns l ++ columns r
termination_by structural e => e

def columnsOfAll : List SqlExpr → List String
  | [] => []
  | e :: es => columns e ++ columnsOfAll es
termination_by structural es => es

end

variable {lifted : List Value}

theorem unqualifiedAll_eq_map (es : List SqlExpr) :
    unqualifiedAll lifted es = es.map (unqualified lifted) := by
  induction es with
  | nil => rfl
  | cons e es ih => rw [unqualifiedAll, ih, List.map_cons]

mutual

theorem columns_unqualified : ∀ e : SqlExpr, (e.unqualified lifted).columns = e.columns
  | verbatim text => by
    rw [unqualified]
    split
    · rfl
    · rfl
  | seq es | list es | call _ es => columnsOfAll_unqualifiedAll es
  | paren e | column e _ _ | cast e _ | leading _ e | trailing _ e | exists_ e =>
    columns_unqualified e
  | binary _ l r => by
    rw [unqualified, columns, columns, columns_unqualified l, columns_unqualified r]
  | constant _ | columnRef .. | property _ | stage _ => rfl

theorem columnsOfAll_unqualifiedAll :
    ∀ es : List SqlExpr, columnsOfAll (unqualifiedAll lifted es) = columnsOfAll es
  | [] => rfl
  | e :: es => by
    rw [unqualifiedAll, columnsOfAll, columnsOfAll, columns_unqualified e,
      columnsOfAll_unqualifiedAll es]

end

mutual

theorem unqualified_unqualified :
    ∀ e : SqlExpr, (e.unqualified lifted).unqualified lifted = e.unqualified lifted
  | verbatim text => by
    cases h : liftedValue? lifted text with
    | some v => simp [unqualified, h]
    | none => simp [unqualified, h]
  | seq es | list es | call _ es => by
    simp only [unqualified, unqualifiedAll_unqualifiedAll es]
  | paren e | column e _ _ | cast e _ | leading _ e | trailing _ e | exists_ e => by
    simp only [unqualified, unqualified_unqualified e]
  | binary _ l r => by
    simp only [unqualified, unqualified_unqualified l, unqualified_unqualified r]
  | constant _ | columnRef .. | property _ | stage _ => rfl

theorem unqualifiedAll_unqualifiedAll :
    ∀ es : List SqlExpr, unqualifiedAll lifted (unqualifiedAll lifted es) = unqualifiedAll lifted es
  | [] => rfl
  | e :: es => by
    simp only [unqualifiedAll, unqualified_unqualified e, unqualifiedAll_unqualifiedAll es]

end

/-! ## What expressions are put together with -/

/-- An expression with another one after it. -/
def appended (last : SqlExpr) : SqlExpr → SqlExpr
  | seq parts => seq (parts ++ [last])
  | e => seq [e, last]

theorem unqualified_followedBy {a b : SqlExpr} (text : String)
    (h : a.unqualified lifted = b.unqualified lifted) :
    (a.followedBy text).unqualified lifted = (b.followedBy text).unqualified lifted := by
  have key : ∀ e : SqlExpr, (e.followedBy text).unqualified lifted =
      appended ((verbatim text).unqualified lifted) (e.unqualified lifted) := by
    intro e
    cases e with
    | seq parts => simp [followedBy, unqualified, unqualifiedAll_eq_map, appended]
    | verbatim s =>
      cases h : liftedValue? lifted s <;> simp [followedBy, unqualified, unqualifiedAll, appended, h]
    | _ => simp [followedBy, unqualified, unqualifiedAll, appended]
  rw [key, key, h]

theorem unqualified_negate {a b : SqlExpr} (h : a.unqualified lifted = b.unqualified lifted) :
    a.negate.unqualified lifted = b.negate.unqualified lifted := by
  have key : ∀ e : SqlExpr, e.negate.unqualified lifted = (e.unqualified lifted).negate := by
    intro e
    cases e with
    | binary op l r => cases h : op.negated? <;> simp [negate, unqualified, h]
    | leading op e => cases op <;> simp [negate, unqualified]
    | verbatim s => cases h : liftedValue? lifted s <;> simp [negate, unqualified, h]
    | _ => simp [negate, unqualified]
  rw [key, key, h]

/-! ## Columns are leaves -/

def columnName? : SqlExpr → Option String
  | columnRef _ name => some name
  | _ => none

mutual

theorem columns_eq_leaves : ∀ e : SqlExpr, e.columns = e.leaves.filterMap columnName?
  | seq es | list es | call _ es => columnsOfAll_eq_leaves es
  | paren e | column e _ _ | cast e _ | leading _ e | trailing _ e | exists_ e => columns_eq_leaves e
  | binary _ l r => by
    rw [columns, leaves, List.filterMap_append, columns_eq_leaves l, columns_eq_leaves r]
  | verbatim _ | constant _ | columnRef .. | property _ | stage _ => rfl

theorem columnsOfAll_eq_leaves : ∀ es : List SqlExpr, columnsOfAll es = (leavesOfAll es).filterMap columnName?
  | [] => rfl
  | e :: es => by
    rw [columnsOfAll, leavesOfAll, List.filterMap_append, columns_eq_leaves e, columnsOfAll_eq_leaves es]

end

theorem columns_negate (a : SqlExpr) : a.negate.columns = a.columns := by
  rw [columns_eq_leaves, leaves_negate, ← columns_eq_leaves]

theorem columns_followedBy (a : SqlExpr) (text : String) : (a.followedBy text).columns = a.columns := by
  rw [columns_eq_leaves, leaves_followedBy, ← columns_eq_leaves]

end SqlExpr

end Sql

namespace Sql

/-! ## What a stage reads and lists -/

namespace Stage

/-- The stage with the select list that is written for it. -/
def listed (s : Stage) : Stage := { s with projection := some (s.projection.getD s.pulledColumns) }

/-- The columns that a select list refers to. -/
def listReads (columns : List Column) : List String := columns.flatMap fun c => c.expr.columns

/-- The source columns that the written stage refers to, without those of a grouping. -/
def reads (s : Stage) : List String :=
  (s.where_.elim [] SqlExpr.columns) ++
    (s.orderBy.elim [] fun items => items.flatMap fun i => i.expr.columns) ++
    listReads (s.projection.getD s.pulledColumns)

end Stage

end Sql

end TreeSql
