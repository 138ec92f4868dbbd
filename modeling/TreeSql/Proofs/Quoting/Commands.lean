import TreeSql.Command.Sql
import TreeSql.Proofs.Quoting.Relations

/-
  TreeSql.Proofs.Quoting.Commands — no text of a command tree escapes its quotes.

  A statement that is compiled from a harmless tree is safe, and a safe statement reads. So the text of a
  command ends outside quotes with all parentheses closed, and begins no comment, whatever the names and
  strings of the tree hold (`closed_text`).
-/
namespace TreeSql

open Sql Postgres Quoting

/-! ## Statements -/

/-- Whether the texts and expressions of a statement are safe. -/
def Statement.Safe : Statement → Prop
  | select _ => True
  | insert table assignments returning =>
    Reads table ∧ (∀ a ∈ assignments, a.1.Safe ∧ a.2.Safe) ∧ ∀ es ∈ returning, ∀ e ∈ es, e.Safe
  | update table assignments where_ returning =>
    Reads table ∧ (∀ a ∈ assignments, a.1.Safe ∧ a.2.Safe) ∧ (∀ e ∈ where_, e.Safe) ∧ ∀ es ∈ returning, ∀ e ∈ es, e.Safe
  | delete table where_ => Reads table ∧ ∀ e ∈ where_, e.Safe

section

variable {regime : Regime} {stages : Stages} {assignments : List (SqlExpr × SqlExpr)}

theorem reads_exprs (hstages : stages.Safe) {es : List SqlExpr} (h : ∀ e ∈ es, e.Safe) :
    Reads ((SqlExpr.list es).render regime stages) := by
  have hlist : (SqlExpr.list es).Safe := SqlExpr.safeAll_iff.mpr h
  exact reads_render regime hstages hlist

theorem runs_insertedText (hstages : stages.Safe) (h : ∀ a ∈ assignments, a.1.Safe ∧ a.2.Safe) :
    Runs .any .any 0 0 (Statement.insertedText (SqlExpr.render regime stages) assignments) := by
  have hopen : Runs .any .clear 0 1 " (" := runs_fixed (by decide)
  have hvalues : Runs .any .clear 1 1 ") VALUES (" := runs_fixed (by decide)
  have hclose : Runs .any .any 1 0 ")" := runs_fixed (by decide)
  unfold Statement.insertedText
  split
  · exact runs_fixed (by decide)
  · have hcolumns : ∀ e ∈ assignments.map (·.1), e.Safe := List.forall_mem_map.mpr fun a ha => (h a ha).1
    have hnew : ∀ e ∈ assignments.map (·.2), e.Safe := List.forall_mem_map.mpr fun a ha => (h a ha).2
    exact (((hopen.append ((reads_exprs hstages hcolumns).deeper 1)).append hvalues).append
      ((reads_exprs hstages hnew).deeper 1)).append hclose

theorem runs_returning (hstages : stages.Safe) {returning : Option (List SqlExpr)}
    (h : ∀ es ∈ returning, ∀ e ∈ es, e.Safe) :
    Runs .any .any 0 0
      (clause " RETURNING " (returning.map fun es => (SqlExpr.list es).render regime stages)) := by
  refine runs_clause (runs_fixed (by decide)) fun text htext => ?_
  obtain ⟨es, hes, rfl⟩ := Option.map_eq_some_iff.mp htext
  exact reads_exprs hstages (h es hes)

theorem runs_where (hstages : stages.Safe) {where_ : Option SqlExpr} (h : ∀ e ∈ where_, e.Safe) :
    Runs .any .any 0 0 (clause " WHERE " (where_.map (SqlExpr.render regime stages))) := by
  refine runs_clause (runs_fixed (by decide)) fun text htext => ?_
  obtain ⟨e, he, rfl⟩ := Option.map_eq_some_iff.mp htext
  exact reads_render regime hstages (h e he)

theorem Statement.Safe.reads (hstages : stages.Safe) {statement : Statement} (h : statement.Safe) :
    Reads (statement.render regime stages) := by
  cases statement with
  | select root => exact reads_select regime hstages root
  | insert table assignments returning =>
    obtain ⟨htable, hassignments, hreturning⟩ := h
    have hwords : Runs .clear .clear 0 0 "INSERT INTO " := runs_fixed (by decide)
    exact ((hwords.append htable).append (runs_insertedText hstages hassignments)).append
      (runs_returning hstages hreturning)
  | update table assignments where_ returning =>
    obtain ⟨htable, hassignments, hwhere, hreturning⟩ := h
    have hwords : Runs .clear .clear 0 0 "UPDATE " := runs_fixed (by decide)
    have hset : Runs .any .clear 0 0 " SET " := runs_fixed (by decide)
    have hchanges : ∀ e ∈ assignments.map Statement.assignmentSql, e.Safe :=
      List.forall_mem_map.mpr fun a ha =>
        SqlExpr.safe_between (hassignments a ha).1 (hassignments a ha).2 (runs_fixed (by decide))
    exact ((((hwords.append htable).append hset).append (reads_exprs hstages hchanges)).append
      (runs_where hstages hwhere)).append (runs_returning hstages hreturning)
  | delete table where_ =>
    have hwords : Runs .clear .clear 0 0 "DELETE FROM " := runs_fixed (by decide)
    exact (hwords.append h.1).append (runs_where hstages h.2)

end

namespace Compile

/-! ## Queries -/

/-- A projection to declared columns is as harmless as the query. -/
theorem harmless_declaredColumns {query : Expr} (h : Harmless query) (var : String) :
    Harmless ((declaredColumns? query var).getD query) := by
  cases hroot : declaredColumns? query var with
  | none => exact h
  | some root =>
    obtain ⟨members, rfl⟩ := declaredColumns?_eq_some hroot
    have hrow : Expr.everyNodeOfAll isHarmless
        (members.map fun m => Expr.property (query.bind var).varRef m.name m.type) = true :=
      Expr.everyNodeOfAll_iff.mpr (List.forall_mem_map.mpr fun m _ => rfl)
    exact Bool.and_eq_true_iff.mpr ⟨rfl, Bool.and_eq_true_iff.mpr ⟨h, hrow⟩⟩

theorem makes_queryStatement {query : Expr} (h : Harmless query) :
    Makes (queryStatement allParts query) fun r => r.1.Safe := by
  unfold queryStatement
  split
  · refine makes_bind keepsSafe_nextAlias fun label _ => ?_
    refine makes_bind (keepsSafe_rows (harmless_declaredColumns h label) label) fun node _ => ?_
    refine makes_bind (keepsSafe_openStage node) fun last _ => makes_bind (makes_getStage _) fun stage _ => ?_
    exact makes_pure trivial
  · exact makes_fail

/-! ## Changes -/

theorem reads_targetTable {target : Binding} {table : String} (h : targetTable target = .ok table)
    (hharmless : Harmless target.expr) : Reads table := by
  unfold targetTable at h
  split at h
  · rename_i set hset
    cases h
    rw [hset] at hharmless
    have hquery : set.mapping.definingQuery.isNone = true := Expr.test_of_everyNode hharmless
    exact reads_tableSql (Option.isNone_iff_eq_none.mp hquery)
  · cases h

theorem makes_assignmentValues {assignments : List Assignment} (h : ∀ a ∈ assignments, a.everyNode isHarmless = true) :
    Makes (assignmentValues allParts assignments) fun values => ∀ a ∈ values, a.1.Safe ∧ a.2.Safe := by
  induction assignments with
  | nil => exact makes_pure (by simp)
  | cons a assignments ih =>
    rw [List.forall_mem_cons] at h
    obtain ⟨hproperty, hvalue⟩ := Bool.and_eq_true_iff.mp h.1
    refine makes_bind (makes_value hproperty) fun column hcolumn => makes_bind (makes_value hvalue) fun x hx => ?_
    exact makes_bind (ih h.2) fun rest hrest => makes_pure (List.forall_mem_cons.mpr ⟨⟨hcolumn, hx⟩, hrest⟩)

theorem makes_predicateValue {predicate : Option Expr} (h : predicate.all (·.everyNode isHarmless) = true) :
    Makes (predicateValue allParts predicate) fun where_ => ∀ e ∈ where_, e.Safe := by
  cases predicate with
  | none => exact makes_pure (by simp)
  | some e => exact makes_bind (makes_value h) fun x hx => makes_pure (by simpa using hx)

theorem makes_returnedValues {returning : Option Expr} (h : returning.all (·.everyNode isHarmless) = true) :
    Makes (returnedValues allParts returning) fun r => ∀ es ∈ r.1, ∀ e ∈ es, e.Safe := by
  unfold returnedValues
  split
  · exact makes_pure (by simp)
  · rename_i t args
    split
    · exact makes_fail
    · split
      · have hargs : ∀ e ∈ args, Harmless e := Expr.everyNodeOfAll_iff.mp h
        refine makes_bind (makes_valuesOf fun e he => makes_value (hargs e he)) fun es hes => makes_pure ?_
        simpa using hes
      · exact makes_fail
  · exact makes_fail

/-- A statement for a harmless body is safe, and so are its stages. -/
theorem makes_statement {body : CommandBody} (h : body.everyNode isHarmless = true) :
    Makes (statement allParts body) fun r => r.1.Safe := by
  have hassigned {assignments : List Assignment} (h : assignments.all (·.everyNode isHarmless) = true) :
      ∀ a ∈ assignments, a.everyNode isHarmless = true := List.all_eq_true.mp h
  cases body with
  | query e => exact makes_queryStatement h
  | insert c =>
    obtain ⟨h, hreturning⟩ := Bool.and_eq_true_iff.mp h
    obtain ⟨htarget, hassignments⟩ := Bool.and_eq_true_iff.mp h
    refine makes_bind (makes_lift fun _ htable => reads_targetTable htable htarget) fun table htable => ?_
    refine makes_bind (makes_assignmentValues (hassigned hassignments)) fun values hvalues => ?_
    exact makes_bind (makes_returnedValues hreturning) fun r hr => makes_pure ⟨htable, hvalues, hr⟩
  | update c =>
    obtain ⟨h, hreturning⟩ := Bool.and_eq_true_iff.mp h
    obtain ⟨h, hpredicate⟩ := Bool.and_eq_true_iff.mp h
    obtain ⟨htarget, hassignments⟩ := Bool.and_eq_true_iff.mp h
    show Makes (updateStatement allParts c) _
    unfold updateStatement
    split
    · exact makes_fail
    · refine makes_bind (makes_lift fun _ htable => reads_targetTable htable htarget) fun table htable => ?_
      refine makes_bind (makes_assignmentValues (hassigned hassignments)) fun values hvalues => ?_
      refine makes_bind (makes_predicateValue hpredicate) fun where_ hwhere => ?_
      exact makes_bind (makes_returnedValues hreturning) fun r hr => makes_pure ⟨htable, hvalues, hwhere, hr⟩
  | delete c =>
    obtain ⟨htarget, hpredicate⟩ := Bool.and_eq_true_iff.mp h
    refine makes_bind (makes_lift fun _ htable => reads_targetTable htable htarget) fun table htable => ?_
    exact makes_bind (makes_predicateValue hpredicate) fun where_ hwhere => makes_pure ⟨htable, hwhere⟩

end Compile

/-! ## Commands -/

open Compile

/-- The text of a command is closed: it ends outside names and strings with all parentheses closed, none of
    them is closed before it is opened, and no comment begins outside names and strings. -/
theorem CommandTree.closed_text {tree : CommandTree} (h : tree.body.everyNode isHarmless = true) {settings : Settings}
    {command : Command} (hcommand : tree.toCommand settings = .ok command) : Closed command.text := by
  obtain ⟨⟨⟨statement, columns⟩, state⟩, hbuild, hcommand⟩ := ok_of_bind hcommand
  obtain ⟨declared, -, hcommand⟩ := ok_of_bind hcommand
  cases hcommand
  have hempty : Stages.Safe [] := fun _ hs => by cases hs
  obtain ⟨hstages, hsafe⟩ := makes_statement h (contextOf settings tree.body) {} (statement, columns) state hempty hbuild
  have hstatement : statement.Safe := hsafe
  exact (hstatement.reads hstages).closed

/-- Names, a string, a pattern and the name of a type that try to end what they stand in. -/
def hostileTree : CommandTree :=
  let text : DataType := .ofKind .string
  let set : EntitySet := { name := "t\"; --", container := "(", columns := [⟨"a\"/*", text⟩] }
  let column : Expr := .property (.varRef "v\")" text) "a\"/*" text
  let cast : Expr := .storeCall "cast" [column, .constant (.string "numeric (10, 2)")] text
  .ofQuery (.filter ⟨.scan set, "v\")"⟩ (.and (.like cast (.constant (.string "\\'; --")))
    (.comparison .equals (.call { space := "s", name := "f\"(" } [column] text)
      (.arithmetic .minus [.constant (.int32 1), .constant (.int32 (-1))]))))

theorem hostileTree_closed : hostileTree.body.everyNode isHarmless = true ∧
    ∃ command, hostileTree.toCommand {} = .ok command ∧ Closed command.text := by
  have hharmless : hostileTree.body.everyNode isHarmless = true := by decide
  obtain ⟨command, hcommand, -⟩ : ∃ command, hostileTree.toCommand {} = .ok command ∧ command.parameters = [] :=
    exists_ok (by decide +kernel)
  exact ⟨hharmless, command, hcommand, CommandTree.closed_text hharmless hcommand⟩

end TreeSql
