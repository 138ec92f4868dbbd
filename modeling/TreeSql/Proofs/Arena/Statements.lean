import TreeSql.Compile.Statement
import TreeSql.Proofs.Arena.Relations

/-
  TreeSql.Proofs.Arena.Statements — statements are compiled through well-formed states.

  A statement refers to stages of its compilation, and only to those (`Statement.Fits`).
-/
namespace TreeSql

open Sql Compile

/-- The stages have the property, and the texts in expressions are allowed. -/
def Statement.Fits (L : String → Prop) (I : StageId → Prop) : Statement → Prop
  | .select root => I root
  | .insert _ as r => (∀ a ∈ as, a.1.Fits L I ∧ a.2.Fits L I) ∧ ∀ es ∈ r, ∀ e ∈ es, e.Fits L I
  | .update _ as c r =>
    (∀ a ∈ as, a.1.Fits L I ∧ a.2.Fits L I) ∧ (∀ e ∈ c, e.Fits L I) ∧ ∀ es ∈ r, ∀ e ∈ es, e.Fits L I
  | .delete _ c => ∀ e ∈ c, e.Fits L I

theorem Statement.Fits.mono {L : String → Prop} {I J : StageId → Prop} {s : Statement} (h : s.Fits L I)
    (hI : ∀ id, I id → J id) : s.Fits L J := by
  have hassignments {as : List (SqlExpr × SqlExpr)} (h : ∀ a ∈ as, a.1.Fits L I ∧ a.2.Fits L I) :
      ∀ a ∈ as, a.1.Fits L J ∧ a.2.Fits L J := fun a ha => ⟨(h a ha).1.mono hI, (h a ha).2.mono hI⟩
  have hreturning {r : Option (List SqlExpr)} (h : ∀ es ∈ r, ∀ e ∈ es, e.Fits L I) : ∀ es ∈ r, ∀ e ∈ es, e.Fits L J :=
    fun es hes e he => (h es hes e he).mono hI
  cases s with
  | select root => exact hI root h
  | insert table as r => exact ⟨hassignments h.1, hreturning h.2⟩
  | update table as c r => exact ⟨hassignments h.1, fun e he => (h.2.1 e he).mono hI, hreturning h.2.2⟩
  | delete table c => exact fun e he => SqlExpr.Fits.mono (h e he) hI

namespace Compile

variable {L : String → Prop} {test : Expr → Bool} {s t : State} {c : Context}

/-! ## Queries -/

theorem everyNode_bind (hL : Permits L test) {query : Expr} (h : query.everyNode test = true) (var : String) :
    ((declaredColumns? query var).getD query).everyNode test = true := by
  cases hroot : declaredColumns? query var with
  | none => exact h
  | some root =>
    obtain ⟨members, rfl⟩ := declaredColumns?_eq_some hroot
    have hother (e : Expr) (h : ∀ name t, e ≠ .paramRef name t) : test e = true := hL.other e h
    have hargs : Expr.everyNodeOfAll test
        (members.map fun m => Expr.property (query.bind var).varRef m.name m.type) = true := by
      refine Expr.everyNodeOfAll_iff.mpr (List.forall_mem_map.mpr fun m _ => ?_)
      simp [Expr.everyNode, hother, BindingOf.varRef]
    have hinput : (query.bind var).expr.everyNode test = true := h
    simp [Expr.everyNode, hother, hargs, hinput]

theorem proceeds_queryStatement (hL : Permits L test) (hs : Here L c s) {query : Expr}
    (h : query.everyNode test = true) :
    Proceeds c s (queryStatement allParts query) fun r t => Standing L s t ∧ r.1.Fits L (Added s t) := by
  unfold queryStatement
  split
  · refine along_bind (proceeds_nextAlias hs) fun label t ht => ?_
    refine along_bind (builds_rows hL (hs.later ht) (everyNode_bind hL h label) label) fun node u hnode => ?_
    obtain ⟨hu, hnode⟩ := hnode
    refine along_bind (proceeds_openStage (hs.later ht) hu hnode) fun last _ hlast => ?_
    obtain ⟨rfl, hlast⟩ := hlast
    refine proceeds_getStage_bind (hs.later (ht.trans hu)) hlast.2 (along_pure ⟨ht.trans hu, ?_⟩)
    exact Standing.added_second ht.toKept hlast
  · exact along_fail _

/-! ## Changes -/

theorem proceeds_assignmentValues (hL : Permits L test) (hs : Here L c s) {assignments : List Assignment}
    (h : ∀ a ∈ assignments, a.everyNode test = true) :
    Proceeds c s (assignmentValues allParts assignments) fun values t =>
      Standing L s t ∧ ∀ a ∈ values, a.1.Fits L (Added s t) ∧ a.2.Fits L (Added s t) := by
  induction assignments generalizing s with
  | nil => exact along_pure ⟨.refl L s, by simp⟩
  | cons a assignments ih =>
    rw [List.forall_mem_cons] at h
    obtain ⟨hproperty, hvalue⟩ := Bool.and_eq_true_iff.mp h.1
    refine proceeds_value_bind (builds_value hL hs hproperty) fun column t ht hcolumn => ?_
    refine proceeds_value_bind (builds_value hL (hs.later ht) hvalue) fun x u hu hx => ?_
    have hboth := ht.trans hu
    refine along_bind (ih (hs.later hboth) h.2) fun rest v hv => along_pure ⟨hboth.trans hv.1, ?_⟩
    refine List.forall_mem_cons.mpr ⟨⟨?_, ?_⟩, fun a ha => ?_⟩
    · exact hcolumn.mono fun _ => Standing.added_first (hu.trans hv.1).toKept
    · exact hx.mono fun _ hj => Standing.added_first hv.1.toKept (Standing.added_second ht.toKept hj)
    · have hadded (j : StageId) (hj : Added u v j) : Added s v j := Standing.added_second hboth.toKept hj
      exact ⟨(hv.2 a ha).1.mono hadded, (hv.2 a ha).2.mono hadded⟩

theorem proceeds_predicateValue (hL : Permits L test) (hs : Here L c s) {predicate : Option Expr}
    (h : predicate.all (·.everyNode test) = true) :
    Proceeds c s (predicateValue allParts predicate) fun where_ t =>
      Standing L s t ∧ ∀ e ∈ where_, e.Fits L (Added s t) := by
  cases predicate with
  | none => exact along_pure ⟨.refl L s, by simp⟩
  | some e => exact proceeds_value_bind (builds_value hL hs h) fun x t ht hx => along_pure ⟨ht, by simpa using hx⟩

theorem proceeds_returnedValues (hL : Permits L test) (hs : Here L c s) {returning : Option Expr}
    (h : returning.all (·.everyNode test) = true) :
    Proceeds c s (returnedValues allParts returning) fun r t =>
      Standing L s t ∧ ∀ es ∈ r.1, ∀ e ∈ es, e.Fits L (Added s t) := by
  unfold returnedValues
  split
  · exact along_pure ⟨.refl L s, by simp⟩
  · rename_i type args
    split
    · exact along_fail _
    · split
      · have hrow : (Expr.newInstance type args).everyNode test = true := h
        rw [Expr.everyNode, Bool.and_eq_true] at hrow
        have hvalues : BuildsParts L test ⟨value, rows⟩ :=
          ⟨fun _ he _ _ hs => builds_value hL hs he, fun _ var he _ _ hs => builds_rows hL hs he var⟩
        refine along_bind (proceeds_valuesOf hvalues hL hs (Expr.everyNodeOfAll_iff.mp hrow.2)) fun es t ht => ?_
        exact along_pure ⟨ht.1, by simpa using ht.2⟩
      · exact along_fail _
  · exact along_fail _

theorem proceeds_insertStatement (hL : Permits L test) (hs : Here L c s) {change : Insert}
    (hassignments : ∀ a ∈ change.assignments, a.everyNode test = true)
    (hreturning : change.returning.all (·.everyNode test) = true) :
    Proceeds c s (insertStatement allParts change) fun r t => Standing L s t ∧ r.1.Fits L (Added s t) := by
  refine along_lift_bind fun table _ => ?_
  refine along_bind (proceeds_assignmentValues hL hs hassignments) fun values t ht => ?_
  refine along_bind (proceeds_returnedValues hL (hs.later ht.1) hreturning) fun r u hu => ?_
  have hfirst (j : StageId) (hj : Added s t j) : Added s u j := Standing.added_first hu.1.toKept hj
  refine along_pure ⟨ht.1.trans hu.1, fun a ha => ?_, fun es hes e he => ?_⟩
  · exact ⟨(ht.2 a ha).1.mono hfirst, (ht.2 a ha).2.mono hfirst⟩
  · exact (hu.2 es hes e he).mono fun _ => Standing.added_second ht.1.toKept

theorem proceeds_updateStatement (hL : Permits L test) (hs : Here L c s) {change : Update}
    (hassignments : ∀ a ∈ change.assignments, a.everyNode test = true)
    (hpredicate : change.predicate.all (·.everyNode test) = true)
    (hreturning : change.returning.all (·.everyNode test) = true) :
    Proceeds c s (updateStatement allParts change) fun r t => Standing L s t ∧ r.1.Fits L (Added s t) := by
  unfold updateStatement
  split
  · exact along_fail _
  · refine along_lift_bind fun table _ => ?_
    refine along_bind (proceeds_assignmentValues hL hs hassignments) fun values t ht => ?_
    refine along_bind (proceeds_predicateValue hL (hs.later ht.1) hpredicate) fun where_ u hu => ?_
    have hboth := ht.1.trans hu.1
    refine along_bind (proceeds_returnedValues hL (hs.later hboth) hreturning) fun r v hv => ?_
    have hfirst (j : StageId) (hj : Added s t j) : Added s v j := Standing.added_first (hu.1.trans hv.1).toKept hj
    refine along_pure ⟨hboth.trans hv.1, fun a ha => ?_, fun e he => ?_, fun es hes e he => ?_⟩
    · exact ⟨(ht.2 a ha).1.mono hfirst, (ht.2 a ha).2.mono hfirst⟩
    · exact (hu.2 e he).mono fun _ hj => Standing.added_first hv.1.toKept (Standing.added_second ht.1.toKept hj)
    · exact (hv.2 es hes e he).mono fun _ => Standing.added_second hboth.toKept

/-! ## Bodies -/

theorem proceeds_statement (hL : Permits L test) (hs : Here L c s) {body : CommandBody}
    (h : body.everyNode test = true) :
    Proceeds c s (statement allParts body) fun r t => Standing L s t ∧ r.1.Fits L (Added s t) := by
  cases body with
  | query e => exact proceeds_queryStatement hL hs h
  | insert change =>
    obtain ⟨h, hreturning⟩ := Bool.and_eq_true_iff.mp h
    obtain ⟨-, hassignments⟩ := Bool.and_eq_true_iff.mp h
    exact proceeds_insertStatement hL hs (List.all_eq_true.mp hassignments) hreturning
  | update change =>
    obtain ⟨h, hreturning⟩ := Bool.and_eq_true_iff.mp h
    obtain ⟨h, hpredicate⟩ := Bool.and_eq_true_iff.mp h
    obtain ⟨-, hassignments⟩ := Bool.and_eq_true_iff.mp h
    exact proceeds_updateStatement hL hs (List.all_eq_true.mp hassignments) hpredicate hreturning
  | delete change =>
    obtain ⟨-, hpredicate⟩ := Bool.and_eq_true_iff.mp h
    refine along_lift_bind fun table _ => ?_
    refine along_bind (proceeds_predicateValue hL hs hpredicate) fun where_ t ht => ?_
    exact along_pure ⟨ht.1, ht.2⟩

end Compile

end TreeSql
