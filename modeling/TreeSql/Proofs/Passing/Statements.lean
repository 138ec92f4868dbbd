import TreeSql.Proofs.Arena.Rendering
import TreeSql.Proofs.Meaning.Rows
import TreeSql.Proofs.Passing.Relations
import TreeSql.Proofs.References.Statement

/-
  TreeSql.Proofs.Passing.Statements — a stage that is left out in writing loses no columns.

  Where a stage adds nothing to its source and goes by the same alias, the source is written in its place
  (`FromItem.passed?`). Expressions around it go on naming columns by the alias and the name that the stage
  exposes. In a transparent state that is right (`lossless_of_transparent`): the columns that the stage exposes
  were all pulled under the alias, each under its own name, and have the value that they have in the source.

  Statements are compiled through transparent states, so this holds in every state on the way and in the last one
  (`lossless_build`).
-/
namespace TreeSql

open Sql

namespace Compile

variable {c : Context} {s : State}

/-! ## Statements -/

theorem preserves_queryStatement (query : Expr) : Preserves c s (queryStatement allParts query) fun _ _ => True := by
  unfold queryStatement
  split
  · refine preserves_bind preserves_nextAlias fun label t _ _ => ?_
    refine preserves_bind (preserves_rows _ label) fun node u _ hnode => ?_
    refine preserves_bind (preserves_openStage hnode) fun last _ _ hlast => ?_
    obtain ⟨rfl, hlast, -⟩ := hlast
    exact preserves_bind (preserves_getStage hlast) fun _ _ _ _ => preserves_pure trivial
  · exact preserves_fail _

theorem preserves_assignmentValues (assignments : List Assignment) :
    Preserves c s (assignmentValues allParts assignments) fun _ _ => True := by
  induction assignments generalizing s with
  | nil => exact preserves_pure trivial
  | cons a assignments ih =>
    refine preserves_bind (preserves_value a.property) fun _ _ _ _ => ?_
    refine preserves_bind (preserves_value a.value) fun _ _ _ _ => ?_
    exact preserves_bind ih fun _ _ _ _ => preserves_pure trivial

theorem preserves_predicateValue (predicate : Option Expr) :
    Preserves c s (predicateValue allParts predicate) fun _ _ => True := by
  cases predicate with
  | none => exact preserves_pure trivial
  | some e => exact preserves_bind (preserves_value e) fun _ _ _ _ => preserves_pure trivial

theorem preserves_returnedValues (returning : Option Expr) :
    Preserves c s (returnedValues allParts returning) fun _ _ => True := by
  have hvalues : PreservesParts ⟨value, rows⟩ := ⟨fun e _ _ => preserves_value e, fun e var _ _ => preserves_rows e var⟩
  unfold returnedValues
  split
  · exact preserves_pure trivial
  · split
    · exact preserves_fail _
    · split
      · exact preserves_bind (preserves_valuesOf hvalues _) fun _ _ _ _ => preserves_pure trivial
      · exact preserves_fail _
  · exact preserves_fail _

theorem preserves_statement (body : CommandBody) : Preserves c s (statement allParts body) fun _ _ => True := by
  cases body with
  | query e => exact preserves_queryStatement e
  | insert change =>
    refine preserves_lift_bind fun table => ?_
    refine preserves_bind (preserves_assignmentValues change.assignments) fun _ _ _ _ => ?_
    exact preserves_bind (preserves_returnedValues change.returning) fun _ _ _ _ => preserves_pure trivial
  | update change =>
    show Preserves c s (updateStatement allParts change) _
    unfold updateStatement
    split
    · exact preserves_fail _
    · refine preserves_lift_bind fun table => ?_
      refine preserves_bind (preserves_assignmentValues change.assignments) fun _ _ _ _ => ?_
      refine preserves_bind (preserves_predicateValue change.predicate) fun _ _ _ _ => ?_
      exact preserves_bind (preserves_returnedValues change.returning) fun _ _ _ _ => preserves_pure trivial
  | delete change =>
    refine preserves_lift_bind fun table => ?_
    exact preserves_bind (preserves_predicateValue change.predicate) fun _ _ _ _ => preserves_pure trivial

/-! ## Stages that are left out -/

/-- Under the alias, the columns that the stage exposes are those of its source with the same names and values. -/
structure Dispensable (label : String) (s : Stage) : Prop where
  entries : ∀ q ∈ s.pulled, q.source = label ∧ q.name = q.column
  outputs : s.pulled = s.outputNames.map fun column => ⟨label, column, column⟩
  cells {V : Type} (F : Functions V) (lifted : List Value) (r : Row V) :
    ∀ column ∈ s.outputNames, F.cell (F.exposed lifted s r) column = F.cell r column

/-- Each stage that is left out in writing, for its source by the same alias, is dispensable. -/
def Lossless (stages : Stages) : Prop :=
  ∀ (item inner : FromItem) (id : StageId), item.source = .stage id → item.passed? stages = some inner →
    inner.name = item.name ∧ Dispensable item.name (stages.get id)

theorem dispensable_of_plain {label : String} {s : Stage} (h : Plain label s) (hlist : s.projection = none) :
    Dispensable label s where
  entries := h
  outputs := by
    unfold Stage.outputNames
    rw [hlist, List.map_map]
    refine (List.map_id s.pulled).symm.trans (List.map_congr_left fun q hq => ?_)
    obtain ⟨source, column, name⟩ := q
    obtain ⟨rfl, rfl⟩ : source = label ∧ name = column := h _ hq
    rfl
  cells F lifted r column hcolumn := by
    unfold Stage.outputNames at hcolumn
    rw [hlist] at hcolumn
    exact F.cell_exposed h hlist hcolumn r

/-- A stage that is left out exposes the columns of the item that is written for it. -/
theorem exposes_of_passed {stages : Stages} {item inner : FromItem} {id : StageId} (hid : item.source = .stage id)
    (h : item.passed? stages = some inner) : Exposes (stages.get id) inner ∧ inner.name = item.name := by
  unfold FromItem.passed? at h
  rw [hid] at h
  obtain ⟨hpassed, hname⟩ := Option.filter_eq_some_iff.mp h
  refine ⟨?_, eq_of_beq (Bool.and_eq_true_iff.mp hname).2⟩
  unfold Stage.passedSource? at hpassed
  split at hpassed
  · rename_i inner' hfrom
    split at hpassed
    · rename_i hpass
      obtain rfl := Option.some.inj hpassed
      simp only [Stage.isPassthrough, Bool.and_eq_true, Option.isNone_iff_eq_none] at hpass
      exact ⟨hfrom, hpass.1.1.1.1.1.1⟩
    · cases hpassed
  · cases hpassed

theorem lossless_of_transparent (hs : Transparent s) : Lossless s.stages := by
  intro item inner id hid hpassed
  obtain ⟨hexposes, hname⟩ := exposes_of_passed hid hpassed
  exact ⟨hname, dispensable_of_plain (hname ▸ hs.passes id inner hexposes) hexposes.2⟩

/-- Whether the compilation of a body succeeds or fails, the stages that would be left out are dispensable before and
    after each of its steps, and at its end. -/
theorem lossless_build (settings : Settings) (body : CommandBody) :
    (∀ e ∈ (statement allParts body).events (contextOf settings body) {},
        Lossless e.before.stages ∧ Lossless e.after.stages) ∧
      ∀ r t, build settings body = .ok (r, t) → Lossless t.stages := by
  obtain ⟨hevents, hresult⟩ := preserves_statement body (c := contextOf settings body) transparent_empty
  refine ⟨fun e he => ?_, fun r t hbuild => lossless_of_transparent (hresult r t hbuild).1⟩
  exact ⟨lossless_of_transparent (hevents e he).before, lossless_of_transparent (hevents e he).after⟩

namespace Films

/-- Pairs of films of one rating. -/
def ratedAlike : Expr :=
  let id (x : String) : Expr := .property (.varRef x integer) "Id" integer
  let rating (x : String) : Expr := .property (.varRef x integer) "Rating" integer
  let pairs : Expr := .join .inner ⟨.scan films, "film"⟩ ⟨.scan films, "other"⟩
    (some (.comparison .equals (rating "film") (rating "other")))
  .project ⟨pairs, "pair"⟩ (.newInstance (.ofMembers [⟨"Film", integer⟩, ⟨"Other", integer⟩]) [id "film", id "other"])

/-- The table is written for the stage of each side, and has the columns that were pulled through the stage. -/
theorem ratedAlike_lossless : ∃ r t, build {} (.query ratedAlike) = .ok (r, t) ∧
    ∃ inner, FromItem.passed? t.stages { source := .stage 1, name := "film" } = some inner ∧
      (t.stages.get 1).outputNames = ["Rating", "Id"] ∧ inner.name = "film" ∧ Dispensable "film" (t.stages.get 1) := by
  obtain ⟨⟨r, t⟩, hrun, hpassed, houtputs⟩ : ∃ r : (Statement × List Member) × State,
      build {} (.query ratedAlike) = .ok r ∧
        (FromItem.passed? r.2.stages { source := .stage 1, name := "film" }).isSome = true ∧
        (r.2.stages.get 1).outputNames = ["Rating", "Id"] := exists_ok (by decide +kernel)
  obtain ⟨-, hlossless⟩ := lossless_build {} (.query ratedAlike)
  obtain ⟨inner, hinner⟩ := Option.isSome_iff_exists.mp hpassed
  exact ⟨r, t, hrun, inner, hinner, houtputs, hlossless r t hrun _ inner 1 rfl hinner⟩

end Films

end Compile

end TreeSql
