import Mathlib.Data.List.Forall2
import TreeSql.Compile.Statement

/-
  TreeSql.Proofs.Compile.StagesAlike — stages and statements that differ in their expressions only.

  The relation between the expressions is a parameter. Stages that are alike take the same clauses, expose
  the same names, and stay alike when the same clause is attached to both.
-/
namespace TreeSql

open Compile

namespace Sql

variable (R : SqlExpr → SqlExpr → Prop)

structure ColumnAlike (a b : Column) : Prop where
  expr : R a.expr b.expr
  name : a.name = b.name
  type : a.type = b.type

structure OrderAlike (a b : OrderItem) : Prop where
  expr : R a.expr b.expr
  ascending : a.ascending = b.ascending

inductive SourceAlike : Source → Source → Prop
  | stage (id : StageId) : SourceAlike (.stage id) (.stage id)
  | table (text : String) : SourceAlike (.table text) (.table text)
  | function {a b : SqlExpr} (h : R a b) : SourceAlike (.function a) (.function b)
  | rows {a b : SqlExpr} (h : R a b) : SourceAlike (.rows a) (.rows b)
  | setOp (kind : SetOpKind) (ids : List StageId) : SourceAlike (.setOp kind ids) (.setOp kind ids)

structure ItemAlike (a b : FromItem) : Prop where
  source : SourceAlike R a.source b.source
  name : a.name = b.name
  forceSubquery : a.forceSubquery = b.forceSubquery

inductive FromAlike : FromTree → FromTree → Prop
  | item {a b : FromItem} (h : ItemAlike R a b) : FromAlike (.item a) (.item b)
  | join {l l' r r' : FromTree} {c c' : Option SqlExpr} (hl : FromAlike l l') (kind : JoinKind)
      (hr : FromAlike r r') (hc : Option.Rel R c c') : FromAlike (.join l kind r c) (.join l' kind r' c')

structure StageAlike (s t : Stage) : Prop where
  distinct : s.distinct = t.distinct
  projection : Option.Rel (List.Forall₂ (ColumnAlike R)) s.projection t.projection
  pulled : s.pulled = t.pulled
  from_ : Option.Rel (FromAlike R) s.from_ t.from_
  where_ : Option.Rel R s.where_ t.where_
  groupBy : Option.Rel (List.Forall₂ R) s.groupBy t.groupBy
  orderBy : Option.Rel (List.Forall₂ (OrderAlike R)) s.orderBy t.orderBy
  skip : Option.Rel R s.skip t.skip
  limit : Option.Rel R s.limit t.limit

variable {R} {R' : SqlExpr → SqlExpr → Prop} {s t : Stage}

/-! ## Weaker and reflexive relations -/

theorem rel_mono {α : Type} {r r' : α → α → Prop} (h : ∀ a b, r a b → r' a b) {a b : Option α}
    (hab : Option.Rel r a b) : Option.Rel r' a b := by
  cases hab with
  | none => exact .none
  | some hab => exact .some (h _ _ hab)

theorem ColumnAlike.mono (h : ∀ a b, R a b → R' a b) {a b : Column} (hab : ColumnAlike R a b) :
    ColumnAlike R' a b := { hab with expr := h _ _ hab.expr }

theorem OrderAlike.mono (h : ∀ a b, R a b → R' a b) {a b : OrderItem} (hab : OrderAlike R a b) :
    OrderAlike R' a b := { hab with expr := h _ _ hab.expr }

theorem SourceAlike.mono (h : ∀ a b, R a b → R' a b) {a b : Source} (hab : SourceAlike R a b) :
    SourceAlike R' a b := by
  cases hab with
  | stage id => exact .stage id
  | table text => exact .table text
  | function hab => exact .function (h _ _ hab)
  | rows hab => exact .rows (h _ _ hab)
  | setOp kind ids => exact .setOp kind ids

theorem FromAlike.mono (h : ∀ a b, R a b → R' a b) {a b : FromTree} (hab : FromAlike R a b) :
    FromAlike R' a b := by
  induction hab with
  | item hab => exact .item { hab with source := hab.source.mono h }
  | join _ kind _ hc ihl ihr => exact .join ihl kind ihr (rel_mono h hc)

theorem StageAlike.mono (h : ∀ a b, R a b → R' a b) (hst : StageAlike R s t) : StageAlike R' s t where
  distinct := hst.distinct
  projection := rel_mono (fun _ _ => List.Forall₂.imp fun _ _ => .mono h) hst.projection
  pulled := hst.pulled
  from_ := rel_mono (fun _ _ => .mono h) hst.from_
  where_ := rel_mono h hst.where_
  groupBy := rel_mono (fun _ _ => List.Forall₂.imp h) hst.groupBy
  orderBy := rel_mono (fun _ _ => List.Forall₂.imp fun _ _ => .mono h) hst.orderBy
  skip := rel_mono h hst.skip
  limit := rel_mono h hst.limit

theorem rel_refl {α : Type} {r : α → α → Prop} (h : ∀ a, r a a) (a : Option α) : Option.Rel r a a := by
  cases a with
  | none => exact .none
  | some a => exact .some (h a)

theorem SourceAlike.refl (h : ∀ a, R a a) (a : Source) : SourceAlike R a a := by
  cases a with
  | stage id => exact .stage id
  | table text => exact .table text
  | function a => exact .function (h a)
  | rows a => exact .rows (h a)
  | setOp kind ids => exact .setOp kind ids

theorem FromAlike.refl (h : ∀ a, R a a) (a : FromTree) : FromAlike R a a := by
  induction a with
  | item a => exact .item ⟨.refl h _, rfl, rfl⟩
  | join _ kind _ _ ihl ihr => exact .join ihl kind ihr (rel_refl h _)

theorem StageAlike.refl (h : ∀ a, R a a) (s : Stage) : StageAlike R s s where
  distinct := rfl
  projection := rel_refl (fun _ => List.forall₂_same.mpr fun _ _ => ⟨h _, rfl, rfl⟩) _
  pulled := rfl
  from_ := rel_refl (.refl h) _
  where_ := rel_refl h _
  groupBy := rel_refl (fun _ => List.forall₂_same.mpr fun _ _ => h _) _
  orderBy := rel_refl (fun _ => List.forall₂_same.mpr fun _ _ => ⟨h _, rfl⟩) _
  skip := rel_refl h _
  limit := rel_refl h _

/-- The same with a source that stays a subquery. -/
theorem ItemAlike.forced {a b : FromItem} (h : ItemAlike R a b) :
    ItemAlike R { a with forceSubquery := true } { b with forceSubquery := true } :=
  { h with forceSubquery := rfl }

/-! ## What is seen of a stage -/

theorem isNone_congr {α : Type} {r : α → α → Prop} {a b : Option α} (h : Option.Rel r a b) :
    a.isNone = b.isNone := by
  cases h <;> rfl

theorem map_congr {α β : Type} {r : α → α → Prop} {f : α → β} (hf : ∀ a b, r a b → f a = f b) {as bs : List α}
    (h : List.Forall₂ r as bs) : as.map f = bs.map f := by
  induction h with
  | nil => rfl
  | cons hab _ ih => rw [List.map_cons, List.map_cons, hf _ _ hab, ih]

theorem StageAlike.outputNames (h : StageAlike R s t) : s.outputNames = t.outputNames := by
  have hprojection := h.projection
  unfold Stage.outputNames
  rw [h.pulled]
  generalize s.projection = a, t.projection = b at hprojection
  cases hprojection with
  | none => rfl
  | some hcolumns => exact map_congr (fun _ _ hc => hc.name) hcolumns

theorem StageAlike.resultColumns (h : StageAlike R s t) : resultColumns s = resultColumns t := by
  have hprojection := h.projection
  unfold Compile.resultColumns
  generalize s.projection = a, t.projection = b at hprojection
  cases hprojection with
  | none => rfl
  | some hcolumns => exact map_congr (fun _ _ hc => by rw [hc.name, hc.type]) hcolumns

theorem StageAlike.compatible (h : StageAlike R s t) (c : Clause) : c.compatible s = c.compatible t := by
  unfold Clause.compatible
  rw [isNone_congr h.projection, isNone_congr h.groupBy, isNone_congr h.orderBy, isNone_congr h.skip,
    isNone_congr h.limit, h.distinct]

/-! ## Attaching clauses -/

theorem stageAlike_empty : StageAlike R {} {} := ⟨rfl, .none, rfl, .none, .none, .none, .none, .none, .none⟩

theorem stageAlike_ofSource {a b : Source} (h : SourceAlike R a b) (name : String) :
    StageAlike R (.ofSource a name) (.ofSource b name) :=
  { stageAlike_empty with from_ := .some (.item ⟨h, rfl, rfl⟩) }

theorem StageAlike.expose (h : StageAlike R s t) (source : String) (columns : List String) :
    StageAlike R (s.expose source columns) (t.expose source columns) := by
  unfold Stage.expose
  induction columns generalizing s t with
  | nil => exact h
  | cons column columns ih =>
    rw [List.foldl_cons, List.foldl_cons]
    have hexposed : s.exposedName? source column = t.exposedName? source column := by
      unfold Stage.exposedName?
      rw [h.pulled]
    rw [hexposed]
    split
    · exact ih h
    · exact ih { h with pulled := by rw [h.pulled] }

theorem StageAlike.addCondition (hR : ∀ {a b a' b'}, R a a' → R b b' → R (.binary .and a b) (.binary .and a' b'))
    {a b : SqlExpr} (hab : R a b) (h : StageAlike R s t) : StageAlike R (addCondition a s) (addCondition b t) := by
  have hwhere := h.where_
  unfold Compile.addCondition
  generalize s.where_ = c, t.where_ = d at hwhere
  cases hwhere with
  | none => exact { h with where_ := .some hab }
  | some hcd => exact { h with where_ := .some (hR hcd hab) }

theorem StageAlike.addLimit (hR : ∀ {a b a' b'}, R a a' → R b b' → R (.call "LEAST" [a, b]) (.call "LEAST" [a', b']))
    {a b : SqlExpr} (hab : R a b) (h : StageAlike R s t) : StageAlike R (addLimit a s) (addLimit b t) := by
  have hlimit := h.limit
  unfold Compile.addLimit
  generalize s.limit = c, t.limit = d at hlimit
  cases hlimit with
  | none => exact { h with limit := .some hab }
  | some hcd => exact { h with limit := .some (hR hcd hab) }

end Sql

/-! ## Statements -/

/-- The columns and the values of assignments. -/
def AssignmentAlike (R : Sql.SqlExpr → Sql.SqlExpr → Prop) (a b : Sql.SqlExpr × Sql.SqlExpr) : Prop :=
  R a.1 b.1 ∧ R a.2 b.2

inductive StatementAlike (R : Sql.SqlExpr → Sql.SqlExpr → Prop) : Statement → Statement → Prop
  | select (root : Sql.StageId) : StatementAlike R (.select root) (.select root)
  | insert (table : String) {as bs : List (Sql.SqlExpr × Sql.SqlExpr)} (h : List.Forall₂ (AssignmentAlike R) as bs)
      {r r' : Option (List Sql.SqlExpr)} (hr : Option.Rel (List.Forall₂ R) r r') :
      StatementAlike R (.insert table as r) (.insert table bs r')
  | update (table : String) {as bs : List (Sql.SqlExpr × Sql.SqlExpr)} (h : List.Forall₂ (AssignmentAlike R) as bs)
      {c c' : Option Sql.SqlExpr} (hc : Option.Rel R c c') {r r' : Option (List Sql.SqlExpr)}
      (hr : Option.Rel (List.Forall₂ R) r r') : StatementAlike R (.update table as c r) (.update table bs c' r')
  | delete (table : String) {c c' : Option Sql.SqlExpr} (hc : Option.Rel R c c') :
      StatementAlike R (.delete table c) (.delete table c')

theorem StatementAlike.mono {R R' : Sql.SqlExpr → Sql.SqlExpr → Prop} (h : ∀ a b, R a b → R' a b) {s t : Statement}
    (hst : StatementAlike R s t) : StatementAlike R' s t := by
  have hassignments {as bs : List (Sql.SqlExpr × Sql.SqlExpr)} (hab : List.Forall₂ (AssignmentAlike R) as bs) :
      List.Forall₂ (AssignmentAlike R') as bs :=
    List.Forall₂.imp (fun _ _ hab => ⟨h _ _ hab.1, h _ _ hab.2⟩) hab
  have hreturned {a b : Option (List Sql.SqlExpr)} (hab : Option.Rel (List.Forall₂ R) a b) :
      Option.Rel (List.Forall₂ R') a b :=
    Sql.rel_mono (fun _ _ => List.Forall₂.imp h) hab
  cases hst with
  | select root => exact .select root
  | insert table has hr => exact .insert table (hassignments has) (hreturned hr)
  | update table has hc hr => exact .update table (hassignments has) (Sql.rel_mono h hc) (hreturned hr)
  | delete table hc => exact .delete table (Sql.rel_mono h hc)

end TreeSql
