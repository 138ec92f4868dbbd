import TreeSql.Proofs.Quoting.Expressions

/-
  TreeSql.Proofs.Quoting.Stages — stages that read.

  A stage is safe if its expressions and the texts of its sources are. It is written with the stages inside
  it, so its text reads if all stages are safe (`reads_select`), by induction on the depth to which they
  are written.
-/
namespace TreeSql.Sql

open Quoting

/-! ## Sources -/

def Source.Safe : Source → Prop
  | .table text => Reads text
  | .function e | .rows e => e.Safe
  | .stage _ | .setOp .. => True

def FromTree.Safe : FromTree → Prop
  | .item i => i.source.Safe
  | .join l _ r condition => l.Safe ∧ r.Safe ∧ ∀ e ∈ condition, e.Safe

/-- Whether the texts and expressions in all clauses are safe. Names are quoted wherever they stand. -/
structure Stage.Safe (s : Stage) : Prop where
  projection : ∀ columns ∈ s.projection, ∀ c ∈ columns, c.expr.Safe
  from_ : ∀ f ∈ s.from_, f.Safe
  where_ : ∀ e ∈ s.where_, e.Safe
  groupBy : ∀ es ∈ s.groupBy, ∀ e ∈ es, e.Safe
  orderBy : ∀ items ∈ s.orderBy, ∀ i ∈ items, i.expr.Safe
  skip : ∀ e ∈ s.skip, e.Safe
  limit : ∀ e ∈ s.limit, e.Safe

theorem stage_safe_empty : Stage.Safe {} := by constructor <;> simp

theorem Source.Safe.stage {source : Source} (h : source.Safe) (name : String) : (Stage.ofSource source name).Safe := by
  constructor <;> simp [Stage.ofSource, FromTree.Safe, h]

def Stages.Safe (stages : Stages) : Prop := ∀ s ∈ stages, s.Safe

theorem Stages.Safe.get {stages : Stages} (h : stages.Safe) (id : StageId) : (stages.get id).Safe := by
  rw [Stages.get]
  cases hs : stages[id]? with
  | none => exact stage_safe_empty
  | some s => exact h s (List.mem_of_getElem? hs)

section

variable {regime : Regime} {stages : Stages} {select : StageId → String}

theorem Source.Safe.reads {source : Source} (h : source.Safe) (hselect : ∀ id, Reads (select id)) :
    Reads (source.renderWith regime select) := by
  cases source with
  | stage id => exact reads_inParens (hselect id)
  | table text => exact h
  | function e | rows e =>
    have he : e.Safe := h
    exact he.reads hselect none
  | setOp kind operands =>
    have hkeyword : Runs .any .clear 0 0 (setOpKeyword kind) := by cases kind <;> exact runs_fixed (by decide)
    refine reads_inParens (reads_intercalate hkeyword fun s hs => ?_)
    obtain ⟨id, -, rfl⟩ := List.mem_map.mp hs
    exact reads_inParens (hselect id)

/-- Taking a source out of stages that only pass it through finds a safe one. -/
theorem safe_resolve (hstages : stages.Safe) (fuel : Nat) {item : FromItem} (h : item.source.Safe) :
    (item.resolve stages fuel).source.Safe := by
  induction fuel generalizing item with
  | zero => exact h
  | succ fuel ih =>
    rw [FromItem.resolve]
    split
    · rename_i id _
      split
      · rename_i inner hinner
        split
        · refine ih ?_
          have hsource : FromTree.Safe (.item inner) := by
            unfold Stage.passedSource? at hinner
            split at hinner
            · rename_i i hfrom
              split at hinner
              · obtain rfl := Option.some.inj hinner
                exact (hstages.get id).from_ _ hfrom
              · cases hinner
            · cases hinner
          exact hsource
        · exact h
      · exact h
    · exact h

theorem reads_item (hstages : stages.Safe) (hselect : ∀ id, Reads (select id)) {item : FromItem}
    (h : item.source.Safe) : Reads (item.renderWith regime stages select) := by
  have hsource : Reads ((item.resolve stages stages.length).source.renderWith regime select) :=
    (safe_resolve hstages stages.length h).reads hselect
  exact hsource.append (runs_asName _)

theorem runs_joinCondition (kind : JoinKind) {condition : Option String} (h : ∀ s ∈ condition, Reads s) :
    Runs .any .any 0 0 (joinCondition kind condition) := by
  have hon : Runs .any .clear 0 0 " ON " := runs_fixed (by decide)
  have htrue : Runs .any .any 0 0 " ON TRUE" := runs_fixed (by decide)
  unfold joinCondition
  split
  · exact runs_empty
  · exact runs_empty
  · exact htrue
  · exact htrue
  · exact hon.append (h _ rfl)

theorem FromTree.Safe.reads (hstages : stages.Safe) (hselect : ∀ id, Reads (select id)) {f : FromTree} (h : f.Safe) :
    Reads (f.renderWith regime stages select) := by
  induction f with
  | item i => exact reads_item hstages hselect h
  | join l kind r condition ihl ihr =>
    obtain ⟨hl, hr, hcondition⟩ := h
    have hkeyword : Runs .any .clear 0 0 (joinKeyword kind) := by cases kind <;> exact runs_fixed (by decide)
    rw [FromTree.renderWith]
    refine (((ihl hl).append hkeyword).append (reads_ite (reads_inParens (ihr hr)) (ihr hr))).append
      (runs_joinCondition kind fun s hs => ?_)
    obtain ⟨e, he, rfl⟩ := Option.map_eq_some_iff.mp hs
    exact (hcondition e he).reads hselect none

/-! ## Stages -/

theorem reads_pulled (p : Pulled) : Reads p.render := by
  have hpoint : Runs .any .clear 0 0 "." := runs_fixed (by decide)
  exact (((reads_identifier _).append hpoint).append (reads_identifier _)).append (runs_optional (runs_asName _))

theorem runs_clause {keyword : String} (hkeyword : Runs .any .clear 0 0 keyword) {text : Option String}
    (h : ∀ s ∈ text, Reads s) : Runs .any .any 0 0 (clause keyword text) := by
  cases text with
  | none => exact runs_empty
  | some s => exact hkeyword.append (h s rfl)

theorem reads_selectList {s : Stage} (h : s.Safe) (hselect : ∀ id, Reads (select id)) :
    Reads (s.selectList regime select) := by
  unfold Stage.selectList
  split
  · rename_i columns hcolumns
    refine reads_list fun c hc => ?_
    have hcolumn : (SqlExpr.column c.expr c.name c.type).Safe := h.projection columns hcolumns c hc
    exact hcolumn.reads hselect none
  · exact reads_ite (runs_fixed (by decide)) (reads_list fun p _ => reads_pulled p)

theorem Stage.Safe.reads (hstages : stages.Safe) (hselect : ∀ id, Reads (select id)) {s : Stage} (h : s.Safe) :
    Reads (s.renderWith regime stages select) := by
  have hexpr {e : Option SqlExpr} (he : ∀ e' ∈ e, e'.Safe) :
      ∀ text ∈ e.map (fun e => e.renderWith regime select none), Reads text := by
    intro text htext
    obtain ⟨e', he', rfl⟩ := Option.map_eq_some_iff.mp htext
    exact (he e' he').reads hselect none
  have hfrom : ∀ text ∈ s.from_.map (·.renderWith regime stages select), Reads text := by
    intro text htext
    obtain ⟨f, hf, rfl⟩ := Option.map_eq_some_iff.mp htext
    exact (h.from_ f hf).reads hstages hselect
  have hgroup : ∀ text ∈ s.groupKeys?.map (fun ks => ", ".intercalate (ks.map fun e => e.renderWith regime select none)),
      Reads text := by
    intro text htext
    obtain ⟨ks, hks, rfl⟩ := Option.map_eq_some_iff.mp htext
    have hks : s.groupBy = some ks := by
      unfold Stage.groupKeys? at hks
      split at hks
      · rwa [← hks]
      · cases hks
    exact reads_list fun e he => (h.groupBy ks hks e he).reads hselect none
  have horder : ∀ text ∈ s.orderBy.map (fun items => ", ".intercalate (items.map fun i =>
      i.expr.renderWith regime select none ++ (if i.ascending then " ASC" else " DESC"))), Reads text := by
    intro text htext
    obtain ⟨items, hitems, rfl⟩ := Option.map_eq_some_iff.mp htext
    refine reads_list fun i hi => ((h.orderBy items hitems i hi).reads hselect none).append ?_
    split <;> exact runs_fixed (by decide)
  have hselectWord : Runs .clear .clear 0 0 "SELECT " := runs_fixed (by decide)
  have hdistinct : Runs .clear .clear 0 0 (if s.distinct then "DISTINCT " else "") := by
    split <;> exact runs_fixed (by decide)
  have hselectList : Reads (s.selectList regime select) := reads_selectList h hselect
  have hlist := (hselectWord.append hdistinct).append hselectList
  exact (((((hlist.append (runs_clause (runs_fixed (by decide)) hfrom)).append
    (runs_clause (runs_fixed (by decide)) (hexpr h.where_))).append
    (runs_clause (runs_fixed (by decide)) hgroup)).append
    (runs_clause (runs_fixed (by decide)) horder)).append
    (runs_clause (runs_fixed (by decide)) (hexpr h.skip))).append
    (runs_clause (runs_fixed (by decide)) (hexpr h.limit))

/-- Stages read to any depth: what is too deep is left out. -/
theorem reads_selectTo (regime : Regime) (hstages : stages.Safe) (depth : Nat) (id : StageId) :
    Reads (stages.selectTo regime depth id) := by
  induction depth generalizing id with
  | zero => exact runs_empty.toAny
  | succ depth ih => exact (hstages.get id).reads hstages ih

theorem reads_select (regime : Regime) (hstages : stages.Safe) (id : StageId) : Reads (stages.select regime id) :=
  reads_selectTo regime hstages stages.length id

theorem reads_render (regime : Regime) (hstages : stages.Safe) {e : SqlExpr} (h : e.Safe) :
    Reads (e.render regime stages) := h.reads (reads_select regime hstages) none

end

end TreeSql.Sql
