import TreeSql.Proofs.Arena.Statements

/-
  TreeSql.Proofs.Arena.Rendering — looking columns up and writing a statement come to an end.

  A column is looked up along joins with ever smaller numbers (`pullFrom_eq`). Writing goes from a stage to the
  stages inside it, along a rank that falls, and is bounded by the number of stages (`Stages.Renders`): the
  bound is never met, and no stage is asked for that does not exist.

  The result is `wellFormed_build`, for all steps that a compilation takes.
-/
namespace TreeSql

namespace Sql

variable {stages : Stages} {I : StageId → Prop} {f g : StageId → String} {regime : Regime}

/-! ## What is asked for in writing -/

mutual

theorem SqlExpr.renderWith_congr : ∀ {e : SqlExpr} (follower : Option Operator),
    (∀ id, .stage id ∈ e.leaves → f id = g id) → e.renderWith regime f follower = e.renderWith regime g follower
  | .verbatim _, _, _ | .constant _, _, _ | .columnRef .., _, _ | .property _, _, _ => rfl
  | .seq _, _, h => congrArg String.join (renderAll_congr h)
  | .list _, _, h => congrArg (", ".intercalate ·) (renderAll_congr h)
  | .call name _, _, h => congrArg (fun texts => name ++ inParens (", ".intercalate texts)) (renderAll_congr h)
  | .paren e, _, h | .column e _ _, _, h | .cast e _, _, h | .exists_ e, _, h => by
    simp only [SqlExpr.renderWith, SqlExpr.renderWith_congr (e := e) none h]
  | .binary op l r, follower, h => by
    have hl (follower : Option Operator) :=
      SqlExpr.renderWith_congr (e := l) follower fun id hid => h id (List.mem_append_left _ hid)
    have hr (follower : Option Operator) :=
      SqlExpr.renderWith_congr (e := r) follower fun id hid => h id (List.mem_append_right _ hid)
    simp only [SqlExpr.renderWith, hl, hr]
  | .leading _ e, follower, h | .trailing _ e, follower, h => by
    have he (follower : Option Operator) := SqlExpr.renderWith_congr (e := e) follower h
    simp only [SqlExpr.renderWith, he]
  | .stage id, _, h => h id (.head _)

theorem renderAll_congr : ∀ {es : List SqlExpr}, (∀ id, .stage id ∈ SqlExpr.leavesOfAll es → f id = g id) →
    renderAll regime f es = renderAll regime g es
  | [], _ => rfl
  | e :: es, h => by
    rw [renderAll, renderAll, SqlExpr.renderWith_congr none fun id hid => h id (List.mem_append_left _ hid),
      renderAll_congr fun id hid => h id (List.mem_append_right _ hid)]

end

/-- Stages with the property refer to stages with the property only. -/
def Stages.Sealed (stages : Stages) (I : StageId → Prop) : Prop := ∀ i j, I i → stages.Refers i j → I j

/-- The source of a pass-through stage that is written in its place. -/
def FromItem.passed? (stages : Stages) (item : FromItem) : Option FromItem :=
  match item.source with
  | .stage id => (stages.get id).passedSource?.filter fun inner => !item.forceSubquery && inner.name == item.name
  | _ => none

theorem FromItem.resolve_succ (item : FromItem) (fuel : Nat) :
    item.resolve stages (fuel + 1) = match item.passed? stages with
      | some inner => inner.resolve stages fuel
      | none => item := by
  unfold passed?
  rw [resolve]
  cases item.source with
  | stage id =>
    dsimp only
    cases (stages.get id).passedSource? with
    | none => rfl
    | some inner =>
      rw [Option.filter_some]
      dsimp only
      cases !item.forceSubquery && inner.name == item.name <;> rfl
  | _ => rfl

theorem FromItem.resolve_none {item : FromItem} (h : item.passed? stages = none) (fuel : Nat) :
    item.resolve stages fuel = item := by
  cases fuel with
  | zero => rfl
  | succ fuel => rw [resolve_succ, h]

theorem FromItem.inside_passed {item inner : FromItem} (h : item.passed? stages = some inner) :
    ∃ id, item.source = .stage id ∧ ∀ j ∈ inner.source.inside, stages.Refers id j := by
  unfold passed? at h
  split at h
  · rename_i id hid
    refine ⟨id, hid, fun j hj => List.mem_append_left _ ?_⟩
    have hpassed := (Option.filter_eq_some_iff.mp h).1
    unfold Stage.passedSource? at hpassed
    split at hpassed
    · rename_i inner' hfrom
      split at hpassed
      · cases hpassed
        rw [hfrom]
        exact hj
      · cases hpassed
    · cases hpassed
  · cases h

theorem FromItem.inside_resolve (hsealed : stages.Sealed I) (fuel : Nat) {item : FromItem}
    (h : ∀ id ∈ item.source.inside, I id) : ∀ id ∈ (item.resolve stages fuel).source.inside, I id := by
  induction fuel generalizing item with
  | zero => exact h
  | succ fuel ih =>
    rw [resolve_succ]
    split
    · rename_i inner hinner
      obtain ⟨id, hid, hinside⟩ := inside_passed hinner
      have hin : I id := h id (by rw [hid]; exact .head _)
      exact ih fun j hj => hsealed id j hin (hinside j hj)
    · exact h

/-! ### Clauses -/

/-- Both ways to write stages give the same texts for the expressions of the clauses. -/
def Stage.SameTexts (regime : Regime) (f g : StageId → String) (s : Stage) : Prop :=
  ∀ e ∈ s.clauseExprs, e.renderWith regime f none = e.renderWith regime g none

section

variable {s : Stage} (h : s.SameTexts regime f g)

include h

theorem Stage.selectList_congr : s.selectList regime f = s.selectList regime g := by
  unfold selectList
  cases hcolumns : s.projection with
  | none => rfl
  | some columns =>
    have heach : columns.map (·.renderWith regime f) = columns.map (·.renderWith regime g) := by
      refine List.map_congr_left fun c hc => ?_
      have hexpr := h c.expr (by simp [clauseExprs, hcolumns]; exact .inl ⟨c, hc, rfl⟩)
      simp only [Column.renderWith, SqlExpr.renderWith, hexpr]
    simp only [heach]

theorem Stage.groupKeys_congr : (s.groupKeys?.map fun ks => ks.map fun e => e.renderWith regime f none) =
    s.groupKeys?.map fun ks => ks.map fun e => e.renderWith regime g none := by
  refine Option.map_congr fun ks hks => List.map_congr_left fun e he => h e ?_
  unfold groupKeys? at hks
  split at hks
  · rename_i k ks' hgroup
    obtain rfl := Option.some.inj hks
    simp only [clauseExprs, List.mem_append, hgroup, Option.getD_some]
    exact .inl (.inl (.inl (.inr he)))
  · cases hks

theorem Stage.order_congr (after : OrderItem → String) :
    (s.orderBy.map fun items => items.map fun i => i.expr.renderWith regime f none ++ after i) =
      s.orderBy.map fun items => items.map fun i => i.expr.renderWith regime g none ++ after i := by
  refine Option.map_congr fun items hitems => List.map_congr_left fun i hi => ?_
  rw [h i.expr]
  simp only [clauseExprs, List.mem_append, Option.mem_def.mp hitems, Option.getD_some]
  exact .inl (.inl (.inr (List.mem_map_of_mem hi)))

theorem Stage.option_congr {o : Option SqlExpr} (ho : o.toList ⊆ s.clauseExprs) :
    (o.map fun e => e.renderWith regime f none) = o.map fun e => e.renderWith regime g none :=
  Option.map_congr fun e he => h e (ho (Option.mem_toList.mpr he))

end

/-! ### Stages -/

section

variable (hsealed : stages.Sealed I) (hsame : ∀ id, I id → f id = g id)

include hsame

theorem SqlExpr.render_congr {e : SqlExpr} (h : ∀ id ∈ e.subqueries, I id) (follower : Option Operator) :
    e.renderWith regime f follower = e.renderWith regime g follower :=
  renderWith_congr follower fun id hid => hsame id (h id (mem_subqueries.mpr hid))

theorem Source.render_congr {s : Source} (h : ∀ id ∈ s.inside, I id) :
    s.renderWith regime f = s.renderWith regime g := by
  cases s with
  | stage id =>
    have hid : f id = g id := hsame id (h id (.head _))
    simp only [renderWith, hid]
  | table text => rfl
  | function e | rows e => exact SqlExpr.render_congr hsame h none
  | setOp kind operands =>
    have hoperands : operands.map (fun id => inParens (f id)) = operands.map fun id => inParens (g id) :=
      List.map_congr_left fun id hid => by rw [hsame id (h id hid)]
    simp only [renderWith, hoperands]

include hsealed

theorem FromTree.render_congr {tree : FromTree} (h : ∀ id ∈ tree.inside, I id) :
    tree.renderWith regime stages f = tree.renderWith regime stages g := by
  induction tree with
  | item item =>
    have hresolved : (item.resolve stages stages.length).source.renderWith regime f =
        (item.resolve stages stages.length).source.renderWith regime g :=
      Source.render_congr hsame (item.inside_resolve hsealed stages.length h)
    simp only [renderWith, FromItem.renderWith, hresolved]
  | join l kind r condition ihl ihr =>
    unfold FromTree.inside at h
    simp only [List.forall_mem_append] at h
    obtain ⟨⟨hl, hr⟩, hcondition⟩ := h
    have hc : condition.map (fun e => e.renderWith regime f none) =
        condition.map fun e => e.renderWith regime g none := by
      cases condition with
      | none => rfl
      | some e => exact congrArg some (SqlExpr.render_congr hsame hcondition none)
    simp only [renderWith, ihl hl, ihr hr, hc]

/-- A stage is written alike by two ways to write the stages inside it. -/
theorem Stage.render_congr {s : Stage} (h : ∀ id ∈ s.inside, I id) :
    s.renderWith regime stages f = s.renderWith regime stages g := by
  obtain ⟨hfrom, hclauses⟩ := List.forall_mem_append.mp h
  have htexts : s.SameTexts regime f g := fun e he =>
    SqlExpr.render_congr hsame (fun id hid => hclauses id (List.mem_flatMap.mpr ⟨e, he, hid⟩)) none
  have hsource : (s.from_.map fun t => t.renderWith regime stages f) =
      s.from_.map fun t => t.renderWith regime stages g := by
    refine Option.map_congr fun t ht => ?_
    rw [Option.mem_def.mp ht] at hfrom
    exact FromTree.render_congr hsealed hsame hfrom
  have hoption {o : Option SqlExpr} (ho : ∀ e ∈ o.toList, e ∈ s.clauseExprs) := Stage.option_congr htexts ho
  simp only [clauseExprs, List.mem_append] at hoption
  have hwhere := hoption (o := s.where_) fun e he => by simp only [he, true_or, or_true]
  have hskip := hoption (o := s.skip) fun e he => by simp only [he, true_or, or_true]
  have hlimit := hoption (o := s.limit) fun e he => by simp only [he, or_true]
  have hgroup := congrArg (Option.map (", ".intercalate ·)) (Stage.groupKeys_congr htexts)
  have horder := congrArg (Option.map (", ".intercalate ·))
    (Stage.order_congr htexts fun i => if i.ascending then " ASC" else " DESC")
  simp only [Option.map_map, Function.comp_def] at hgroup horder
  simp only [Stage.renderWith, Stage.selectList_congr htexts, hsource, hwhere, hgroup, horder, hskip, hlimit]

end

/-! ## The way down -/

/-- Every stage refers to stages that there are, of a smaller rank. -/
structure Stages.Falls (stages : Stages) (rank : StageId → Nat) : Prop where
  bound : ∀ id < stages.length, rank id < stages.length
  inside : ∀ id < stages.length, ∀ j ∈ (stages.get id).inside, j < stages.length ∧ rank j < rank id

section

variable {rank : StageId → Nat} (h : stages.Falls rank)

include h

theorem Stages.Falls.refers {i j : StageId} (hij : stages.Refers i j) : j < stages.length ∧ rank j < rank i :=
  h.inside i (Compile.lt_of_refers hij) j hij

theorem Stages.Falls.wellFounded : WellFounded fun j i => stages.Refers i j :=
  Subrelation.wf (fun hij => (h.refers hij).2) (measure rank).wf

/-- What stays below a rank. -/
theorem Stages.Falls.sealed (r : Nat) : stages.Sealed fun j => j < stages.length ∧ rank j < r :=
  fun _ _ hi hij => ⟨(h.refers hij).1, Nat.lt_trans (h.refers hij).2 hi.2⟩

/-- Deeper than its rank, the text of a stage does not depend on the depth. -/
theorem Stages.Falls.selectTo_eq {depth depth' : Nat} {id : StageId} (hid : id < stages.length)
    (hdepth : rank id < depth)
    (hdepth' : rank id < depth') : stages.selectTo regime depth id = stages.selectTo regime depth' id := by
  induction depth generalizing id depth' with
  | zero => exact absurd hdepth (Nat.not_lt_zero _)
  | succ depth ih =>
    obtain ⟨depth', rfl⟩ := Nat.exists_eq_succ_of_ne_zero (Nat.ne_of_gt (Nat.lt_of_le_of_lt (Nat.zero_le _) hdepth'))
    refine Stage.render_congr (h.sealed (rank id)) (fun j hj => ?_) (h.inside id hid)
    exact ih hj.1 (Nat.lt_of_lt_of_le hj.2 (Nat.le_of_lt_succ hdepth))
      (Nat.lt_of_lt_of_le hj.2 (Nat.le_of_lt_succ hdepth'))

/-- Deeper than the rank of its stage, the item that is written does not depend on the depth. -/
theorem Stages.Falls.resolve_eq {fuel fuel' : Nat} {item : FromItem}
    (hfuel : ∀ id ∈ item.source.inside, rank id < fuel)
    (hfuel' : ∀ id ∈ item.source.inside, rank id < fuel') : item.resolve stages fuel = item.resolve stages fuel' := by
  induction fuel generalizing item fuel' with
  | zero =>
    have hnone : item.passed? stages = none := by
      refine Option.eq_none_iff_forall_not_mem.mpr fun inner hinner => ?_
      obtain ⟨id, hid, -⟩ := FromItem.inside_passed hinner
      exact Nat.not_lt_zero _ (hfuel id (by rw [hid]; exact .head _))
    rw [FromItem.resolve_none hnone, FromItem.resolve_none hnone]
  | succ fuel ih =>
    cases hpassed : item.passed? stages with
    | none => rw [FromItem.resolve_none hpassed, FromItem.resolve_none hpassed]
    | some inner =>
      obtain ⟨id, hid, hinside⟩ := FromItem.inside_passed hpassed
      have hmem : id ∈ item.source.inside := by rw [hid]; exact .head _
      obtain ⟨fuel', rfl⟩ := Nat.exists_eq_succ_of_ne_zero (Nat.ne_zero_of_lt (hfuel' id hmem))
      have hfalls (j : StageId) (hj : j ∈ inner.source.inside) : rank j < rank id := (h.refers (hinside j hj)).2
      simp only [FromItem.resolve_succ, hpassed]
      exact ih (fun j hj => Nat.lt_of_lt_of_le (hfalls j hj) (Nat.le_of_lt_succ (hfuel id hmem)))
        fun j hj => Nat.lt_of_lt_of_le (hfalls j hj) (Nat.le_of_lt_succ (hfuel' id hmem))

end

/-- Writing ends: stages inside stages come to an end, a pass-through is replaced as often as it can be, and the
    text of a stage is put together from those of the stages inside it, which all exist. -/
structure Stages.Renders (stages : Stages) : Prop where
  wellFounded : WellFounded fun j i => stages.Refers i j
  resolve (item : FromItem) (h : ∀ id ∈ item.source.inside, id < stages.length) :
    item.resolve stages stages.length = match item.passed? stages with
      | some inner => inner.resolve stages stages.length
      | none => item
  select (regime : Regime) {id : StageId} (h : id < stages.length) {text : StageId → String}
    (htext : ∀ j < stages.length, text j = stages.select regime j) :
    stages.select regime id = (stages.get id).renderWith regime stages text

theorem Stages.Falls.renders {rank : StageId → Nat} (h : stages.Falls rank) : stages.Renders where
  wellFounded := h.wellFounded
  resolve item hitem := by
    have hdeep (id : StageId) (hid : id ∈ item.source.inside) : rank id < stages.length := h.bound id (hitem id hid)
    rw [h.resolve_eq hdeep (fun id hid => Nat.lt_succ_of_lt (hdeep id hid)), FromItem.resolve_succ]
  select regime id hid text htext := by
    have hdeep := h.bound id hid
    rw [Stages.select, h.selectTo_eq hid hdeep (Nat.lt_succ_self _)]
    refine Stage.render_congr (h.sealed (rank id)) (fun j hj => ?_) (h.inside id hid)
    rw [htext j hj.1]
    exact h.selectTo_eq hj.1 hj.2 (h.bound j hj.1)

end Sql

namespace Compile

open Sql

/-! ## Columns -/

/-- The way of a column out of a node, which goes on from the join around it. -/
def walkFrom (onward : NodeId → ColumnPath → CompileM ColumnPath) (node : NodeId) (path : ColumnPath) :
    CompileM ColumnPath := do
  let n ← getNode node
  let (path, found) ← pullToScope path n.selects
  if found then return path
  else
    match n.joinParent with
    | some parent => onward parent path
    | none => return path

/-- In a well-formed state a column is looked up from join to join as long as there is one. -/
theorem pullFrom_eq {c : Context} {s : State} (hs : WellFormed c s) (node : NodeId) (path : ColumnPath) :
    (pullFrom node path).run c s = (walkFrom pullFrom node path).run c s := by
  have hread {α : Type} (f : Node → CompileM α) :
      (getNode node >>= f).run c s = (f ((s.nodes[node]?).getD { first := ⟨"", 0⟩ })).run c s := rfl
  have hparent : ∀ parent ∈ ((s.nodes[node]?).getD { first := ⟨"", 0⟩ }).joinParent, parent < node := by
    cases hn : s.nodes[node]? with
    | none => simp
    | some n => exact hs.parents node n hn
  rw [pullFrom, walkFrom, hread, hread]
  generalize (s.nodes[node]?).getD { first := ⟨"", 0⟩ } = n at hparent ⊢
  cases hjoin : n.joinParent with
  | none => rfl
  | some parent => simp only [dif_pos (hparent parent hjoin)]

/-! ## All states of a compilation -/

/-- A well-formed state in which the way of a column from join to join ends by itself. -/
structure Walkable (c : Context) (s : State) : Prop extends WellFormed c s where
  pullFrom (node : NodeId) (path : ColumnPath) :
    (pullFrom node path).run c s = (walkFrom pullFrom node path).run c s

/-- Whether the compilation of a body succeeds or fails, each of its steps, one after the other from the empty state,
    leads from a well-formed state to one and looks up only numbers that are in range. In these states the way of a
    column from join to join ends by itself. The stages of the result can be written from the last one down. -/
theorem wellFormed_build (settings : Settings) (body : CommandBody) :
    Walkable (contextOf settings body) {} ∧
      ∃ last, Leads {} ((statement allParts body).events (contextOf settings body) {}) last ∧
        (∀ e ∈ (statement allParts body).events (contextOf settings body) {}, e.Keeps Walkable) ∧
        ∀ r t, build settings body = .ok (r, t) → t = last ∧ Walkable (contextOf settings body) t ∧
          t.stages.Renders ∧ ∀ root, r.1 = .select root → root < t.stages.length := by
  have hwalk (c : Context) (s : State) (hs : WellFormed c s) : Walkable c s := ⟨hs, pullFrom_eq hs⟩
  have hL : Permits (fun _ => True) fun _ => true := ⟨fun _ => trivial, fun _ _ _ => trivial, fun _ _ => rfl⟩
  have hstart : WellFormed (contextOf settings body) {} := by
    cases body <;> exact wellFormed_empty _ _
  have hs : Here (fun _ => True) (contextOf settings body) {} := ⟨hstart, fun _ _ => trivial⟩
  obtain ⟨hevents, hresult⟩ := proceeds_statement hL hs body.everyNode_true
  obtain ⟨last, hleads, hlast⟩ := leads_events (statement allParts body) (contextOf settings body) {}
  refine ⟨hwalk _ _ hstart, last, hleads, fun e he => (hevents e he).mono hwalk, fun r t hbuild => ?_⟩
  obtain ⟨ht, hfits⟩ := hresult r t hbuild
  obtain ⟨rank, hrank⟩ := ht.ranked
  have hfalls : t.stages.Falls rank := by
    constructor
    · exact fun id hid => (hrank id ⟨Nat.zero_le _, hid⟩).1
    · intro id hid j hj
      obtain ⟨hadded, hlt⟩ := (hrank id ⟨Nat.zero_le _, hid⟩).2.inside j hj
      exact ⟨hadded.2, hlt⟩
  refine ⟨hlast r t hbuild, hwalk _ _ (hstart.later ht), hfalls.renders, fun root hroot => ?_⟩
  rw [hroot] at hfits
  exact hfits.2

end Compile

end TreeSql
