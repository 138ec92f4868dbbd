import TreeSql.Compile.Clause
import TreeSql.Proofs.References.Built

/-
  TreeSql.Proofs.References.Clauses — clauses on the open stage of a node.

  The expressions of a clause are compiled with the variables of the node in scope, inside the open stage
  (`Built.ok_inside`) or around it (`Built.ok_outside`). A clause whose references are visible leaves a node as
  its face says (`Built.attach`), and so does a stage put around a node (`Built.wrap`, `Built.openFor`).
-/
namespace TreeSql.Compile

open Sql

variable {S : Site} {s t u : State} {roots : List String} {f : Face} {node : NodeId}

/-! ## Variables of a node -/

section

variable {schema : Option Schema} {floor : Nat} {x : String} {columns : Columns} {own : List AliasedStage}
  {last : AliasedStage}

theorem standsFor_append {own env : Items} {a : AliasedStage} (h : StandsFor own a) : StandsFor (own ++ env) a := by
  obtain ⟨i, hi, hsource⟩ := h
  refine ⟨i, ?_, hsource⟩
  rw [Items.at_, List.find?_append, show own.find? (fun i => i.name == a.name) = some i from hi]
  rfl

/-- The columns of a variable come through the whole path, and are seen from the stage of a join around it or
    from nowhere in particular. -/
theorem bound_through (S' : Site) (rest : List AliasedStage) (h : Reached S'.schema floor u node x columns own last)
    (htrack : track u.nodes node = own ++ rest) (hrest : InScope S'.context rest)
    (hcan : ∀ id, floor ≤ id → id < u.stages.length → S'.Can id) (hstands : StandsFor S'.env last) :
    S'.Bound u x columns := by
  obtain ⟨id, l, hx, hid, hunder, hnew, hascends⟩ := h
  refine ⟨id, hx, hid, fun name hname => ?_⟩
  obtain ⟨a, m, end_, hpath, rfl, hstarts, hclimbs, hcarries⟩ := hascends name hname
  rw [hunder.track, htrack, ← List.append_assoc, hpath]
  rw [hpath] at hnew
  exact .through (fun b hb => hcan b.stage (hnew.bound b hb).1 (hnew.bound b hb).2) hrest hstarts hclimbs hcarries
    hstands

/-- The columns of a variable come through the path up to its last stage, whose clauses are being built. -/
theorem bound_inside (S' : Site) {env : Items} (h : Reached S'.schema floor u node x columns own last)
    (htrack : track u.nodes node = own) (hlast : S'.context.scopes.contains last.stage = true)
    (hcan : ∀ id, floor ≤ id → id < u.stages.length → id ≠ last.stage → S'.Can id)
    (hnone : (u.stages.get last.stage).projection = none)
    (henv : S'.env = (u.stages.get last.stage).items ++ env) : S'.Bound u x columns := by
  obtain ⟨id, l, hx, hid, hunder, hnew, hascends⟩ := h
  refine ⟨id, hx, hid, fun name hname => ?_⟩
  obtain ⟨a, m, end_, hpath, rfl, hstarts, hclimbs, hcarries⟩ := hascends name hname
  rw [hunder.track, htrack, hpath]
  rw [hpath] at hnew
  rcases List.eq_nil_or_concat' m with rfl | ⟨m, b, rfl⟩
  · refine .here hlast ?_
    rw [henv]
    exact (hstarts.visible hnone).append
  · obtain ⟨mid, hclimbs, hstands, hcarries⟩ := hclimbs.last
    have hb : topOf a (m ++ [b]) = b := by rw [topOf_append]; rfl
    rw [hb] at hlast hcan hnone henv
    have hnodup := hnew.nodup
    rw [← List.cons_append, List.map_append, List.nodup_append] at hnodup
    rw [← List.cons_append]
    refine .through (fun c hc => ?_) hlast hstarts hclimbs (hcarries hnone) (henv ▸ standsFor_append hstands)
    have hbound := hnew.bound c (by rw [← List.cons_append]; exact List.mem_append_left _ hc)
    exact hcan c.stage hbound.1 hbound.2 (hnodup.2.2 c.stage (List.mem_map_of_mem hc) b.stage (by simp))

end

/-! ## Inside the open stage and around it -/

/-- The stages that are added between two states. -/
def AddedStage (s u : State) (id : StageId) : Prop := s.stages.length ≤ id ∧ id < u.stages.length

/-- Inside the open stage, where its clauses are built. -/
def insideSite (S : Site) (s u : State) (roots : List String) (f : Face) (last : AliasedStage) : Site :=
  S.enter [last.stage] (u.stages.get last.stage).items f.sides (AddedStage s u) roots s u

/-- Around the open stage. -/
def outsideSite (S : Site) (s u : State) (roots : List String) (f : Face) (last : AliasedStage) : Site :=
  S.enter [] [{ source := .stage last.stage, name := last.name }] f.sides (AddedStage s u) roots s u

/-- Beside what was built, which is not in scope. -/
def besideSite (S : Site) (s u : State) (roots : List String) : Site :=
  S.enter [] [] [] (fun _ => False) roots s u

theorem not_in_scopes (hok : S.Ok s) {id : StageId} (h : s.stages.length ≤ id) :
    S.context.scopes.contains id = false := by
  rw [Bool.eq_false_iff, Ne, List.contains_iff_mem]
  exact fun hmem => Nat.lt_irrefl _ (Nat.lt_of_lt_of_le (hok.scopes id hmem) h)

theorem ok_beside (hok : S.Ok s) (h : S.After s u) (hfresh : Fresh S.taken S.drawn roots) :
    (besideSite S s u roots).Ok u :=
  Site.ok_enter hok h hfresh ⟨by simp, by simp, by simp, by simp, by simp⟩

theorem Built.ok_inside (h : Built S s u roots f node) (hok : S.Ok s) (hfresh : Fresh S.taken S.drawn roots)
    (hnone : (u.stages.get (nodeAt u.nodes node).last.stage).projection = none) :
    (insideSite S s u roots f (nodeAt u.nodes node).last).Ok u := by
  have hlast := h.bound (last_mem _)
  refine Site.ok_enter hok h.after hfresh ⟨fun x columns hx => ?_, ?_, fun _ hid => hid, h.open_.items, h.vars⟩
  · have hreached := h.sides x columns hx
    refine bound_inside (insideSite S s u roots f (nodeAt u.nodes node).last) hreached h.track (by
      show ([_] ++ _).contains _ = true
      simp) (fun id hfloor hid hne => ⟨.inr ⟨hfloor, hid⟩, ?_⟩) hnone rfl
    show ([(nodeAt u.nodes node).last.stage] ++ S.context.scopes).contains id = false
    have hout := not_in_scopes hok hfloor
    rw [Bool.eq_false_iff, Ne, List.contains_iff_mem] at hout ⊢
    simpa [hne] using hout
  · intro id hid
    obtain rfl := List.mem_singleton.mp hid
    exact ⟨fun hreach => Nat.lt_irrefl _ (Nat.lt_of_lt_of_le (hok.reach _ hreach) hlast.1), hlast.2⟩

theorem Built.ok_outside (h : Built S s u roots f node) (hok : S.Ok s) (hfresh : Fresh S.taken S.drawn roots) :
    (outsideSite S s u roots f (nodeAt u.nodes node).last).Ok u := by
  refine Site.ok_enter hok h.after hfresh
    ⟨fun x columns hx => ?_, by simp, fun _ hid => hid, by simpa using h.open_.named, h.vars⟩
  refine bound_through (outsideSite S s u roots f (nodeAt u.nodes node).last) [] (h.sides x columns hx) (by rw [h.track, List.append_nil]) trivial
    (fun id hfloor hid => ⟨.inr ⟨hfloor, hid⟩, not_in_scopes hok hfloor⟩) ?_
  exact ⟨{ source := .stage (nodeAt u.nodes node).last.stage, name := (nodeAt u.nodes node).last.name },
    by simp [outsideSite, Site.enter, Items.at_], rfl⟩

section

variable {scopes : List StageId} {env : Items} {scope : Scope} {reach : StageId → Prop}

/-- A node stays as it is said while something is compiled elsewhere. -/
theorem Built.leave (h : Built S s t roots f node) (hreach : ∀ id, reach id → s.stages.length ≤ id)
    (hafter : (S.enter scopes env scope reach roots s t).After t u) : Built S s u roots f node :=
  h.later hafter (Site.after_leave h.after hreach hafter) fun _ hx => .inr hx

theorem Built.leave_inside (h : Built S s t roots f node)
    (hafter : (insideSite S s t roots f (nodeAt t.nodes node).last).After t u) : Built S s u roots f node :=
  h.leave (fun _ hid => hid.1) hafter

theorem Built.leave_outside (h : Built S s t roots f node)
    (hafter : (outsideSite S s t roots f (nodeAt t.nodes node).last).After t u) : Built S s u roots f node :=
  h.leave (fun _ hid => hid.1) hafter

theorem Built.leave_beside (h : Built S s t roots f node) (hafter : (besideSite S s t roots).After t u) :
    Built S s u roots f node :=
  h.leave (fun _ hid => hid.elim) hafter

theorem Built.node_eq (h : Built S s t roots f node) {can : StageId → Prop} {taken : String → Prop}
    (hafter : Compile.After S.schema can taken t u) : nodeAt u.nodes node = nodeAt t.nodes node := by
  obtain ⟨new, hnodes, -⟩ := hafter.nodes.added
  rw [hnodes, nodeAt_append new h.added.2]

theorem Quiet.leave_inside (hquiet : Quiet f (t.stages.get (nodeAt t.nodes node).last.stage))
    (h : Built S s t roots f node)
    (hafter : (insideSite S s t roots f (nodeAt t.nodes node).last).After t u) :
    Quiet f (u.stages.get (nodeAt t.nodes node).last.stage) := by
  refine hquiet.later (S := S) (h.bound (last_mem _)).2 hafter fun hcan => ?_
  have hout : ([_] ++ _).contains (nodeAt t.nodes node).last.stage = false := hcan.2
  simp at hout

theorem Quiet.leave_beside (hquiet : Quiet f (t.stages.get (nodeAt t.nodes node).last.stage))
    (h : Built S s t roots f node) (hok : S.Ok s) (hafter : (besideSite S s t roots).After t u) :
    Quiet f (u.stages.get (nodeAt t.nodes node).last.stage) := by
  have hlast := h.bound (last_mem _)
  refine hquiet.later (S := S) hlast.2 hafter fun hcan => ?_
  rcases hcan.1 with hreach | hreach
  · exact Nat.lt_irrefl _ (Nat.lt_of_lt_of_le (hok.reach _ hreach) hlast.1)
  · exact hreach

end

/-- An expression of the open stage, seen from the stage. -/
theorem Built.fine_inside (h : Built S s t roots f node)
    (hafter : (insideSite S s t roots f (nodeAt t.nodes node).last).After t u) {e : SqlExpr}
    (he : (insideSite S s t roots f (nodeAt t.nodes node).last).Fine u e) :
    Sql.Fine S.schema (fun id => s.stages.length ≤ id ∧ id ≠ (nodeAt t.nodes node).last.stage) u.stages
      ((u.stages.get (nodeAt t.nodes node).last.stage).items ++ S.env) e := by
  have hlast := h.bound (last_mem _)
  rw [wider_items (hafter.wider _ hlast.2)]
  exact he.mono fun id hid => ⟨Nat.le_trans h.after.length hid, Nat.ne_of_gt (Nat.lt_of_lt_of_le hlast.2 hid)⟩

theorem Built.fine_beside (h : Built S s t roots f node) {e : SqlExpr} (he : (besideSite S s t roots).Fine u e) :
    Sql.Fine S.schema (fun id => s.stages.length ≤ id ∧ id ≠ (nodeAt t.nodes node).last.stage) u.stages S.env
      e := by
  have hlast := h.bound (last_mem _)
  exact he.mono fun id hid => ⟨Nat.le_trans h.after.length hid, Nat.ne_of_gt (Nat.lt_of_lt_of_le hlast.2 hid)⟩

/-! ## Clauses -/

/-- A change that columns do not notice. -/
def LeavesColumns (g : Stage → Stage) : Prop :=
  ∀ a, (g a).from_ = a.from_ ∧ (g a).projection = a.projection ∧ (g a).pulled = a.pulled

/-- A clause on a stage, and the same on a face. -/
structure Clausal (g clause : Stage → Stage) : Prop where
  stage : LeavesColumns g
  face : LeavesColumns clause
  same : ∀ a b, SameClauses a b → SameClauses (clause a) (g b)
  distinct : ∀ a : Stage, a.distinct = true → (clause a).distinct = true

theorem clausal_where (condition : SqlExpr) : Clausal (addCondition condition) id where
  stage _ := ⟨rfl, rfl, rfl⟩
  face _ := ⟨rfl, rfl, rfl⟩
  same _ _ h := ⟨h.distinct, h.projection, h.groupBy, h.orderBy, h.skip, h.limit⟩
  distinct _ h := h

theorem clausal_orderBy (items : List OrderItem) :
    Clausal (fun s => { s with orderBy := some items }) fun s => { s with orderBy := some [] } where
  stage _ := ⟨rfl, rfl, rfl⟩
  face _ := ⟨rfl, rfl, rfl⟩
  same _ _ h := ⟨h.distinct, h.projection, h.groupBy, rfl, h.skip, h.limit⟩
  distinct _ h := h

theorem clausal_skip (count : SqlExpr) :
    Clausal (fun s => { s with skip := some count }) fun s => { s with skip := some (.list []) } where
  stage _ := ⟨rfl, rfl, rfl⟩
  face _ := ⟨rfl, rfl, rfl⟩
  same _ _ h := ⟨h.distinct, h.projection, h.groupBy, h.orderBy, rfl, h.limit⟩
  distinct _ h := h

theorem clausal_limit (count : SqlExpr) :
    Clausal (addLimit count) fun s => { s with limit := some (.list []) } where
  stage _ := ⟨rfl, rfl, rfl⟩
  face _ := ⟨rfl, rfl, rfl⟩
  same _ _ h := ⟨h.distinct, h.projection, h.groupBy, h.orderBy, h.skip, rfl⟩
  distinct _ h := h

theorem clausal_distinct : Clausal (fun s => { s with distinct := true }) fun s => { s with distinct := true } where
  stage _ := ⟨rfl, rfl, rfl⟩
  face _ := ⟨rfl, rfl, rfl⟩
  same _ _ h := ⟨rfl, h.projection, h.groupBy, h.orderBy, h.skip, h.limit⟩
  distinct _ _ := rfl

section

variable {schema : Option Schema} {among : StageId → Prop} {stages : Stages} {env : Items} {a : Stage}
  (h : FineStage schema among stages env a)

include h

theorem fine_addCondition {e : SqlExpr} (he : Sql.Fine schema among stages (a.items ++ env) e) :
    FineStage schema among stages env (addCondition e a) := by
  have hparts := fineStage_iff.mp h
  refine fineStage_iff.mpr { hparts with where_ := fun x hx => ?_ }
  obtain rfl : _ = x := by simpa [addCondition] using hx
  split
  · rename_i present hwhere
    have hpresent := hparts.where_ present hwhere
    exact @Congruence.binary _ (congruence_fine stages (a.items ++ env)) .and present e present e hpresent he
  · exact he

theorem fine_orderBy {items : List OrderItem} (hitems : ∀ i ∈ items, Sql.Fine schema among stages (a.items ++ env) i.expr) :
    FineStage schema among stages env { a with orderBy := some items } :=
  fineStage_iff.mpr { fineStage_iff.mp h with orderBy := hitems }

theorem fine_skip {e : SqlExpr} (he : Sql.Fine schema among stages env e) :
    FineStage schema among stages env { a with skip := some e } :=
  fineStage_iff.mpr { fineStage_iff.mp h with skip := by simpa using he }

theorem fine_addLimit {e : SqlExpr} (he : Sql.Fine schema among stages env e) :
    FineStage schema among stages env (addLimit e a) := by
  have hparts := fineStage_iff.mp h
  refine fineStage_iff.mpr { hparts with limit := fun x hx => ?_ }
  obtain rfl : _ = x := by simpa [addLimit] using hx
  split
  · rename_i present hlimit
    have hpresent := hparts.limit present hlimit
    refine (congruence_fine stages env).call "LEAST" (List.Forall₂.cons (b := present) hpresent
      (.cons (b := e) he .nil))
  · exact he

theorem fine_distinct : FineStage schema among stages env { a with distinct := true } :=
  fineStage_iff.mpr { fineStage_iff.mp h with }

/-- A select list, with the values that the rows are grouped by. -/
theorem fine_selecting {columns : List Column} {groupBy : Option (List SqlExpr)}
    (hcolumns : ∀ c ∈ columns, Sql.Fine schema among stages (a.items ++ env) c.expr)
    (hgroupBy : ∀ e ∈ groupBy.getD [], Sql.Fine schema among stages (a.items ++ env) e) :
    FineStage schema among stages env { a with projection := some columns, groupBy } := by
  refine fineStage_iff.mpr { fineStage_iff.mp h with groupBy := hgroupBy, selected := fun e he => ?_ }
  obtain ⟨c, hc, rfl⟩ := List.mem_map.mp he
  exact hcolumns c hc

end

theorem outputNames_congr {a b : Stage} (hprojection : b.projection = a.projection) (hpulled : b.pulled = a.pulled) :
    b.outputNames = a.outputNames := by
  unfold Stage.outputNames
  rw [hprojection, hpulled]

theorem steady_modify (id : StageId) {g : Stage → Stage} (hg : LeavesColumns g) :
    Steady (fun _ => True) t { t with stages := t.stages.modify id g } := by
  have hget (j : Nat) : (Stages.get (t.stages.modify id g) j).from_ = (t.stages.get j).from_ ∧
      (Stages.get (t.stages.modify id g) j).projection = (t.stages.get j).projection ∧
      (Stages.get (t.stages.modify id g) j).pulled = (t.stages.get j).pulled := by
    rw [Stages.get_modify]
    split
    · rename_i hj
      rw [hj.1]
      exact hg _
    · exact ⟨rfl, rfl, rfl⟩
  constructor
  case length => simp
  case from_eq => exact fun j _ _ => (hget j).1
  case projection => exact fun j _ _ => (hget j).2.1
  case pulled => exact fun j _ _ p hp => .inl ((hget j).2.2 ▸ hp)
  case label => exact fun j _ _ => label_congr rfl (hget j).1
  case shown =>
    intro j name hname
    rw [outputNames_congr (hget j).2.1 (hget j).2.2]
    exact hname

theorem Built.attach (h : Built S s t roots f node) {g clause : Stage → Stage} (hg : Clausal g clause)
    (hfine : FineStage S.schema (fun id => s.stages.length ≤ id ∧ id ≠ (nodeAt t.nodes node).last.stage)
      t.stages S.env (g (t.stages.get (nodeAt t.nodes node).last.stage))) :
    Built S s { t with stages := t.stages.modify (nodeAt t.nodes node).last.stage g } roots (f.attach clause)
      node := by
  have hlast := h.bound (last_mem _)
  obtain ⟨hfrom, hprojection, hpulled⟩ := hg.stage (t.stages.get (nodeAt t.nodes node).last.stage)
  have hsteady := steady_modify (t := t) (nodeAt t.nodes node).last.stage hg.stage
  have hget : Stages.get (t.stages.modify (nodeAt t.nodes node).last.stage g) (nodeAt t.nodes node).last.stage =
      g (t.stages.get (nodeAt t.nodes node).last.stage) := by
    rw [Stages.get_modify, if_pos ⟨rfl, hlast.2⟩]
  have houtput := outputNames_congr hprojection hpulled
  have hclauses := hg.same _ _ h.open_.clauses
  constructor
  case after => exact h.after.touch (touches_modifyStage hlast.1 (by rw [houtput]; exact List.Subset.refl _))
  case added => exact h.added
  case alone => exact h.alone
  case open_ =>
    constructor
    case clauses => exact hget ▸ hclauses
    case fine =>
      show FineStage _ _ _ _ (Stages.get _ _)
      rw [hget]
      refine hfine.later (grown_of_same hsteady.length hsteady.shown fun id hid _ => ?_) (.refl _) fun _ _ => .inl
      show Stages.get _ id = _
      rw [Stages.get_modify, if_neg fun hsame => hid.2 hsame.1]
    case named => exact h.open_.named
    case items =>
      rw [hsteady.items hlast.2 trivial]
      exact h.open_.items
    case unlisted => exact fun hlisted => (hg.face f.clauses).2.1.trans (h.open_.unlisted hlisted)
    case listed => exact fun hlisted name hname => hsteady.shown _ (h.open_.listed hlisted name hname)
    case source =>
      intro hlisted hloose name hname
      obtain ⟨i, hi, hexposes⟩ := h.open_.source hlisted hloose name hname
      exact ⟨i, (hsteady.from_eq _ trivial hlast.2).trans hi,
        fun columns hcolumns => hsteady.shown.exposes (hexposes columns hcolumns)⟩
  case inside =>
    exact { h.inside.steady hsteady with }
  case columns => exact fun name hname => (h.columns name hname).steady hlast.2 hsteady
  case vars => exact h.vars
  case sides => exact fun x columns hx => (h.sides x columns hx).steady hsteady rfl (Nat.le_refl _) fun _ _ _ => rfl

/-! ## Stages put around a node -/

/-- The state in which a stage is put around a node. -/
def wrapped (t : State) (node : NodeId) (label : String) : State :=
  let last := (nodeAt t.nodes node).last
  { t with
    stages := t.stages ++ [.ofSource (.stage last.stage) last.name]
    nodes := t.nodes.modify node fun n => { n with wrappers := n.wrappers ++ [⟨label, t.stages.length⟩] } }

theorem gives_wrap_iff {c : Context} {label : String} {id : StageId} :
    Gives (wrap node label) c t id u ↔ id = t.stages.length ∧ u = wrapped t node label := gives_pure (c := c)

section

variable {label : String}

theorem get_wrapped {id : Nat} (h : id < t.stages.length) :
    (wrapped t node label).stages.get id = t.stages.get id := by
  show Stages.get (t.stages ++ [_]) id = _
  rw [Stages.get_append, if_neg (Nat.ne_of_lt h)]

theorem get_wrapper : (wrapped t node label).stages.get t.stages.length =
    .ofSource (.stage (nodeAt t.nodes node).last.stage) (nodeAt t.nodes node).last.name := by
  show Stages.get (t.stages ++ [_]) _ = _
  rw [Stages.get_append, if_pos rfl]

theorem nodeAt_wrapped (h : node < t.nodes.length) : nodeAt (wrapped t node label).nodes node =
    { nodeAt t.nodes node with
      wrappers := (nodeAt t.nodes node).wrappers ++ [⟨label, t.stages.length⟩] } :=
  nodeAt_modify _ _ _ h

theorem touches_wrapped (h : Built S s t roots f node) : Touches s t (wrapped t node label) := by
  have hpush := touches_pushStage h.after.length
    (.ofSource (.stage (nodeAt t.nodes node).last.stage) (nodeAt t.nodes node).last.name)
  exact hpush.trans (touches_modifyNode h.added.1 fun _ => rfl)

theorem steady_wrapped : Steady (fun _ => True) t (wrapped t node label) :=
  steady_of_same (by simp [wrapped]) (shown_append _) (fun id _ hid => get_wrapped hid) fun id _ hid =>
    label_congr (map_first_modify _ _ fun _ => rfl) (by rw [get_wrapped hid])

theorem last_wrapped (h : node < t.nodes.length) :
    (nodeAt (wrapped t node label).nodes node).last = ⟨label, t.stages.length⟩ := by
  rw [nodeAt_wrapped h, last_eq_topOf, topOf_append]
  rfl

/-- The stage around a node pulls columns from the open stage. -/
theorem around_wrapped (h : Built S s t roots f node) (hok : S.Ok s) :
    Around (wrapped t node label) (nodeAt t.nodes node).last ⟨label, t.stages.length⟩ where
  bound := by simp [wrapped]
  from_eq := by
    show (Stages.get _ t.stages.length).from_ = _
    rw [get_wrapper]
    rfl
  plain := by
    show Plain _ (Stages.get _ t.stages.length)
    rw [get_wrapper]
    exact plain_of_pulled rfl
  label := by
    have hnone : ((wrapped t node label).nodes.map (·.first)).reverse.find? (·.stage == t.stages.length) = none := by
      rw [show (wrapped t node label).nodes.map (·.first) = t.nodes.map (·.first) from
        map_first_modify _ _ fun _ => rfl, List.find?_eq_none]
      intro a ha
      obtain ⟨n, hn, rfl⟩ := List.mem_map.mp (List.mem_reverse.mp ha)
      simpa using Nat.ne_of_lt ((hok.after h.after).nodes n hn)
    rw [Compile.label, hnone, get_wrapper]
    rfl

theorem Built.wrap_open (h : Built S s t roots f node) (hok : S.Ok s) (hlabel : label ∈ roots) :
    OpenStage S s (wrapped t node label) roots f.wrap ⟨label, t.stages.length⟩ := by
  have hsource : (wrapped t node label).stages.get t.stages.length = .ofSource _ _ := get_wrapper
  have hlast := h.bound (last_mem _)
  constructor
  case clauses =>
    rw [hsource]
    exact ⟨rfl, rfl, rfl, rfl, rfl, rfl⟩
  case fine =>
    rw [hsource]
    refine ⟨fun p hp => (by cases hp), fun p hp => ?_⟩
    obtain rfl : p = (S.env, (nodeAt t.nodes node).last.stage) := by simpa [Stage.ofSource, FromTree.inner] using hp
    have hclosed : Closed S.schema (fun id => s.stages.length ≤ id) t.stages S.env
        (nodeAt t.nodes node).last.stage :=
      closed_iff.mpr ⟨hlast.1, hlast.2, h.open_.fine.mono fun _ hid => hid.1⟩
    have hgrown : Grown S.schema (fun id => s.stages.length ≤ id ∧ id < t.stages.length) t.stages
        (wrapped t node label).stages :=
      grown_of_same steady_wrapped.length steady_wrapped.shown fun id _ hid => get_wrapped hid
    exact (hclosed.bounded.later hgrown).mono fun id hid => ⟨hid.1, Nat.ne_of_lt hid.2⟩
  case named => exact from_root hlabel
  case items =>
    rw [hsource]
    intro i hi
    obtain rfl : i = _ := by simpa [Stage.ofSource, Stage.items, FromTree.items] using hi
    exact h.open_.named
  case unlisted => exact fun _ => rfl
  case listed =>
    intro hlisted
    cases hlisted
  case source =>
    intro _ hloose name hname
    have hlisted : f.listed = true := by simpa [Face.wrap] using hloose
    have haround : Around (wrapped t node label) _ _ := around_wrapped h hok
    exact ⟨_, haround.from_eq, fun _ _ => steady_wrapped.shown _ (h.open_.listed hlisted name hname)⟩

theorem Built.wrap_inside (h : Built S s t roots f node) (hok : S.Ok s) :
    Inside S.schema s.stages.length (wrapped t node label) f.wrap
      { nodeAt t.nodes node with
        wrappers := (nodeAt t.nodes node).wrappers ++ [⟨label, t.stages.length⟩] } := by
  have haround : Around (wrapped t node label) _ _ := around_wrapped h hok
  have hsteady : Steady (fun _ => True) t (wrapped t node label) := steady_wrapped
  have hinside := h.inside.steady hsteady
  have hfirst := (h.bound (.head _)).2
  constructor
  case new => exact h.inside.new.append h.after.length (Nat.le_refl _) (by simp [wrapped])
  case wrapped => simp [Face.wrap]
  case label => exact hinside.label
  case plain => exact hinside.plain
  case inner => exact hinside.inner
  case named => exact hinside.named
  case around =>
    intro l b hl
    obtain ⟨rfl, hb⟩ := List.append_inj' hl rfl
    obtain rfl := List.singleton_inj.mp hb
    exact haround
  case below =>
    intro l b hl name hname
    obtain ⟨rfl, -⟩ := List.append_inj' hl rfl
    obtain ⟨hstarts, hclimbs⟩ := h.passing hname
    exact ⟨hstarts.steady steady_wrapped trivial, hclimbs.steady steady_wrapped hfirst fun _ _ => trivial⟩

/-- A stage around a node, with nothing in it yet. -/
theorem Built.wrap (h : Built S s t roots f node) (hok : S.Ok s) (hlabel : label ∈ roots) :
    Built S s (wrapped t node label) roots f.wrap node := by
  have hnode : nodeAt (wrapped t node label).nodes node = _ := nodeAt_wrapped h.added.2
  have hlast : (nodeAt (wrapped t node label).nodes node).last = _ := last_wrapped h.added.2
  have haround : Around (wrapped t node label) _ _ := around_wrapped h hok
  constructor
  case after => exact h.after.touch (touches_wrapped h)
  case added => exact ⟨h.added.1, by simpa [wrapped] using h.added.2⟩
  case alone => rw [hnode]; exact h.alone
  case open_ => rw [hlast]; exact h.wrap_open hok hlabel
  case inside => rw [hnode]; exact h.wrap_inside hok
  case columns =>
    intro name hname
    obtain ⟨hstarts, hclimbs, hcarries⟩ := (h.columns name hname).steady (h.bound (last_mem _)).2 steady_wrapped
    refine ⟨hnode ▸ hstarts, ?_, fun _ columns hsome => ?_⟩
    · rw [hnode]
      exact hclimbs.append (.plain haround (fun _ => hcarries) .nil)
    · rw [hlast, get_wrapper] at hsome
      cases hsome
  case vars => exact h.vars
  case sides =>
    intro x columns hx
    obtain ⟨id, l, hlookup, hid, hunder, hnew, hascends⟩ := h.sides x columns hx
    have hunder' := hunder.congr (Nat.le_of_eq (List.length_modify ..).symm) fun j hj _ =>
      nodeAt_modify_ne t.nodes (fun n => { n with wrappers := n.wrappers ++ [⟨label, t.stages.length⟩] })
        (Nat.ne_of_lt hj)
    rw [hlast, hnode]
    have hpath : l ++ ((nodeAt t.nodes node).selects ++ [(⟨label, t.stages.length⟩ : AliasedStage)]) =
        l ++ (nodeAt t.nodes node).selects ++ [⟨label, t.stages.length⟩] := (List.append_assoc ..).symm
    refine ⟨id, l, hlookup, by simpa [wrapped] using hid, hunder', ?_, fun name hname => ?_⟩
    · exact hpath ▸ hnew.append h.after.length (Nat.le_refl _) (by simp [wrapped])
    · have hascends' : Ascends S.schema (wrapped t node label) name _ _ :=
        (hascends name hname).steady steady_wrapped fun _ _ => trivial
      refine hpath ▸ hascends'.around haround ?_
      show (Stages.get _ t.stages.length).projection = none
      rw [get_wrapper]
      rfl

end

/-! ## The stage that takes a clause -/

theorem gives_openFor_iff {c : Context} {clause : Clause} {label : String} {id : StageId} :
    Gives (openFor clause node label) c t id u ↔
      if clause.compatible (t.stages.get (nodeAt t.nodes node).last.stage) then
        id = (nodeAt t.nodes node).last.stage ∧ u = t
      else id = t.stages.length ∧ u = wrapped t node label := by
  have hopen : Gives (openFor clause node label) c t id u ↔
      Gives (if clause.compatible (t.stages.get (nodeAt t.nodes node).last.stage) then
        pure (nodeAt t.nodes node).last.stage else wrap node label) c t id u := .rfl
  rw [hopen]
  split
  · exact gives_pure
  · exact gives_wrap_iff

/-- A node as it is said, through whose open stage nothing is pulled. -/
structure Ready (S : Site) (s t : State) (roots : List String) (f : Face) (node : NodeId) : Prop where
  built : Built S s t roots f node
  quiet : Quiet f (t.stages.get (nodeAt t.nodes node).last.stage)

theorem OpenStage.mono {roots' : List String} {last : AliasedStage} (h : OpenStage S s t roots f last)
    (hsub : roots ⊆ roots') : OpenStage S s t roots' f last where
  clauses := h.clauses
  fine := h.fine
  named := h.named.mono hsub (Nat.le_refl _) (Nat.le_refl _)
  items i hi := (h.items i hi).mono hsub (Nat.le_refl _) (Nat.le_refl _)
  unlisted := h.unlisted
  listed := h.listed
  source := h.source

theorem Ready.mono {roots' : List String} (h : Ready S s t roots f node) (hsub : roots ⊆ roots') :
    Ready S s t roots' f node where
  built := { h.built with
    open_ := h.built.open_.mono hsub
    vars := fun x columns hx => (h.built.vars x columns hx).mono hsub (Nat.le_refl _) (Nat.le_refl _) }
  quiet := h.quiet

theorem Face.sides_openFor (c : Clause) (f : Face) : (f.openFor c).sides = f.sides := by
  unfold Face.openFor
  split <;> rfl

theorem compatible_openFor (c : Clause) (f : Face) : c.compatible (f.openFor c).clauses = true := by
  unfold Face.openFor
  split
  · assumption
  · cases c <;> rfl

theorem Ready.openFor {c : Context} {clause : Clause} {label : String} {id : StageId}
    (h : Ready S s t roots f node) (hok : S.Ok s) (hlabel : label ∈ roots)
    (hrun : Gives (Compile.openFor clause node label) c t id u) :
    Ready S s u roots (f.openFor clause) node ∧ id = (nodeAt u.nodes node).last.stage := by
  have hcompatible := h.built.open_.clauses.compatible clause
  rw [gives_openFor_iff, ← hcompatible] at hrun
  unfold Face.openFor
  split at hrun
  · rename_i hopen
    obtain ⟨rfl, rfl⟩ := hrun
    rw [if_pos hopen]
    exact ⟨h, rfl⟩
  · rename_i hclosed
    obtain ⟨rfl, rfl⟩ := hrun
    have hlast : (nodeAt (wrapped t node label).nodes node).last = _ := last_wrapped h.built.added.2
    rw [if_neg hclosed]
    refine ⟨⟨h.built.wrap hok hlabel, ?_⟩, by rw [hlast]⟩
    rw [hlast, get_wrapper]
    exact .inl rfl

/-- A stage that takes the clause has no select list. -/
theorem Ready.selects_all {clause : Clause} (h : Ready S s t roots (f.openFor clause) node)
    (hclause : clause ∈ [Clause.filter, .sort, .skip, .groupBy, .project]) :
    (t.stages.get (nodeAt t.nodes node).last.stage).projection = none := by
  have hcompatible := compatible_openFor clause f
  rw [h.built.open_.clauses.compatible] at hcompatible
  simp only [List.mem_cons, List.not_mem_nil, or_false] at hclause
  rcases hclause with rfl | rfl | rfl | rfl | rfl <;>
    simp [Clause.compatible] at hcompatible <;> simp [hcompatible]

/-- Variables that are left may be bound elsewhere. -/
theorem free_enter {scopes : List StageId} {env : Items} {scope : Scope} {reach : StageId → Prop}
    {used rest : List String} (hok : S.Ok s) (hafter : S.After s u)
    (hfresh : Fresh S.taken S.drawn (used ++ rest)) (hgiven : Given rest) :
    (S.enter scopes env scope reach used s u).Free rest :=
  ⟨Site.fresh_enter hok hafter hfresh, hgiven⟩

section

variable {α : Type} {m : CompileM α} {P : State → α → Prop} {a : α} (rest : List String)

/-- What is compiled in the scope of the open stage sees the variables of the node. -/
theorem Ready.inside (h : Ready S s t roots f node) (hok : S.Ok s)
    (hfresh : Fresh S.taken S.drawn (roots ++ rest)) (hgiven : Given rest)
    (hnone : (t.stages.get (nodeAt t.nodes node).last.stage).projection = none)
    (hm : (insideSite S s t roots f (nodeAt t.nodes node).last).Free rest →
      (insideSite S s t roots f (nodeAt t.nodes node).last).Yields t m P)
    (hrun : Gives (inScope (nodeAt t.nodes node).last.stage m) S.context t a u) :
    Ready S s u roots f node ∧ nodeAt u.nodes node = nodeAt t.nodes node ∧
      (insideSite S s t roots f (nodeAt t.nodes node).last).After t u ∧ P u a := by
  have hroots := hfresh.sublist (List.sublist_append_left _ _)
  obtain ⟨hafter, ha⟩ := hm (free_enter hok h.built.after hfresh hgiven) t a u (.refl t)
    (h.built.ok_inside hok hroots hnone) (gives_inScope.mp hrun)
  have hnode := h.built.node_eq hafter
  exact ⟨⟨h.built.leave_inside hafter, hnode ▸ h.quiet.leave_inside h.built hafter⟩, hnode, hafter, ha⟩

/-- What is compiled beside a node does not see them. -/
theorem Ready.beside (h : Ready S s t roots f node) (hok : S.Ok s)
    (hfresh : Fresh S.taken S.drawn (roots ++ rest)) (hgiven : Given rest)
    (hm : (besideSite S s t roots).Free rest → (besideSite S s t roots).Yields t m P)
    (hrun : Gives m S.context t a u) :
    Ready S s u roots f node ∧ nodeAt u.nodes node = nodeAt t.nodes node ∧ P u a := by
  have hroots := hfresh.sublist (List.sublist_append_left _ _)
  obtain ⟨hafter, ha⟩ := hm (free_enter hok h.built.after hfresh hgiven) t a u (.refl t)
    (ok_beside hok h.built.after hroots) hrun
  have hnode := h.built.node_eq hafter
  exact ⟨⟨h.built.leave_beside hafter, hnode ▸ h.quiet.leave_beside h.built hok hafter⟩, hnode, ha⟩

end

theorem Ready.attach (h : Ready S s t roots f node) {g clause : Stage → Stage} (hg : Clausal g clause)
    (hfine : FineStage S.schema (fun id => s.stages.length ≤ id ∧ id ≠ (nodeAt t.nodes node).last.stage)
      t.stages S.env (g (t.stages.get (nodeAt t.nodes node).last.stage))) :
    Ready S s { t with stages := t.stages.modify (nodeAt t.nodes node).last.stage g } roots (f.attach clause)
      node := by
  refine ⟨h.built.attach hg hfine, ?_⟩
  show Quiet _ (Stages.get (t.stages.modify _ g) _)
  rw [Stages.get_modify, if_pos ⟨rfl, (h.built.bound (last_mem _)).2⟩]
  exact h.quiet.imp (fun hnil => (hg.stage _).2.2.trans hnil) fun ⟨hlisted, hnone, hdistinct⟩ =>
    ⟨hlisted, (hg.face f.clauses).2.1.trans hnone, hg.distinct _ hdistinct⟩

end TreeSql.Compile
