import TreeSql.Proofs.Compile.Gathered
import TreeSql.Proofs.References.Operators

/-
  TreeSql.Proofs.References.SelectLists — operators that choose the columns of the rows.

  Distinct rows that are taken around a stage list the columns of the stage. A projection and a grouping give
  the open stage a select list; the node of a projection starts at that stage.
-/
namespace TreeSql.Compile

open Sql

variable {S : Site} {p : Parts} {s t u : State} {e : Expr} {node : NodeId} {v var : String} {roots : List String}
  {f : Face}

/-! ## Blank stages -/

/-- The stage selects nothing yet. -/
structure Blank (a : Stage) : Prop where
  projection : a.projection = none
  pulled : a.pulled = []

theorem Blank.outputNames {a : Stage} (h : Blank a) : a.outputNames = [] := by
  rw [Stage.outputNames, h.projection, h.pulled]
  rfl

theorem Built.selects_all (h : Built S s t roots f node) (hnone : f.clauses.projection = none) :
    (t.stages.get (nodeAt t.nodes node).last.stage).projection = none := by
  have hprojection := h.open_.clauses.projection
  rw [hnone] at hprojection
  exact Option.not_isSome_iff_eq_none.mp (Bool.eq_false_iff.mp hprojection.symm)

/-- Nothing is pulled through an open stage that takes a select list. -/
theorem Ready.blank (h : Ready S s t roots f node) (hnone : f.clauses.projection = none)
    (hdistinct : f.clauses.distinct = false) : Blank (t.stages.get (nodeAt t.nodes node).last.stage) where
  projection := h.built.selects_all hnone
  pulled := h.quiet.resolve_right fun hq => by
    rw [hdistinct] at hq
    cases hq.2.2

/-- Nothing is pulled through an open stage that does not list the members. -/
theorem Ready.blank_of_unlisted (h : Ready S s t roots f node) (hlisted : f.listed = false) :
    Blank (t.stages.get (nodeAt t.nodes node).last.stage) where
  projection := h.built.selects_all (h.built.open_.unlisted hlisted)
  pulled := h.quiet.resolve_right fun hq => by
    rw [hlisted] at hq
    cases hq.1

/-! ## Distinct rows -/

theorem mem_pulled_expose {a : Stage} {source : String} {names : List String} {q : Pulled}
    (h : q ∈ (a.expose source names).pulled) :
    q ∈ a.pulled ∨ (q.source = source ∧ q.name = q.column ∧ q.column ∈ names) := by
  induction names generalizing a with
  | nil => exact .inl h
  | cons name names ih =>
    rw [expose_cons] at h
    rcases ih h with h | ⟨hsource, hname, hmem⟩
    · rw [expose_single] at h
      split at h
      · exact .inl h
      · refine (List.mem_append.mp h).imp_right fun h => ?_
        rw [List.mem_singleton.mp h]
        exact ⟨rfl, rfl, .head _⟩
    · exact .inr ⟨hsource, hname, .tail _ hmem⟩

/-- A stage exposes columns of its source. -/
theorem after_expose {schema : Option Schema} {taken : String → Prop} {id : Nat} {source : String}
    {names : List String} (hlabel : label t id = source)
    (hfound : ∀ name ∈ names, Found schema t.stages (t.stages.get id).items (source, name)) :
    After schema (· = id) taken t { t with stages := t.stages.modify id (·.expose source names) } := by
  have hwider (j : Nat) : Wider (t.stages.get j) (Stages.get (t.stages.modify id (·.expose source names)) j) := by
    rw [Stages.get_modify]
    split
    · rename_i h
      rw [h.1]
      exact wider_expose _ _ _
    · exact .refl _
  refine ⟨by simp, fun j _ => hwider j, fun j _ q hq => ?_, (AddedNodes.refl t).later rfl (by simp), fun _ _ => rfl,
    Nat.le_refl _⟩
  have hq' : q ∈ (Stages.get (t.stages.modify id (·.expose source names)) j).pulled := hq
  rw [Stages.get_modify] at hq'
  split at hq'
  · rename_i h
    rw [h.1]
    refine (mem_pulled_expose hq').imp_right fun ⟨hsource, hname, hmem⟩ => ⟨rfl, fun _ => ?_, fun _ => ?_⟩
    · rw [hsource]
      exact (shown_of_wider fun j _ => hwider j).found (hfound _ hmem)
    · exact ⟨hsource.trans hlabel.symm, hname⟩
  · exact .inl hq'

/-- Whether the open stage lists the members again. -/
theorem Built.relist (h : Built S s t roots f node) (hunlisted : f.listed = false) {listed : Bool}
    (hlisted : listed = true →
      ∀ name ∈ f.members, name ∈ (t.stages.get (nodeAt t.nodes node).last.stage).outputNames) :
    Built S s t roots { f with listed } node :=
  { h with
    open_ :=
      { h.open_ with
        unlisted := fun _ => h.open_.unlisted hunlisted
        listed := hlisted
        source := fun _ => h.open_.source hunlisted }
    inside := { h.inside with } }

/-- Rows of a stage around a node, all columns of which are taken. -/
theorem Ready.wrap_distinct (h : Ready S s t roots f node) (hok : S.Ok s) (hlabel : var ∈ roots) :
    Ready S s { wrapped t node var with
        stages := (wrapped t node var).stages.modify t.stages.length fun a =>
          { a.expose (nodeAt t.nodes node).last.name (t.stages.get (nodeAt t.nodes node).last.stage).outputNames with
            distinct := true } } roots
      { f.wrap with clauses := { distinct := true }, listed := f.listed } node := by
  have hlast := h.built.bound (last_mem _)
  have hw := h.built.wrap hok hlabel
  have haround : Around (wrapped t node var) (nodeAt t.nodes node).last ⟨var, t.stages.length⟩ :=
    around_wrapped h.built hok
  have hwlast : (nodeAt (wrapped t node var).nodes node).last = ⟨var, t.stages.length⟩ := last_wrapped h.built.added.2
  generalize hnames : (t.stages.get (nodeAt t.nodes node).last.stage).outputNames = names
  generalize hsource : (nodeAt t.nodes node).last.name = source
  have hget : Stages.get ((wrapped t node var).stages.modify t.stages.length (·.expose source names))
      t.stages.length = ((wrapped t node var).stages.get t.stages.length).expose source names := by
    rw [Stages.get_modify, if_pos ⟨rfl, haround.bound⟩]
  -- the columns of the open stage are exposed
  have hafter : After S.schema (· = t.stages.length) (fun _ => True) (wrapped t node var)
      { wrapped t node var with
        stages := (wrapped t node var).stages.modify t.stages.length (·.expose source names) } := by
    refine after_expose (hsource ▸ haround.label) fun name hname => ?_
    obtain ⟨i, hi, hstage⟩ := standsFor_item _ haround.from_eq
    refine ⟨i, hsource ▸ hi, fun columns _ => ?_⟩
    rw [hstage]
    exact steady_wrapped.shown _ (hnames ▸ hname)
  have hall : S.After s { wrapped t node var with
      stages := (wrapped t node var).stages.modify t.stages.length (·.expose source names) } :=
    hw.after.touch (touches_modifyStage h.built.after.length (wider_outputNames (wider_expose _ _ _)))
  have hexposed := hw.later hafter hall fun _ _ => trivial
  -- and the stage takes distinct rows
  have hdistinct := hexposed.attach clausal_distinct (fine_distinct hexposed.open_.fine)
  rw [hwlast] at hdistinct
  have hstages : ((wrapped t node var).stages.modify t.stages.length (·.expose source names)).modify
      t.stages.length (fun a => { a with distinct := true }) = (wrapped t node var).stages.modify t.stages.length
        fun a => { a.expose source names with distinct := true } := List.modify_modify_eq ..
  rw [← hstages]
  have hfinal : Stages.get (((wrapped t node var).stages.modify t.stages.length (·.expose source names)).modify
      t.stages.length fun a => { a with distinct := true }) (nodeAt (wrapped t node var).nodes node).last.stage =
        { (Stage.ofSource (.stage (nodeAt t.nodes node).last.stage) source).expose source names with
          distinct := true } := by
    rw [hwlast, Stages.get_modify, if_pos ⟨rfl, by simpa using haround.bound⟩, hget, get_wrapper, hsource]
  refine ⟨hdistinct.relist rfl fun hlisted name hname => ?_, ?_⟩
  · have hmem : name ∈ names := hnames ▸ h.built.open_.listed hlisted name hname
    show name ∈ (Stages.get _ (nodeAt (wrapped t node var).nodes node).last.stage).outputNames
    rw [hfinal, Stage.outputNames, (wider_expose _ _ _).projection]
    exact mem_expose (plain_of_pulled rfl) hmem
  · show Quiet _ (Stages.get _ (nodeAt (wrapped t node var).nodes node).last.stage)
    cases hlisted : f.listed with
    | true => exact .inr ⟨rfl, rfl, rfl⟩
    | false =>
      -- the open stage has no columns yet
      rw [hfinal, ← hnames, (h.blank_of_unlisted hlisted).outputNames]
      exact .inl rfl

theorem distinctRows_ready (hp : Sound p) (he : (Expr.distinct e).resolves S.schema S.scope = true)
    (hfresh : Fresh S.taken S.drawn (var :: (Expr.distinct e).binders))
    (hgiven : Given (Expr.distinct e).binders) (hok : S.Ok s)
    (hrun : Gives (distinctRows p e var) S.context s node t) : NodeReady S s t var (.distinct e) node := by
  obtain ⟨label, t₁, t₂, _, t₃, halias, hrows, hopen, htaken⟩ := distinctRows_inv hrun
  obtain ⟨rfl, rfl⟩ := gives_openStage_iff.mp hopen
  have hinput : e.resolves S.schema S.scope = true := he
  have hfree : S.Free e.binders := ⟨hfresh.sublist (List.sublist_cons_self _ _), hgiven⟩
  have hready := hp.aliased hinput hfree hok halias hrows
  have hvars := hready.named_apart hok (by rw [List.append_nil]; exact hfresh)
  have hface : (Expr.distinct e).face S.schema = Face.distinct (e.face S.schema) := rfl
  rw [Face.distinct] at hface
  rw [← hready.built.open_.clauses.compatible .distinct] at htaken
  rcases htaken with ⟨htakes, rfl⟩ | ⟨hclosed, _, t₄, hwrap, rfl⟩
  · rw [if_pos htakes] at hface
    refine ⟨?_, by rw [hface]; exact hvars⟩
    rw [hface]
    exact (hready.attach clausal_distinct (fine_distinct hready.built.open_.fine)).mono (List.subset_cons_self _ _)
  · obtain ⟨rfl, rfl⟩ := gives_wrap_iff.mp hwrap
    rw [if_neg hclosed] at hface
    refine ⟨?_, by rw [hface]; exact hvars⟩
    rw [hface]
    exact (hready.mono (List.subset_cons_self _ _)).wrap_distinct hok (.head _)

/-! ## Select lists -/

/-- A stage gets a select list. -/
structure Selects (t u : State) (id : StageId) (columns : List Column) (groupBy : Option (List SqlExpr)) : Prop where
  length : u.stages.length = t.stages.length
  get : u.stages.get id = { t.stages.get id with projection := some columns, groupBy }
  same : ∀ j, j ≠ id → u.stages.get j = t.stages.get j
  aliases : u.aliases = t.aliases

section

variable {last : AliasedStage} {columns : List Column} {groupBy : Option (List SqlExpr)}

theorem selects_modify {id : StageId} (hid : id < t.stages.length) {g : Stage → Stage}
    (hg : g (t.stages.get id) = { t.stages.get id with projection := some columns, groupBy })
    (hstages : u.stages = t.stages.modify id g) (haliases : u.aliases = t.aliases) :
    Selects t u id columns groupBy := by
  refine ⟨by simp [hstages], ?_, fun j hj => ?_, haliases⟩
  · rw [hstages, Stages.get_modify, if_pos ⟨rfl, hid⟩, hg]
  · rw [hstages, Stages.get_modify, if_neg fun h => hj h.1]

theorem After.select (h : S.After s t) {id : StageId} (hid : s.stages.length ≤ id) (hblank : Blank (t.stages.get id))
    (g : Stage → Stage) : S.After s { t with stages := t.stages.modify id g } := by
  refine h.touch (touches_modifyStage hid ?_)
  rw [hblank.outputNames]
  exact List.nil_subset _

theorem Selects.shown (h : Selects t u last.stage columns groupBy) (hblank : Blank (t.stages.get last.stage)) :
    Shown t.stages u.stages := by
  intro j name hname
  by_cases hj : j = last.stage
  · rw [hj, hblank.outputNames] at hname
    cases hname
  · rw [h.same j hj]
    exact hname

theorem Selects.outputNames (h : Selects t u last.stage columns groupBy) :
    (u.stages.get last.stage).outputNames = columns.map (·.name) := by
  rw [h.get]
  rfl

/-- The open stage, if the references of the select list are visible. -/
theorem OpenStage.select (h : OpenStage S s t roots f last) (hselects : Selects t u last.stage columns groupBy)
    (hblank : Blank (t.stages.get last.stage))
    (hcolumns : ∀ c ∈ columns, Sql.Fine S.schema (fun id => s.stages.length ≤ id ∧ id ≠ last.stage) t.stages
      ((t.stages.get last.stage).items ++ S.env) c.expr)
    (hgroupBy : ∀ e ∈ groupBy.getD [], Sql.Fine S.schema (fun id => s.stages.length ≤ id ∧ id ≠ last.stage) t.stages
      ((t.stages.get last.stage).items ++ S.env) e)
    {g : Face} {name : String} (hname : From roots s.aliases u.aliases name)
    (hclauses : SameClauses g.clauses (u.stages.get last.stage)) (hlisted : g.listed = true)
    (hmembers : g.members ⊆ columns.map (·.name)) : OpenStage S s u roots g ⟨name, last.stage⟩ where
  clauses := hclauses
  fine := by
    show FineStage _ _ _ _ (u.stages.get last.stage)
    rw [hselects.get]
    refine (fine_selecting h.fine hcolumns hgroupBy).later ?_ (.refl _) fun _ _ => .inl
    exact grown_of_same (Nat.le_of_eq hselects.length.symm) (hselects.shown hblank) fun id hid _ =>
      hselects.same id hid.2
  named := hname
  items := by
    show ∀ i ∈ (u.stages.get last.stage).items, _
    rw [hselects.get, hselects.aliases]
    exact h.items
  unlisted hlisted' := by
    rw [hlisted] at hlisted'
    cases hlisted'
  listed _ name hname := by
    rw [hselects.outputNames]
    exact hmembers hname
  source hlisted' := by
    rw [hlisted] at hlisted'
    cases hlisted'

end

/-! ## Projections -/

/-- The state in which the open stage of a node has a select list, and a node of its own. -/
def projected (t : State) (node : NodeId) (var : String) (columns : List Column) : State :=
  let last := (nodeAt t.nodes node).last
  { t with
    stages := t.stages.modify last.stage fun a => { a with projection := some columns }
    nodes := t.nodes ++ [{ first := ⟨var, last.stage⟩ }] }

theorem nodeAt_length (nodes : List Node) (n : Node) : nodeAt (nodes ++ [n]) nodes.length = n := by
  simp [nodeAt]

theorem Built.project (h : Built S s t roots f node) (hvar : var ∈ roots)
    (hblank : Blank (t.stages.get (nodeAt t.nodes node).last.stage)) {columns : List Column} {names : List String}
    (hfine : ∀ c ∈ columns, Sql.Fine S.schema
      (fun id => s.stages.length ≤ id ∧ id ≠ (nodeAt t.nodes node).last.stage) t.stages
      ((t.stages.get (nodeAt t.nodes node).last.stage).items ++ S.env) c.expr)
    (hnames : columns.map (·.name) = names) :
    Ready S s (projected t node var columns) roots
      { clauses := { f.clauses with projection := some [] }
        columns := .of S.schema names
        inner := names
        members := names
        listed := true } t.nodes.length := by
  have hlast := h.bound (last_mem _)
  have hopen := h.open_
  have hnode : nodeAt (projected t node var columns).nodes t.nodes.length =
      { first := ⟨var, (nodeAt t.nodes node).last.stage⟩ } := nodeAt_length _ _
  have hselects : Selects t (projected t node var columns) (nodeAt t.nodes node).last.stage columns
      (t.stages.get (nodeAt t.nodes node).last.stage).groupBy := selects_modify hlast.2 rfl rfl rfl
  have hlabel : label (projected t node var columns) (nodeAt t.nodes node).last.stage = var := by
    simp [label, projected]
  have hafter : S.After s (projected t node var columns) :=
    (h.after.select hlast.1 hblank fun a => { a with projection := some columns }).touch
      (touches_pushNode hlast.1 (by simpa using hlast.2))
  generalize (nodeAt t.nodes node).last = last at *
  have hprojection : ((projected t node var columns).stages.get last.stage).projection = some columns := by
    rw [hselects.get]
  have hpulled : ((projected t node var columns).stages.get last.stage).pulled = [] := by
    rw [hselects.get]
    exact hblank.pulled
  have hplain : Plain var ((projected t node var columns).stages.get last.stage) := plain_of_pulled hpulled
  have hbound : last.stage < (projected t node var columns).stages.length := by
    rw [hselects.length]
    exact hlast.2
  refine ⟨?built, ?quiet⟩
  case quiet =>
    rw [hnode]
    exact .inl hpulled
  constructor
  case after => exact hafter
  case added => exact ⟨Nat.le_trans h.added.1 (Nat.le_of_lt h.added.2), by simp [projected]⟩
  case alone => rw [hnode]
  case open_ =>
    rw [hnode]
    refine hopen.select hselects hblank hfine (fineStage_iff.mp hopen.fine).groupBy (from_root hvar) ?_ rfl
      (by rw [hnames]; exact List.Subset.refl _)
    rw [hselects.get]
    obtain ⟨hdistinct, -, hgroupBy, horderBy, hskip, hlimit⟩ := hopen.clauses
    exact ⟨hdistinct, rfl, hgroupBy, horderBy, hskip, hlimit⟩
  case inside =>
    rw [hnode]
    refine .single ⟨hlast.1, hbound⟩ rfl hlabel hplain ?inner ?named <;> rw [hprojection]
    case inner => rintro _ ⟨⟩; exact hnames
    case named => rintro ⟨⟩
  case columns =>
    rw [hnode]
    intro name hname
    refine ⟨⟨hbound, fun hmerges => ?_, hplain, hlabel, fun hnone => ?_⟩, .nil, fun hschema columns' hcolumns => ?_⟩
    · cases hprojection.symm.trans hmerges.1
    · cases hprojection.symm.trans hnone
    · cases hprojection.symm.trans hcolumns
      exact ⟨name, rfl, hnames ▸ Columns.has_of.mp hname hschema⟩
  case vars => simp
  case sides => simp

theorem blank_wrapper {label : String} : Blank ((wrapped t node label).stages.get t.stages.length) := by
  rw [get_wrapper]
  exact ⟨rfl, rfl⟩

variable (var) in
/-- An expression from around the open stage, in a stage that is put there. -/
theorem fine_wrapper {floor : Nat} (hfloor : s.stages.length ≤ floor)
    {e : SqlExpr} (he : Sql.Fine S.schema (floor ≤ ·) t.stages
      ([{ source := .stage (nodeAt t.nodes node).last.stage, name := (nodeAt t.nodes node).last.name }] ++ S.env) e) :
    Sql.Fine S.schema (fun id => s.stages.length ≤ id ∧ id ≠ t.stages.length) (wrapped t node var).stages
      (((wrapped t node var).stages.get t.stages.length).items ++ S.env) e := by
  have hgrown : Grown S.schema (fun id => floor ≤ id ∧ id < t.stages.length) t.stages
      (wrapped t node var).stages :=
    grown_of_same steady_wrapped.length steady_wrapped.shown fun id _ hid => get_wrapped hid
  have hbounded : Sql.Fine S.schema (fun id => floor ≤ id ∧ id < t.stages.length) t.stages _ e :=
    ⟨he.visible, fun id hid => (he.closed id hid).bounded⟩
  rw [get_wrapper]
  exact (hbounded.later hgrown).mono fun id hid => ⟨Nat.le_trans hfloor hid.1, Nat.ne_of_lt hid.2⟩

/-- A projection of rows that are as a face says. -/
theorem projectRows_of_rows (hp : Sound p) {row : Expr} (hvar : var ∈ roots)
    (hinput : ∀ {child t}, Gives (p.rows e v) S.context s child t → Ready S s t roots f child)
    (hrow : row.resolves S.schema (f.sides ++ S.scope) = true) (hfresh : Fresh S.taken S.drawn (roots ++ row.binders))
    (hgiven : Given row.binders) (hok : S.Ok s)
    (hrun : Gives (projectRows p ⟨e, v⟩ row var) S.context s node t) :
    Ready S s t roots (f.project S.schema row.rowNames) node := by
  obtain ⟨child, t₁, _, t₂, columns, t₃, hrows, hopen, htaken⟩ := projectRows_inv hrun
  obtain ⟨rfl, rfl⟩ := gives_openStage_iff.mp hopen
  have hready := hinput hrows
  rw [← hready.built.open_.clauses.compatible .project] at htaken
  rcases htaken with ⟨htakes, hcolumns, rfl, rfl⟩ | ⟨hclosed, hcolumns, _, t₄, hwrap, rfl, rfl⟩
  · have hface : f.openFor .project = f := if_pos htakes
    obtain ⟨hnone, hdistinct⟩ : _ ∧ _ := by simpa [Clause.compatible] using htakes
    obtain ⟨hready', hnode, hafter, hfine, hnames⟩ := hready.inside row.binders hok hfresh hgiven
      (hready.blank hnone hdistinct).projection (fun hfree => Site.yields_rowColumns (hp.values _) hrow hfree) hcolumns
    have hfine' : ∀ c ∈ columns, _ := fun c hc => hready.built.fine_inside hafter (hfine c hc)
    rw [← hnode] at hfine' ⊢
    have hproject := hready'.built.project hvar (hready'.blank hnone hdistinct) hfine' hnames
    rw [Face.project, hface]
    exact hproject
  · obtain ⟨rfl, rfl⟩ := gives_wrap_iff.mp hwrap
    have hface : f.openFor .project = f.wrap := if_neg hclosed
    have hroots := hfresh.sublist (List.sublist_append_left roots row.binders)
    obtain ⟨hafter, hfine, hnames⟩ := Site.yields_rowColumns (hp.values _) hrow
      (free_enter hok hready.built.after hfresh hgiven) _ _ _ (.refl _) (hready.built.ok_outside hok hroots) hcolumns
    have hnode := hready.built.node_eq hafter
    have hbuilt := hready.built.leave_outside hafter
    have hwrapped := hbuilt.wrap hok hvar
    have hfine' : ∀ c ∈ columns, Sql.Fine S.schema (fun id => s.stages.length ≤ id ∧ id ≠ t₃.stages.length) _ _ _ :=
      fun c hc => fine_wrapper var hready.built.after.length (hnode ▸ hfine c hc)
    have hlast : (nodeAt (wrapped t₃ child var).nodes child).last = ⟨var, t₃.stages.length⟩ :=
      last_wrapped hbuilt.added.2
    have hproject := hwrapped.project hvar (by rw [hlast]; exact blank_wrapper) (by rw [hlast]; exact hfine') hnames
    rw [projected, hlast] at hproject
    rw [Face.project, hface]
    exact hproject

theorem projectRows_ready (hp : Sound p) {row : Expr}
    (he : (Expr.project ⟨e, v⟩ row).resolves S.schema S.scope = true)
    (hfresh : Fresh S.taken S.drawn (var :: (Expr.project ⟨e, v⟩ row).binders))
    (hgiven : Given (Expr.project ⟨e, v⟩ row).binders) (hok : S.Ok s)
    (hrun : Gives (projectRows p ⟨e, v⟩ row var) S.context s node t) :
    NodeReady S s t var (.project ⟨e, v⟩ row) node := by
  obtain ⟨hinput, hrow⟩ := Bool.and_eq_true_iff.mp he
  have hready : Ready S s t (var :: v :: e.binders) _ node :=
    projectRows_of_rows hp (.head _) (fun hrows => (hp.input hinput hfresh hgiven hok hrows).1) hrow hfresh
      (fun r hr => hgiven r (.tail _ (List.mem_append_right _ hr))) hok hrun
  exact ⟨hready.mono (List.cons_subset_cons _ (List.cons_subset_cons _ (List.subset_append_left _ _))),
    by rintro x columns ⟨⟩⟩

/-! ## Variables -/

/-- A variable is bound to the node. -/
theorem Ready.bind (h : Ready S s t roots f node) (hfresh : ¬S.taken var) (hvar : var ∈ roots)
    (hvars : ∀ x columns, (x, columns) ∈ f.sides → x ≠ var) :
    Ready S s { t with bindings := (var, node) :: t.bindings } roots (f.bind var) node := by
  have hsteady : Steady (fun _ => True) t { t with bindings := (var, node) :: t.bindings } :=
    steady_of_same (Nat.le_refl _) (fun _ _ h => h) (fun _ _ _ => rfl) fun _ _ _ => rfl
  have hbuilt := h.built
  refine ⟨?built, h.quiet⟩
  constructor
  case after => exact hbuilt.after.bind hfresh node
  case added => exact hbuilt.added
  case alone => exact hbuilt.alone
  case open_ =>
    have hopen := hbuilt.open_
    exact ⟨hopen.clauses, hopen.fine, hopen.named, hopen.items, hopen.unlisted, hopen.listed, hopen.source⟩
  case inside => exact { hbuilt.inside.steady hsteady with }
  case columns =>
    exact fun name hname => (hbuilt.columns name hname).steady (hbuilt.bound (last_mem _)).2 hsteady
  case vars =>
    intro x columns hx
    rcases List.mem_cons.mp hx with hx | hx
    · cases hx
      exact from_root hvar
    · exact hbuilt.vars x columns hx
  case sides =>
    intro x columns hx
    rcases List.mem_cons.mp hx with hx | hx
    · cases hx
      refine ⟨node, [], by simp, hbuilt.added.2, .self, hbuilt.inside.new.mono (Nat.le_refl _), fun name hname => ?_⟩
      obtain ⟨hstarts, hclimbs, hcarries⟩ := (hbuilt.columns name hname).steady (hbuilt.bound (last_mem _)).2 hsteady
      exact ⟨_, _, _, rfl, rfl, hstarts, hclimbs, hcarries⟩
    · refine (hbuilt.sides x columns hx).steady hsteady ?_ (Nat.le_refl _) fun _ _ _ => rfl
      show List.lookup x ((var, node) :: t.bindings) = _
      rw [List.lookup_cons, beq_false_of_ne (hvars x columns hx)]

/-! ## Groups -/

theorem steady_select {columns : List Column} {groupBy : Option (List SqlExpr)} {id : StageId}
    (hselects : Selects t u id columns groupBy) (hblank : Blank (t.stages.get id)) (hnodes : u.nodes = t.nodes) :
    Steady (· ≠ id) t u := by
  have hshown : Shown t.stages u.stages := @Selects.shown t u ⟨"", id⟩ columns groupBy hselects hblank
  refine steady_of_same (Nat.le_of_eq hselects.length.symm) hshown
    (fun j hj _ => hselects.same j hj) fun j hj _ => label_congr (by rw [hnodes]) (by rw [hselects.same j hj])

/-- The open stage of a node is not one of those inside it. -/
theorem New.ne_last {floor : Nat} {n : Node} (h : New floor t n.selects) {l : List AliasedStage} {b : AliasedStage}
    (hl : n.wrappers = l ++ [b]) {a : AliasedStage} (ha : a ∈ n.first :: l) : a.stage ≠ n.last.stage := by
  have hnodup := h.nodup
  rw [Node.selects, hl, ← List.cons_append, List.map_append, List.nodup_append] at hnodup
  rw [last_eq_topOf, hl, topOf_append]
  exact hnodup.2.2 a.stage (List.mem_map_of_mem ha) b.stage (by simp)

/-- The stages of a node whose open stage has a select list. -/
theorem Inside.select {floor : Nat} {n : Node} (h : Inside S.schema floor t f n) {columns : List Column}
    {groupBy : Option (List SqlExpr)} (hselects : Selects t u n.last.stage columns groupBy)
    (hblank : Blank (t.stages.get n.last.stage)) (hnodes : u.nodes = t.nodes) {names : List String}
    (hnames : columns.map (·.name) = names) {g : Face} (hwrapped : g.wrapped = f.wrapped)
    (hbelow : g.below = f.below) (hinner : g.inner = if f.wrapped then f.inner else names) :
    Inside S.schema floor u g n := by
  have hsteady := steady_select hselects hblank hnodes
  have hfrom (j : StageId) : (u.stages.get j).from_ = (t.stages.get j).from_ ∧
      (u.stages.get j).pulled = (t.stages.get j).pulled := by
    by_cases hj : j = n.last.stage
    · rw [hj, hselects.get]
      exact ⟨rfl, rfl⟩
    · rw [hselects.same j hj]
      exact ⟨rfl, rfl⟩
  have hlabel (j : StageId) : Compile.label u j = Compile.label t j := label_congr (by rw [hnodes]) (hfrom j).1
  have hplain {source : String} {j : StageId} (h : Plain source (t.stages.get j)) : Plain source (u.stages.get j) := by
    unfold Plain
    rw [(hfrom j).2]
    exact h
  constructor
  case new => exact h.new.mono hsteady.length
  case wrapped => exact hwrapped.trans h.wrapped
  case label => exact (hlabel _).trans h.label
  case plain =>
    intro hmerges
    by_cases hlast : n.first.stage = n.last.stage
    · refine plain_of_pulled ?_
      rw [hlast, (hfrom _).2, hblank.pulled]
    · rw [hselects.same _ hlast] at hmerges
      exact hplain (h.plain hmerges)
  case around =>
    intro l b hl
    have hb := h.around l b hl
    exact ⟨Nat.lt_of_lt_of_le hb.bound hsteady.length, (hfrom _).1.trans hb.from_eq, hplain hb.plain,
      (hlabel _).trans hb.label⟩
  case inner =>
    intro columns' hcolumns
    rw [hinner]
    rcases List.eq_nil_or_concat' n.wrappers with hnil | ⟨l, b, hl⟩
    · have hlast : n.last = n.first := by rw [last_eq_topOf, hnil]; rfl
      rw [← hlast, hselects.get] at hcolumns
      cases hcolumns
      rw [h.wrapped, hnil]
      exact hnames
    · rw [hselects.same _ (h.new.ne_last hl (.head _))] at hcolumns
      rw [h.wrapped, hl, List.isEmpty_eq_false_iff.mpr (by simp)]
      exact h.inner columns' hcolumns
  case below =>
    intro l b hl name hname
    obtain ⟨hstarts, hclimbs⟩ := h.below l b hl name (hbelow ▸ hname)
    have hne (a : AliasedStage) (ha : a ∈ n.first :: l) : a.stage ≠ n.last.stage := h.new.ne_last hl ha
    exact ⟨hstarts.steady hsteady (hne _ (.head _)), hclimbs.steady hsteady hstarts.bound hne⟩
  case named =>
    intro hnone
    by_cases hlast : n.first.stage = n.last.stage
    · rw [hlast, hselects.get] at hnone
      cases hnone
    · rw [hselects.same _ hlast] at hnone ⊢
      exact h.named hnone

/-- A node whose open stage has the select list of a grouping. -/
theorem Built.group (h : Built S s t roots f node) {columns : List Column} {keys : List SqlExpr}
    (hselects : Selects t u (nodeAt t.nodes node).last.stage columns (some keys))
    (hblank : Blank (t.stages.get (nodeAt t.nodes node).last.stage)) (hafter : S.After s u) (hnodes : u.nodes = t.nodes)
    (hcolumns : ∀ c ∈ columns, Sql.Fine S.schema
      (fun id => s.stages.length ≤ id ∧ id ≠ (nodeAt t.nodes node).last.stage) t.stages
      ((t.stages.get (nodeAt t.nodes node).last.stage).items ++ S.env) c.expr)
    (hkeys : ∀ e ∈ keys, Sql.Fine S.schema
      (fun id => s.stages.length ≤ id ∧ id ≠ (nodeAt t.nodes node).last.stage) t.stages
      ((t.stages.get (nodeAt t.nodes node).last.stage).items ++ S.env) e)
    {names : List String} (hnames : columns.map (·.name) = names) :
    Ready S s u roots
      { f with
        clauses := { f.clauses with projection := some [], groupBy := some [] }
        columns := (Columns.of S.schema names).within f.below
        inner := if f.wrapped then f.inner else names
        sides := []
        members := names
        listed := true } node := by
  have hget := hselects.get
  have hnode : nodeAt u.nodes node = nodeAt t.nodes node := by rw [hnodes]
  have hprojection : (u.stages.get (nodeAt t.nodes node).last.stage).projection = some columns := by rw [hget]
  have hinside : Inside S.schema s.stages.length u { f with
      clauses := { f.clauses with projection := some [], groupBy := some [] }
      columns := (Columns.of S.schema names).within f.below
      inner := if f.wrapped then f.inner else names
      sides := []
      members := names
      listed := true } (nodeAt t.nodes node) :=
    h.inside.select hselects hblank hnodes hnames rfl rfl rfl
  refine ⟨?built, ?quiet⟩
  case quiet =>
    rw [hnode, hget]
    exact .inl hblank.pulled
  constructor
  case after => exact hafter
  case added => exact ⟨h.added.1, by rw [hnodes]; exact h.added.2⟩
  case alone => rw [hnode]; exact h.alone
  case open_ =>
    rw [hnode]
    refine h.open_.select hselects hblank hcolumns hkeys ?_ ?_ rfl (by rw [hnames]; exact List.Subset.refl _)
    · rw [hselects.aliases]
      exact h.open_.named
    · rw [hget]
      obtain ⟨hdistinct, -, -, horderBy, hskip, hlimit⟩ := h.open_.clauses
      exact ⟨hdistinct, rfl, rfl, horderBy, hskip, hlimit⟩
  case inside => rw [hnode]; exact hinside
  case columns =>
    rw [hnode]
    intro name hname
    obtain ⟨hname, hbelow⟩ := Columns.has_within.mp hname
    obtain ⟨hstarts, hclimbs⟩ := hinside.through_below (by rw [hprojection]; simp) hbelow
    refine ⟨hstarts, hclimbs, fun hschema columns' hcolumns' => ⟨name, rfl, ?_⟩⟩
    rw [hprojection] at hcolumns'
    cases hcolumns'
    exact hnames ▸ Columns.has_of.mp hname hschema
  case vars => simp
  case sides => simp

/-- The columns of a grouping have the names of its row type. -/
theorem names_groupColumns {c : Context} {keys : List Expr} {aggregates : List Aggregate} {type : DataType}
    {members : List Member} {r : List SqlExpr × List SqlExpr} (htype : type.members? = some members)
    (hlength : members.length = keys.length + aggregates.length)
    (h : Gives (do
      let keyValues ← valuesOf p.value keys
      return (keyValues, ← aggregateValues p aggregates)) c s r t) :
    (columnsOf members (r.1 ++ r.2)).map (·.name) = type.memberNames := by
  rw [names_columnsOf (hlength.trans (length_groupValues h).symm), DataType.memberNames, htype]
  rfl

/-- The values of the groups: the keys, and then the aggregates. -/
theorem yields_groupValues {w : State} (hp : S.Values p) {keys : List Expr} {aggregates : List Aggregate}
    (hkeys : Expr.resolvesAll S.schema S.scope keys = true)
    (haggregates : Expr.resolvesAggregates S.schema S.scope aggregates = true)
    (hfree : S.Free (Expr.bindersOfAll keys ++ Expr.bindersOfAggregates aggregates)) :
    S.Yields w (do
      let keyValues ← valuesOf p.value keys
      return (keyValues, ← aggregateValues p aggregates)) fun t r =>
        S.FineAll t (r.1 ++ r.2) := by
  intro s r t hw hok hrun
  obtain ⟨u, hkeyValues, hvalues⟩ := groupValues_inv hrun
  have hcompiles := hp.compiles (Expr.resolvesAll_iff.mp hkeys) hfree.left
  obtain ⟨hafter, hfine⟩ := Site.yields_fineAll (Comparison.steps_valuesOf hcompiles) _ _ _ hw hok hkeyValues
  obtain ⟨hlater, hfine'⟩ := Site.yields_aggregateValues hp haggregates hfree.right _ _ _ (hw.trans hafter)
    (hok.after hafter) hvalues
  exact ⟨hafter.trans hlater, List.forall_mem_append.mpr ⟨hfine.later hlater, hfine'⟩⟩

theorem Face.columns_openFor (c : Clause) (f : Face) : (f.openFor c).columns = f.columns := by
  unfold Face.openFor
  split <;> rfl

theorem Face.sides_bind_openFor (c : Clause) (f : Face) (var : String) :
    ((f.openFor c).bind var).sides = (f.bind var).sides := by
  simp only [Face.bind, Face.columns_openFor, Face.sides_openFor]

/-- Nothing is pulled through an open stage that takes a grouping. -/
theorem Ready.blank_groupBy {g : String} (h : Ready S s t roots ((f.openFor .groupBy).bind g) node) :
    Blank (t.stages.get (nodeAt t.nodes node).last.stage) := by
  have hcompatible := compatible_openFor .groupBy f
  simp only [Clause.compatible, Bool.and_eq_true, Option.isNone_iff_eq_none, Bool.not_eq_true'] at hcompatible
  obtain ⟨⟨⟨⟨⟨hnone, -⟩, hdistinct⟩, -⟩, -⟩, -⟩ := hcompatible
  exact h.blank hnone hdistinct

theorem groupRows_ready (hp : Sound p) {g : String} {keys : List Expr} {aggregates : List Aggregate} {type : DataType}
    (he : (Expr.groupBy ⟨e, v, g⟩ keys aggregates type).resolves S.schema S.scope = true)
    (hfresh : Fresh S.taken S.drawn (var :: (Expr.groupBy ⟨e, v, g⟩ keys aggregates type).binders))
    (hgiven : Given (Expr.groupBy ⟨e, v, g⟩ keys aggregates type).binders) (hok : S.Ok s)
    (hrun : Gives (groupRows p ⟨e, v, g⟩ keys aggregates type var) S.context s node t) :
    NodeReady S s t var (.groupBy ⟨e, v, g⟩ keys aggregates type) node := by
  obtain ⟨hboth, haggregates⟩ := Bool.and_eq_true_iff.mp he
  obtain ⟨hinput, hkeys⟩ := Bool.and_eq_true_iff.mp hboth
  obtain ⟨t₁, stage, t₂, members, ⟨keyValues, values⟩, t₃, hrows, hopen, htype, hlength, hvalues, rfl⟩ :=
    groupRows_inv hrun
  have hnames := names_groupColumns htype hlength (gives_inScope.mp hvalues)
  rw [Expr.binders_groupBy] at hfresh hgiven
  have hwithout (l : List String) : (v :: l).Sublist (v :: g :: l) := (List.sublist_cons_self _ _).cons_cons _
  -- the input
  obtain ⟨hready, -⟩ := hp.input hinput (hfresh.sublist ((hwithout _).cons_cons _))
    (fun r hr => hgiven r ((hwithout _).subset hr)) hok hrows
  obtain ⟨hready, rfl⟩ := hready.openFor hok (.head _) hopen
  have hnone := hready.selects_all (by simp)
  -- the variable of the groups
  have hgroup : Fresh S.taken S.drawn (g :: var :: v :: e.binders) :=
    (hfresh.sublist (((List.sublist_append_left _ _).cons_cons _).cons_cons _ |>.cons_cons _)).subperm
      (@List.perm_middle _ g [var, v] e.binders).symm.subperm
  have hvars (x : String) (columns : Columns) (hx : (x, columns) ∈ (Face.openFor _ _).sides) : x ≠ g :=
    hgroup.ne_of_from ((hready.built.vars x columns hx).mono (List.Subset.refl _) hok.drawn (Nat.le_refl _))
  have hnew : ¬S.taken g := hgroup.not_taken (show From _ S.drawn S.drawn g from from_root (.head _))
  have hready : Ready S s t₂ (var :: v :: g :: e.binders) _ node :=
    hready.mono (List.cons_subset_cons _ (hwithout _).subset)
  have hready := hready.bind hnew (by simp) hvars
  -- the values are compiled in the open stage, which takes them as its select list
  rw [← Face.sides_bind_openFor .groupBy] at hkeys haggregates
  obtain ⟨hready', hnode, hafter, hfine⟩ := hready.inside _ hok hfresh
    (fun r hr => hgiven r (.tail _ (.tail _ (List.mem_append_right _ hr)))) hnone
    (fun hfree => yields_groupValues (hp.values _) hkeys haggregates hfree) hvalues
  have hlast := hready'.built.bound (last_mem _)
  have hfine' (e : SqlExpr) (he : e ∈ keyValues ++ values) := hready.built.fine_inside hafter (hfine e he)
  rw [← hnode] at hfine' ⊢
  have hselects : Selects t₃ { t₃ with stages := t₃.stages.modify (nodeAt t₃.nodes node).last.stage fun a =>
      { a with
        projection := some (columnsOf members (keyValues ++ values))
        groupBy := some (groupKeys keys keyValues) } } (nodeAt t₃.nodes node).last.stage _ _ :=
    selects_modify hlast.2 rfl rfl rfl
  have hafter' := hready'.built.after.select hlast.1 hready'.blank_groupBy
  refine ⟨(hready'.built.group hselects hready'.blank_groupBy (hafter' _) rfl
    (fun c hc => hfine' c.expr (expr_mem_of_mem_columnsOf hc))
    (fun e he => hfine' e (List.mem_append_left _ (mem_of_mem_groupKeys he))) hnames).mono ?_, by rintro x columns ⟨⟩⟩
  rw [Expr.binders_groupBy]
  exact List.cons_subset_cons _ (List.cons_subset_cons _ (List.cons_subset_cons _ (List.subset_append_left _ _)))

end TreeSql.Compile
