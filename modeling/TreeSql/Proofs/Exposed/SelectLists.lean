import TreeSql.Proofs.Exposed.Operators

/-
  TreeSql.Proofs.Exposed.SelectLists — operators that choose the columns of the open stage.

  A projection and a grouping give the open stage a select list of the members. Distinct rows that are taken
  around a stage list the columns of that stage again, in the same order.
-/
namespace TreeSql.Compile.Vicinity

open Sql

variable {V : Vicinity} {p : Parts} {s t u : State} {e : Expr} {f : Face} {node : NodeId} {v var : String}
  {used rest : List String}

/-! ## Columns exposed by name -/

/-- New columns are exposed under their names, after those that there are. -/
theorem names_expose {source : String} {a : Stage} (hplain : Plain source a) {names : List String}
    (hnodup : (a.pulled.map (·.name) ++ names).Nodup) :
    (a.expose source names).pulled.map (·.name) = a.pulled.map (·.name) ++ names := by
  induction names generalizing a with
  | nil => exact (List.append_nil _).symm
  | cons name names ih =>
    have hassoc : a.pulled.map (·.name) ++ name :: names = (a.pulled.map (·.name) ++ [name]) ++ names := by simp
    have hnew : name ∉ a.pulled.map (·.name) := fun hmem => (List.nodup_append.mp hnodup).2.2 name hmem name (.head _) rfl
    have hfirst : (a.expose source [name]).pulled.map (·.name) = a.pulled.map (·.name) ++ [name] := by
      rw [expose_single, exposedName?_plain hplain, if_neg hnew]
      simp
    rw [expose_cons, ih (plain_expose hplain _) (by rwa [hfirst, ← hassoc]), hfirst, hassoc]

/-- A blank stage exposes just the columns that it is told to. -/
theorem outputNames_expose {a b : Stage} (ha : Blank a) (source : String) {names : List String} (hnodup : names.Nodup)
    (hprojection : b.projection = a.projection) (hpulled : b.pulled = (a.expose source names).pulled) :
    b.outputNames = names := by
  have hall : (a.pulled.map (·.name) ++ names).Nodup := by rwa [ha.pulled]
  have hplain : Plain source a := plain_of_pulled ha.pulled
  have hnames := names_expose hplain hall
  rw [Stage.outputNames, hprojection, ha.projection, hpulled, hnames, ha.pulled]
  rfl

/-! ## Distinct rows -/

/-- The stage around the rows lists the columns of the stage that it selects from. -/
theorem Exposing.distinct {last wrapper b : Stage} {id : StageId} {source : String} (h : Exposing f last)
    (hwrapper : wrapper = .ofSource (.stage id) source)
    (hb : b = { wrapper.expose source last.outputNames with distinct := true }) :
    Exposing { f.wrap with clauses := { distinct := true }, listed := f.listed } b := by
  have hblank : Blank wrapper := by rw [hwrapper]; exact ⟨rfl, rfl⟩
  have hrest := (wider_expose wrapper source last.outputNames).rest
  have hprojection : b.projection = wrapper.projection := by rw [hb]; exact (wider_expose _ _ _).projection
  have hpulled : b.pulled = (wrapper.expose source last.outputNames).pulled := by rw [hb]
  constructor
  case clauses =>
    rw [hb, hrest, hwrapper]
    exact ⟨rfl, rfl, rfl, rfl, rfl, rfl⟩
  case marked => exact fun _ => .inr rfl
  case unlisted =>
    -- the stage that is closed has no columns yet
    intro hlisted
    have hnone : last.outputNames = [] := (h.unlisted hlisted).1.outputNames
    rw [hnone] at hpulled
    refine ⟨blank_congr hblank hprojection hpulled, fun _ => ?_⟩
    rw [hb, hrest, hwrapper]
    exact ⟨_, rfl⟩
  case listed =>
    intro hlisted hnodup
    have hnames : last.outputNames = f.members := h.listed hlisted hnodup
    exact (outputNames_expose hblank source (hnames ▸ hnodup) hprojection hpulled).trans hnames

theorem Stands.wrap_distinct (h : Stands V s t f node) (hok : V.Ok s) :
    Stands V s { wrapped t node var with
        stages := (wrapped t node var).stages.modify t.stages.length fun a =>
          { a.expose (nodeAt t.nodes node).last.name (t.stages.get (nodeAt t.nodes node).last.stage).outputNames with
            distinct := true } }
      { f.wrap with clauses := { distinct := true }, listed := f.listed } node := by
  have hw : Stands V s (wrapped t node var) f.wrap node := h.wrap hok
  have hlast : (nodeAt (wrapped t node var).nodes node).last = ⟨var, t.stages.length⟩ := last_wrapped h.added.2
  have hfed := (passable_wrapper node var (hok.after h.after) h.after.length).2
  generalize hg : (fun a : Stage =>
    { a.expose (nodeAt t.nodes node).last.name (t.stages.get (nodeAt t.nodes node).last.stage).outputNames with
      distinct := true }) = g
  have hfrom (a : Stage) : (g a).from_ = a.from_ := by rw [← hg]; exact (wider_expose _ _ _).from_eq
  have hprojection (a : Stage) : (g a).projection = a.projection := by rw [← hg]; exact (wider_expose _ _ _).projection
  have helements (a : Stage) : (g a).elements = a.elements := by
    have hwider := Stage.elements_wider (wider_expose a (nodeAt t.nodes node).last.name
      (t.stages.get (nodeAt t.nodes node).last.stage).outputNames)
    rw [← hg]
    exact hwider
  have hchange := @Stands.change V s _ _ f.wrap node hw (.refl hw) g
    { f.wrap with clauses := { distinct := true }, listed := f.listed } hfrom
  rw [hlast] at hchange
  refine hchange (fun i hi hplain => ?_) (fun id hid => .inl (helements _ ▸ hid)) rfl (List.Subset.refl _) ?_ ?_
  · rw [hfed i hi] at hplain ⊢
    rw [← hg]
    exact plain_congr rfl (plain_expose hplain _)
  · rw [projection_modify hprojection]
    exact hw.inner
  · exact h.open_.distinct get_wrapper (by rw [← hg])

theorem stands_distinctRows (hp : Sound p) (he : V.Suits (.distinct e)) (hok : V.Ok s)
    (hrun : Gives (distinctRows p e var) V.context s node t) : Stands V s t ((Expr.distinct e).face none) node := by
  obtain ⟨label, t₁, t₂, _, t₃, halias, hrows, hopen, htaken⟩ := distinctRows_inv hrun
  obtain ⟨rfl, rfl⟩ := gives_openStage_iff.mp hopen
  obtain ⟨-, hnodes⟩ := Bool.and_eq_true_iff.mp he.nodes
  have hinput : e.resolves none V.scope = true := he.valued.1
  have h := hp.aliased (suits_of_resolves hinput he.free hnodes) hok halias hrows
  have hface : (Expr.distinct e).face none = Face.distinct (e.face none) := rfl
  rw [Face.distinct] at hface
  rw [← h.open_.clauses.compatible .distinct] at htaken
  rcases htaken with ⟨htakes, rfl⟩ | ⟨hclosed, _, t₄, hwrap, rfl⟩
  · rw [hface, if_pos htakes]
    exact h.attach (.refl h) clausal_distinct adds_distinct (by simp)
  · obtain ⟨rfl, rfl⟩ := gives_wrap_iff.mp hwrap
    rw [hface, if_neg hclosed]
    exact h.wrap_distinct hok

/-! ## Select lists -/

/-- A stage with a select list of the members. -/
theorem exposing_select {b : Stage} {g : Face} (hclauses : SameClauses g.clauses b) {columns : List Column}
    (hprojection : b.projection = some columns) (hselected : g.clauses.projection.isSome = true)
    (hlisted : g.listed = true) (hnames : columns.map (·.name) = g.members) : Exposing g b where
  clauses := hclauses
  marked _ := .inl hselected
  unlisted hunlisted := by
    rw [hlisted] at hunlisted
    cases hunlisted
  listed _ _ := by
    rw [Stage.outputNames, hprojection]
    exact hnames

/-- The node of a projection is one stage. -/
theorem stands_projected {id : StageId} {clauses : Stage} {columns : List Column} {names : List String}
    (hafter : V.After s t) (hid : Passable (s.stages.length ≤ ·) t id)
    (hkept : ∀ c ∈ columns, ∀ j ∈ c.expr.elements, j ≠ id ∧ Kept V.test s.stages.length t j)
    (hblank : Blank (t.stages.get id))
    (hclauses : SameClauses clauses (t.stages.get id)) (hnames : columns.map (·.name) = names) :
    Stands V s { t with
        stages := t.stages.modify id fun a => { a with projection := some columns }
        nodes := t.nodes ++ [{ first := ⟨var, id⟩ }] }
      { clauses := { clauses with projection := some [] }
        columns := .of none names
        inner := names
        members := names
        listed := true } t.nodes.length := by
  have hget : Stages.get (t.stages.modify id fun a => { a with projection := some columns }) id =
      { t.stages.get id with projection := some columns } := by
    rw [Stages.get_modify, if_pos ⟨rfl, hid.bound⟩]
  have hadded : ∀ j ∈ ({ t.stages.get id with projection := some columns } : Stage).elements,
      j ∈ (t.stages.get id).elements ∨ j ≠ id ∧ Kept V.test s.stages.length t j := fun j hj =>
    (adds_select columns _ j hj).imp_right fun ⟨e, he, hj⟩ => by
      obtain ⟨c, hc, rfl⟩ := List.mem_map.mp he
      exact hkept c hc j hj
  have hselected : V.After s { t with stages := t.stages.modify id fun a => { a with projection := some columns } } :=
    hafter.change (changes_modifyStage hid.among hid.unsealed (List.Subset.refl _) hadded)
  refine .single (a := ⟨var, id⟩) (hselected.change (changes_pushNode hid.among (by simpa using hid.bound))) ?added
    (nodeAt_length _ _) ?passable ?fed rfl ?inner ?exposing (by simp)
  case added => exact ⟨length_nodes hafter, by simp⟩
  case passable =>
    refine ⟨hid.among, by simpa using hid.bound, fun hsealed => ?_, neat_of_pulled ?_⟩
    · exact ((onlyNew_modify (List.Subset.refl _) hadded).sealed hsealed).elim hid.unsealed fun hne => hne.1 rfl
    · show (Stages.get _ id).pulled = []
      rw [hget]
      exact hblank.pulled
  case fed => exact fun i _ => by simp [Compile.label]
  case inner =>
    show ((Stages.get _ id).projection.getD []).map _ = _
    rw [hget]
    exact hnames
  case exposing =>
    show Exposing _ (Stages.get _ id)
    rw [hget]
    obtain ⟨hdistinct, -, hgroupBy, horderBy, hskip, hlimit⟩ := hclauses
    exact exposing_select ⟨hdistinct, rfl, hgroupBy, horderBy, hskip, hlimit⟩ rfl rfl rfl hnames

/-- An open stage that takes a select list has no columns yet. -/
theorem Stands.blank (h : Stands V s t f node) (hnone : f.clauses.projection = none)
    (hdistinct : f.clauses.distinct = false) : Blank (t.stages.get (nodeAt t.nodes node).last.stage) := by
  refine (h.open_.unlisted (Bool.eq_false_iff.mpr fun hlisted => ?_)).1
  rcases h.open_.marked hlisted with hsome | htrue
  · rw [hnone] at hsome
    cases hsome
  · rw [hdistinct] at htrue
    cases htrue

theorem Kept.wrapped {test : Expr → Bool} {floor : Nat} {id : StageId} {label : String} (h : Kept test floor t id) :
    Kept test floor (Compile.wrapped t node label) id :=
  ⟨h.floor, Nat.lt_of_lt_of_le h.bound (by simp [Compile.wrapped]), h.shown.congr (by rw [get_wrapped h.bound])⟩

/-- A projection of rows that are as a face says. -/
theorem stands_projectRows_of_rows (used : List String) {row : Expr}
    (hinput : ∀ {child t}, Gives (p.rows e v) V.context s child t → Stands V s t f child) (hok : V.Ok s)
    (hused : ∀ x columns, (x, columns) ∈ f.sides → x ∈ used)
    (hrow : ∀ t scopes can, (V.enter scopes f.sides used can).Yields t (rowColumns p row) fun u columns =>
      columns.map (·.name) = row.rowNames ∧ ∀ c ∈ columns, ∀ id ∈ c.expr.elements, Kept V.test t.stages.length u id)
    (hrun : Gives (projectRows p ⟨e, v⟩ row var) V.context s node t) :
    Stands V s t (f.project none row.rowNames) node := by
  obtain ⟨child, t₁, _, t₂, columns, t₃, hrows, hopen, htaken⟩ := projectRows_inv hrun
  obtain ⟨rfl, rfl⟩ := gives_openStage_iff.mp hopen
  have h := hinput hrows
  rw [← h.open_.clauses.compatible .project] at htaken
  rw [Face.project, Face.openFor]
  rcases htaken with ⟨htakes, hcolumns, rfl, rfl⟩ | ⟨hclosed, hcolumns, _, t₄, hwrap, rfl, rfl⟩
  · obtain ⟨hnone, hdistinct⟩ : _ ∧ _ := by simpa [Clause.compatible] using htakes
    obtain ⟨hm, hnames, hkept⟩ := h.inside used hok hused (hrow _) hcolumns
    have h' := h.later hm
    rw [if_pos htakes, ← hm.last_eq h]
    refine stands_projected h'.after h'.last (fun c hc id hid => ?_) (h'.blank hnone hdistinct) h'.open_.clauses hnames
    have hkept := hkept c hc id hid
    rw [hm.last_eq h]
    exact ⟨Nat.ne_of_gt (Nat.lt_of_lt_of_le h.last.bound hkept.floor), hkept.mono h.after.length⟩
  · obtain ⟨rfl, rfl⟩ := gives_wrap_iff.mp hwrap
    obtain ⟨hafter, -, hnames, hkept⟩ := h.around used hok hused (hrow _) hcolumns
    rw [if_neg hclosed]
    refine stands_projected (after_wrapped hafter h.added.1) (passable_wrapper _ _ (hok.after hafter) hafter.length).1
      (fun c hc id hid => ?_) blank_wrapper ?_ hnames
    · have hkept := hkept c hc id hid
      exact ⟨Nat.ne_of_lt hkept.bound, (hkept.mono h.after.length).wrapped⟩
    rw [get_wrapper]
    exact ⟨rfl, rfl, rfl, rfl, rfl, rfl⟩

theorem stands_projectRows (hp : Sound p) {row : Expr} (he : V.Suits (.project ⟨e, v⟩ row)) (hok : V.Ok s)
    (hrun : Gives (projectRows p ⟨e, v⟩ row var) V.context s node t) :
    Stands V s t ((Expr.project ⟨e, v⟩ row).face none) node := by
  obtain ⟨hinput, hrow⟩ := Bool.and_eq_true_iff.mp he.valued.1
  obtain ⟨-, hnodes⟩ := Bool.and_eq_true_iff.mp he.nodes
  obtain ⟨hnodes, hnodes'⟩ := Bool.and_eq_true_iff.mp hnodes
  refine stands_projectRows_of_rows (v :: e.binders) (fun hrows => (hp.input hinput he.free hnodes hok hrows).1) hok
    (fun _ _ => e.bound_side_mem) (fun t scopes can => ?_) hrun
  refine yields_mono (yields_rowColumns fun type args hargs => (hp.values _).compiles ?_ _) fun _ _ h =>
    ⟨h.1, fun c hc => (h.2 c hc).kept⟩
  subst hargs
  exact (suits_enter he.free hrow hnodes').parts hrow (.refl _) (List.subset_cons_self _ _)

/-! ## Groups -/

/-- The values of the groups are the keys and the aggregates, in their scope. -/
theorem yields_groupValues {w : State} (hp : V.Values p) {keys : List Expr} {aggregates : List Aggregate}
    (hkeys : Expr.resolvesAll none V.scope keys = true)
    (haggregates : Expr.resolvesAggregates none V.scope aggregates = true)
    (hfree : V.Free (Expr.bindersOfAll keys ++ Expr.bindersOfAggregates aggregates))
    (hnodes : Expr.everyNodeOfAll V.test keys = true)
    (hnodes' : Expr.everyNodeOfAggregates V.test aggregates = true) :
    V.Yields w (do
      let keyValues ← valuesOf p.value keys
      return (keyValues, ← aggregateValues p aggregates)) fun t r =>
        ∀ a ∈ r.1 ++ r.2, V.Settled w.stages.length t a := by
  intro s r t hw hok hrun
  obtain ⟨u, hkeyValues, hvalues⟩ := groupValues_inv hrun
  have hcompiles := hp.compiles_all (Expr.resolvesAll_iff.mp hkeys) hfree.left (Expr.everyNodeOfAll_iff.mp hnodes)
    w.stages.length
  obtain ⟨hafter, hsettled⟩ := settles_valuesOf hcompiles _ _ _ hw hok hkeyValues
  obtain ⟨hlater, hsettled'⟩ := settles_aggregateValues hp haggregates hfree.right hnodes' _ _ _ (.refl u)
    (hok.after hafter) hvalues
  refine ⟨hafter.trans hlater, ?_⟩
  exact List.forall_mem_append.mpr ⟨fun a ha => (hsettled a ha).later hlater, fun a ha =>
    (hsettled' a ha).mono (hw.trans hafter).length⟩

/-- A select list on the open stage is the one of the innermost stage, if no stage is inside. -/
theorem Stands.inner_select (h : Stands V s t f node) {g : Stage → Stage} {columns : List Column}
    (hg : ∀ a, (g a).projection = some columns) :
    ((Stages.get (t.stages.modify (nodeAt t.nodes node).last.stage g)
      (nodeAt t.nodes node).first.stage).projection.getD []).map (·.name) =
        if f.wrapped then f.inner else columns.map (·.name) := by
  rw [Stages.get_modify, h.enclosed]
  rcases List.eq_nil_or_concat' (nodeAt t.nodes node).wrappers with hnil | ⟨l, b, hl⟩
  · have hlast : (nodeAt t.nodes node).last = (nodeAt t.nodes node).first := by rw [last_eq_topOf, hnil]; rfl
    rw [if_pos ⟨by rw [hlast], hlast ▸ h.last.bound⟩, hg, hnil]
    rfl
  · rw [if_neg fun hsame => h.new.ne_last hl (.head _) hsame.1, hl, List.isEmpty_eq_false_iff.mpr (by simp)]
    exact h.inner

theorem stands_groupRows (hp : Sound p) {g : String} {keys : List Expr} {aggregates : List Aggregate} {type : DataType}
    (he : V.Suits (.groupBy ⟨e, v, g⟩ keys aggregates type)) (hok : V.Ok s)
    (hrun : Gives (groupRows p ⟨e, v, g⟩ keys aggregates type var) V.context s node t) :
    Stands V s t ((Expr.groupBy ⟨e, v, g⟩ keys aggregates type).face none) node := by
  obtain ⟨hboth, haggregates⟩ := Bool.and_eq_true_iff.mp he.valued.1
  obtain ⟨hinput, hkeys⟩ := Bool.and_eq_true_iff.mp hboth
  obtain ⟨-, hnodes⟩ := Bool.and_eq_true_iff.mp he.nodes
  obtain ⟨hboth, hnodesA⟩ := Bool.and_eq_true_iff.mp hnodes
  obtain ⟨hnodes, hnodesK⟩ := Bool.and_eq_true_iff.mp hboth
  obtain ⟨t₁, stage, t₂, members, ⟨keyValues, values⟩, t₃, hrows, hopen, htype, hlength, hvalues, rfl⟩ :=
    groupRows_inv hrun
  have hnames := names_groupColumns htype hlength (gives_inScope.mp hvalues)
  have hwithout : (v :: (e.binders ++ (Expr.bindersOfAll keys ++ Expr.bindersOfAggregates aggregates))).Sublist
      (Expr.groupBy ⟨e, v, g⟩ keys aggregates type).binders := by
    rw [Expr.binders_groupBy]
    exact (List.sublist_cons_self _ _).cons_cons _
  obtain ⟨h, hused⟩ := hp.input hinput (he.free.subperm hwithout.subperm) hnodes hok hrows
  obtain ⟨h, rfl⟩ := h.openFor hok hopen
  rw [← Face.sides_openFor .groupBy] at hused
  -- the variable of the groups
  have hfree : V.Free ((g :: v :: e.binders) ++ (Expr.bindersOfAll keys ++ Expr.bindersOfAggregates aggregates)) := by
    refine he.free.subperm ?_
    rw [Expr.binders_groupBy]
    exact (List.Perm.swap v g _).subperm
  have hapart (x : String) (hx : x ∈ v :: e.binders) : x ≠ g := fun hxg =>
    (List.nodup_cons.mp hfree.left.nodup).1 (hxg ▸ hx)
  have h := h.bind (hfree.apart g (.head _)) fun x columns hx => hapart x (hused x columns hx)
  rw [← Face.sides_bind_openFor .groupBy] at hkeys haggregates
  obtain ⟨hm, hkept⟩ := h.inside (g :: v :: e.binders) hok
    (R := fun u r => ∀ a ∈ r.1 ++ r.2, ∀ id ∈ a.elements, Kept V.test t₂.stages.length u id)
    (fun x columns hx => (List.mem_cons.mp hx).elim (fun hx => by cases hx; exact .head _)
      fun hx => .tail _ (hused x columns hx))
    (fun _ _ => yields_mono (yields_groupValues (hp.values _) hkeys haggregates hfree.enter hnodesK hnodesA)
      fun _ _ h a ha => (h a ha).kept) hvalues
  refine h.change hm (fun _ => rfl) (fun _ _ => plain_congr rfl) (fun id hid => ?_) rfl (List.nil_subset _) ?_ ?_
  · rcases adds_group _ _ _ id hid with hid | ⟨a, ha, hid⟩
    · exact .inl hid
    refine .inr (hkept a ?_ id hid)
    rcases List.mem_append.mp ha with ha | ha
    · obtain ⟨c, hc, rfl⟩ := List.mem_map.mp ha
      exact expr_mem_of_mem_columnsOf hc
    · exact List.mem_append_left _ (mem_of_mem_groupKeys ha)
  · have hinner := (h.later hm).inner_select (g := fun a => { a with
      projection := some (columnsOf members (keyValues ++ values))
      groupBy := some (groupKeys keys keyValues) }) fun _ => rfl
    rw [hm.last_eq h] at hinner
    exact hinner.trans (by rw [hnames]; rfl)
  · obtain ⟨hdistinct, -, -, horderBy, hskip, hlimit⟩ := h.open_.clauses
    exact exposing_select ⟨hdistinct, rfl, rfl, horderBy, hskip, hlimit⟩ rfl rfl rfl hnames

end TreeSql.Compile.Vicinity
