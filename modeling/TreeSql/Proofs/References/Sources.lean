import TreeSql.Proofs.Compile.TreeComparison
import TreeSql.Proofs.References.SelectLists

/-
  TreeSql.Proofs.References.Sources — tables, calls, constant rows and set operations.

  A node that selects from one source is as the face of the source says (`ready_source`). The operands of a set
  operation are compiled one by one, and each of them exposes its members.
-/
namespace TreeSql.Compile

open Sql

variable {S : Site} {p : Parts} {s t u : State} {e : Expr} {node : NodeId} {v var : String} {roots rest : List String}

/-! ## Nodes of one stage -/

/-- A node of one stage, which has a FROM clause and nothing else. -/
structure Started (S : Site) (s t : State) (roots : List String) (node : NodeId) (a : AliasedStage) (from_ : FromTree) :
    Prop where
  after : S.After s t
  added : s.nodes.length ≤ node ∧ node < t.nodes.length
  first : nodeAt t.nodes node = { first := a }
  bound : s.stages.length ≤ a.stage ∧ a.stage < t.stages.length
  stage : t.stages.get a.stage = { from_ := some from_ }
  label : Compile.label t a.stage = a.name
  named : a.name ∈ roots
  items : ∀ i ∈ from_.items, From roots s.aliases t.aliases i.name
  exprs : ∀ q ∈ from_.exprs S.env,
    Sql.Fine S.schema (fun id => s.stages.length ≤ id ∧ id ≠ a.stage) t.stages q.1 q.2
  inner : ∀ q ∈ from_.inner S.env,
    Closed S.schema (fun id => s.stages.length ≤ id ∧ id ≠ a.stage) t.stages q.1 q.2
  item : ∀ i, from_ = .item i → i.name = a.name

section

variable {a : AliasedStage} {from_ : FromTree} {columns : Columns} {members : List String} {sides : Scope}

theorem Started.plain (h : Started S s t roots node a from_) : Plain a.name (t.stages.get a.stage) := by
  rw [h.stage]
  exact plain_of_pulled rfl

theorem Started.openStage (h : Started S s t roots node a from_)
    (hmembers : ∀ name ∈ members, ∃ i, from_ = .item i ∧ ∀ schema ∈ S.schema, i.source.Exposes schema t.stages name) :
    OpenStage S s t roots { columns, members, sides } a := by
  constructor
  case clauses =>
    rw [h.stage]
    exact ⟨rfl, rfl, rfl, rfl, rfl, rfl⟩
  case fine =>
    rw [h.stage]
    exact ⟨h.exprs, h.inner⟩
  case named => exact from_root h.named
  case items =>
    rw [h.stage]
    exact h.items
  case unlisted => exact fun _ => rfl
  case listed => exact fun hlisted => by cases hlisted
  case source =>
    intro _ _ name hname
    obtain ⟨i, rfl, hexposes⟩ := hmembers name hname
    rw [h.stage]
    exact ⟨i, rfl, hexposes⟩

theorem Started.inside (h : Started S s t roots node a from_) :
    Inside S.schema s.stages.length t { columns, members, sides } { first := a } := by
  refine .single h.bound rfl h.label h.plain ?inner ?named <;> rw [h.stage]
  case inner => rintro _ ⟨⟩
  case named => exact fun _ i hi => h.item i (Option.some.inj hi)

/-- The node is ready for clauses, with what comes out of its FROM clause. -/
theorem Started.ready (h : Started S s t roots node a from_)
    (hmembers : ∀ name ∈ members, ∃ i, from_ = .item i ∧ ∀ schema ∈ S.schema, i.source.Exposes schema t.stages name)
    (hcolumns : ∀ name, columns.has name = true → Offers S.schema t { first := a } name)
    (hvars : ∀ x columns, (x, columns) ∈ sides → From roots s.aliases t.aliases x)
    (hsides : ∀ x columns, (x, columns) ∈ sides → Reached S.schema s.stages.length t node x columns [a] a) :
    Ready S s t roots { columns, members, sides } node := by
  refine ⟨⟨h.after, h.added, ?alone, ?open_, ?inside, ?columns, hvars, ?sides⟩, ?quiet⟩ <;> rw [h.first]
  case open_ => exact h.openStage hmembers
  case inside => exact h.inside
  case columns => exact hcolumns
  case sides => exact hsides
  case quiet =>
    show Quiet _ (t.stages.get a.stage)
    rw [h.stage]
    exact .inl rfl

end

/-! ## One source -/

/-- A stage on a source, with a node of its own. -/
def sourced (t : State) (source : Source) (var : String) : State :=
  { t with
    stages := t.stages ++ [.ofSource source var]
    nodes := t.nodes ++ [{ first := ⟨var, t.stages.length⟩ }] }

/-- The source shows what its face says, and its references are visible. -/
structure Offered (S : Site) (s t : State) (source : Source) (var : String) (columns : Columns) (members : List String) : Prop where
  columns : ∀ name, columns.has name = true → ∀ schema ∈ S.schema, source.Exposes schema t.stages name
  members : ∀ name ∈ members, ∀ schema ∈ S.schema, source.Exposes schema t.stages name
  exprs : ∀ q ∈ FromTree.exprs S.env (.item { source, name := var }),
    Sql.Fine S.schema (s.stages.length ≤ ·) t.stages q.1 q.2
  inner : ∀ q ∈ FromTree.inner S.env (.item { source, name := var }),
    Closed S.schema (s.stages.length ≤ ·) t.stages q.1 q.2

theorem get_sourced (t : State) (source : Source) (var : String) :
    (sourced t source var).stages.get t.stages.length = .ofSource source var := by
  show Stages.get (t.stages ++ [_]) _ = _
  rw [Stages.get_append, if_pos rfl]

theorem started_source (hafter : S.After s t) (hvar : var ∈ roots) {source : Source} {columns : Columns}
    {members : List String} (h : Offered S s t source var columns members) :
    Started S s (sourced t source var) roots t.nodes.length ⟨var, t.stages.length⟩ (.item { source, name := var }) := by
  have hshown : Shown t.stages (sourced t source var).stages := shown_append _
  have hgrown : Grown S.schema (fun id => s.stages.length ≤ id ∧ id < t.stages.length) t.stages
      (sourced t source var).stages := by
    refine grown_of_same (by simp [sourced]) hshown fun id _ hid => ?_
    show Stages.get (t.stages ++ [_]) _ = _
    rw [Stages.get_append, if_neg (Nat.ne_of_lt hid)]
  have hclosed {env : Items} {id : StageId} (hid : Closed S.schema (s.stages.length ≤ ·) t.stages env id) :
      Closed S.schema (fun id => s.stages.length ≤ id ∧ id ≠ t.stages.length) (sourced t source var).stages env
        id := (hid.bounded.later hgrown).mono fun _ hid => ⟨hid.1, Nat.ne_of_lt hid.2⟩
  constructor
  case after =>
    exact (hafter.touch (touches_pushStage hafter.length (.ofSource source var))).touch
      (touches_pushNode hafter.length (by simp))
  case added =>
    obtain ⟨new, hnodes, -⟩ := hafter.nodes.added
    refine ⟨?_, by simp [sourced]⟩
    rw [hnodes, List.length_append]
    exact Nat.le_add_right _ _
  case first => exact nodeAt_length _ _
  case bound => exact ⟨hafter.length, by simp [sourced]⟩
  case stage => exact get_sourced t source var
  case label => simp [label, sourced]
  case named => exact hvar
  case items =>
    intro i hi
    obtain rfl := List.mem_singleton.mp hi
    exact from_root hvar
  case exprs =>
    intro q hq
    have hfine := h.exprs q hq
    exact ⟨fun r hr => hshown.found (hfine.visible r hr), fun id hid => hclosed (hfine.closed id hid)⟩
  case inner => exact fun q hq => hclosed (h.inner q hq)
  case item => rintro i ⟨⟩; rfl

theorem ready_source (hafter : S.After s t) (hvar : var ∈ roots) {source : Source} {columns : Columns}
    {members : List String} (h : Offered S s t source var columns members) :
    Ready S s (sourced t source var) roots { columns, members } t.nodes.length := by
  have hstarted := started_source hafter hvar h
  have hshown : Shown t.stages (sourced t source var).stages := shown_append _
  refine hstarted.ready (fun name hname => ⟨_, rfl, fun schema hschema => ?_⟩) (fun name hname => ?_) (by simp) (by simp)
  · exact hshown.exposes (h.members name hname schema hschema)
  · refine ⟨⟨hstarted.bound.2, ?_, hstarted.plain, hstarted.label, fun _ => ?_⟩, .nil, ?_⟩
    · rw [get_sourced]
      exact not_merges_of_item rfl
    · rw [get_sourced]
      refine ⟨{ source, name := var }, ?_, fun schema hschema => hshown.exposes (h.columns name hname schema hschema)⟩
      simp [Items.at_, Stage.items, Stage.ofSource, FromTree.items]
    · intro _ columns' hcolumns'
      have hcolumns' : ((sourced t source var).stages.get t.stages.length).projection = some columns' := hcolumns'
      rw [get_sourced] at hcolumns'
      cases hcolumns'

/-! ## Tables and calls -/

theorem scan_ready {set : EntitySet} (he : (Expr.scan set).resolves S.schema S.scope = true)
    (hrun : Gives (pushSource (.table (tableSql set)) var) S.context s node t) :
    NodeReady S s t var (.scan set) node := by
  obtain ⟨rfl, rfl⟩ := gives_pushSource.mp hrun
  have htable (name : String) (hname : name ∈ set.columns.map (·.name)) (schema : Schema) (hschema : schema ∈ S.schema) :
      name ∈ schema (tableSql set) := by
    have he : S.schema.all (fun columns => set.columns.all fun m => (columns (tableSql set)).contains m.name) = true := he
    obtain ⟨m, hm, rfl⟩ := List.mem_map.mp hname
    rw [Option.mem_def.mp hschema] at he
    simpa using List.all_eq_true.mp he m hm
  refine ⟨ready_source (.refl s) (.head _) ⟨fun name hname schema hschema => ?_, htable, by simp [FromTree.exprs],
    by simp [FromTree.inner]⟩, by rintro x columns ⟨⟩⟩
  exact htable name (Columns.has_of.mp hname (by rw [Option.mem_def.mp hschema]; rfl)) schema hschema

section

variable {α : Type} {m : CompileM α} {P : State → α → Prop} {a : α}

/-- What is compiled before a node, with stages of its own only. -/
theorem before_node (hok : S.Ok s) (hfree : S.Free rest)
    (hm : (besideSite S s s []).Free rest → (besideSite S s s []).Yields s m P)
    (hrun : Gives m S.context s a t) : S.After s t ∧ P t a := by
  have hnone : Fresh S.taken S.drawn ([] ++ rest) := hfree.fresh
  obtain ⟨hafter, ha⟩ := hm (free_enter hok (.refl s) hnone hfree.given) s a t (.refl s)
    (ok_beside hok (.refl s) (hnone.sublist (List.nil_sublist _))) hrun
  exact ⟨Site.after_leave (.refl s) (fun _ hid => hid.elim) hafter, ha⟩

end

theorem callRows_ready (hp : Sound p) {f : FunctionRef} {args : List Expr} {type : DataType}
    (he : (Expr.call f args type).resolves S.schema S.scope = true) (hfree : S.Free (Expr.call f args type).binders)
    (hok : S.Ok s) (hrun : Gives (callRows p f args type var) S.context s node t) :
    NodeReady S s t var (.call f args type) node := by
  obtain ⟨call, t₁, hcall, hpush⟩ := gives_bind.mp hrun
  obtain ⟨rfl, rfl⟩ := gives_pushSource.mp hpush
  obtain ⟨hafter, hfine⟩ := before_node hok hfree (fun hfree => Site.yields_fine (Comparison.steps_callValue f type
    ((hp.values _).compiles (Expr.resolvesAll_iff.mp he) hfree))) hcall
  refine ⟨ready_source hafter (.head _) ⟨fun _ _ _ _ => trivial, fun _ _ _ _ => trivial, ?_, by simp [FromTree.inner]⟩,
    by rintro x columns ⟨⟩⟩
  intro q hq
  obtain rfl := List.mem_singleton.mp hq
  exact hfine

/-! ## Constant rows -/

theorem yields_constantColumns {w : State} (hp : S.Values p) {arg : Expr} (he : Expr.Valued S.schema S.scope arg)
    (hfree : S.Free arg.binders) : S.Yields w (constantColumns p arg) S.FineColumns := by
  unfold constantColumns
  split
  · exact Site.yields_mono (Site.yields_rowColumns hp he.1 hfree) fun _ _ h => h.1
  · refine Site.yields_bind (hp arg he hfree w) fun _ hx => Site.yields_pure fun t ht c hc => ?_
    obtain rfl := List.mem_singleton.mp hc
    exact hx.later ht

/-- A list of fine expressions is fine. -/
theorem fine_parts {stages : Stages} {schema : Option Schema} {among : StageId → Prop} {env : Items}
    {es : List SqlExpr} (h : ∀ e ∈ es, Sql.Fine schema among stages env e) :
    Sql.Fine schema among stages env (.list es) ∧ Sql.Fine schema among stages env (.seq es) :=
  ⟨(congruence_fine stages env).list (List.forall₂_same.mpr h), (congruence_fine stages env).seq (List.forall₂_same.mpr h)⟩

theorem yields_constantSelects {w : State} (hp : S.Values p) {args : List Expr}
    (he : ∀ e ∈ args, Expr.Valued S.schema S.scope e) (hfree : S.Free (Expr.bindersOfAll args)) :
    S.Yields w (constantSelects p args) fun t selects => ∀ select ∈ selects, S.FineAll t select := by
  induction args generalizing w with
  | nil => exact Site.yields_pure fun _ _ _ h => by cases h
  | cons arg args ih =>
    refine Site.yields_bind (yields_constantColumns hp (he arg (.head _)) hfree.left) fun hu hcolumns => ?_
    refine Site.yields_bind (ih (fun e he' => he e (.tail _ he')) hfree.right) fun hv hselects => ?_
    refine Site.yields_pure fun t ht select hselect => ?_
    rcases List.mem_cons.mp hselect with rfl | hselect
    · intro e he
      rcases List.mem_cons.mp he with rfl | he
      · exact fine_of_no_leaves rfl
      · obtain rfl := List.mem_singleton.mp he
        refine (fine_parts fun x hx => ?_).1
        obtain ⟨c, hc, rfl⟩ := List.mem_map.mp hx
        exact @Congruence.column _ (congruence_fine _ _) c.expr c.expr ((hcolumns c hc).later (hv.trans ht)) c.name c.type
    · exact (hselects select hselect).later ht

/-- Rows that are written out have any column. -/
theorem constant_ready {type : DataType} {args : List Expr} {rows : SqlExpr} (hnone : Expr.elementFace? S.schema args = none)
    (hafter : S.After s t) (hfine : Sql.Fine S.schema (s.stages.length ≤ ·) t.stages S.env rows) :
    NodeReady S s (sourced t (.rows rows) var) var (.newInstance type args) t.nodes.length := by
  have hface : (Expr.newInstance type args).face S.schema = { columns := none, members := type.memberNames } := by
    rw [Expr.face, hnone]
  refine ⟨?_, by rw [hface]; rintro x columns ⟨⟩⟩
  rw [hface]
  refine ready_source hafter (.head _) ⟨fun _ _ _ _ => trivial, fun _ _ _ _ => trivial, fun q hq => ?_,
    by simp [FromTree.inner]⟩
  obtain rfl := List.mem_singleton.mp hq
  exact hfine

theorem constantRows_ready (hp : Sound p) {args : List Expr} {type : DataType}
    (he : (Expr.newInstance type args).resolves S.schema S.scope = true)
    (hfresh : Fresh S.taken S.drawn (var :: (Expr.newInstance type args).binders))
    (hgiven : Given (Expr.newInstance type args).binders) (hok : S.Ok s)
    (hrun : Gives (constantRows p type args var) S.context s node t) :
    NodeReady S s t var (.newInstance type args) node := by
  have hargs := Expr.resolvesAll_iff.mp he
  have hfree : S.Free (Expr.bindersOfAll args) := ⟨hfresh.sublist (List.sublist_cons_self _ _), hgiven⟩
  rcases constantRows_inv hrun with ⟨input, label, t₁, t₂, _, t₃, rfl, halias, hrows, hopen, rfl⟩ |
    ⟨hne, written, t₁, hpush, hwritten⟩
  · obtain ⟨rfl, rfl⟩ := gives_openStage_iff.mp hopen
    have hinput : Expr.Valued S.schema S.scope input := valued_of_and (hargs _ (.head _)).1
    have hbinders : Expr.bindersOfAll [Expr.element input] = input.binders := List.append_nil _
    have hready := hp.aliased hinput.1 (hbinders ▸ hfree) hok halias hrows
    have hvars := hready.named_apart hok (by rw [List.append_nil, ← hbinders]; exact hfresh)
    refine ⟨(hready.attach (clausal_limit _) (fine_addLimit hready.built.open_.fine (fine_of_no_leaves rfl))).mono ?_, hvars⟩
    exact List.subset_cons_of_subset _ (List.subset_append_left _ _)
  · obtain ⟨rfl, rfl⟩ := gives_pushSource.mp hpush
    have hnone : Expr.elementFace? S.schema args = none := Expr.elementFace?_eq_none _ hne
    rcases hwritten with ⟨hempty, rfl⟩ | ⟨selects, hselects, rfl⟩
    · obtain ⟨text, -, rfl⟩ := TreeComparison.verbatim_of_emptyRows hempty
      exact constant_ready hnone (.refl _) (fine_of_no_leaves rfl)
    · obtain ⟨hafter, hfine⟩ := before_node hok hfree
        (fun hfree => yields_constantSelects (hp.values _) hargs hfree) hselects
      refine constant_ready hnone hafter (fine_parts fun e he => ?_).2
      have hverbatim {text : String} : Sql.Fine S.schema (s.stages.length ≤ ·) t₁.stages S.env (.verbatim text) :=
        fine_of_no_leaves rfl
      rcases List.mem_append.mp he with he | he
      · rcases List.mem_append.mp he with he | he
        · exact List.mem_singleton.mp he ▸ hverbatim
        · rcases mem_intercalate he with he | ⟨select, hselect, he⟩
          · exact List.mem_singleton.mp he ▸ hverbatim
          · exact hfine select hselect e he
      · exact List.mem_singleton.mp he ▸ hverbatim

end TreeSql.Compile
