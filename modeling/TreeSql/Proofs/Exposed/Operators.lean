import TreeSql.Proofs.Exposed.Clauses

/-
  TreeSql.Proofs.Exposed.Operators — operators on one input, and the sources of rows.

  If the parts of an expression are compiled as their faces say (`Sound`), a node of it stands as its own face
  says: one theorem for each operator that keeps the columns of its input, and one for all that select from one
  source.
-/
namespace TreeSql.Compile.Vicinity

open Sql

/-! ## Parts -/

/-- Values only change what they can, and nodes stand as their faces say, wherever they are compiled. -/
structure Sound (p : Parts) : Prop where
  values (V : Vicinity) : V.Values p
  rows (V : Vicinity) {e : Expr} {var : String} (he : V.Suits e) (hname : var ∉ V.names) (hvar : var ∉ e.binders)
    {s t : State} {node : NodeId} (hok : V.Ok s) (hrun : Gives (p.rows e var) V.context s node t) :
    Stands V s t ((e.face none).bind var) node

variable {V : Vicinity} {p : Parts} {s t u : State} {e : Expr} {node : NodeId} {v var : String}
  {used rest : List String}

/-- Without a schema, all that resolves can be a value. -/
theorem suits_of_resolves (he : e.resolves none V.scope = true) (hfree : V.Free e.binders)
    (hnodes : e.everyNode V.test = true) : V.Suits e := ⟨⟨he, Expr.carried_none e⟩, hfree, hnodes⟩

/-- An expression that is compiled elsewhere, where some names have to stay bound. -/
theorem suits_enter {scopes : List StageId} {scope : Scope} {can : StageId → Prop} (hfree : V.Free (used ++ e.binders))
    (he : e.resolves none (scope ++ V.scope) = true) (hnodes : e.everyNode V.test = true) :
    (V.enter scopes scope used can).Suits e :=
  suits_of_resolves he hfree.enter hnodes

/-- The input of an operator. -/
theorem Sound.input (hp : Sound p) (he : e.resolves none V.scope = true) (hfree : V.Free (v :: (e.binders ++ rest)))
    (hnodes : e.everyNode V.test = true) (hok : V.Ok s) (hrun : Gives (p.rows e v) V.context s node t) :
    Stands V s t ((e.face none).bind v) node ∧
      ∀ x columns, (x, columns) ∈ ((e.face none).bind v).sides → x ∈ v :: e.binders := by
  have hall : V.Free ((v :: e.binders) ++ rest) := hfree
  have hinput : V.Free e.binders := hall.left.subperm (List.sublist_cons_self _ _).subperm
  have hv : v ∉ e.binders := (List.nodup_cons.mp hall.left.nodup).1
  exact ⟨hp.rows V (suits_of_resolves he hinput hnodes) (hfree.apart v (.head _)) hv hok hrun, fun _ _ => e.bound_side_mem⟩

/-- Rows under a new alias. -/
theorem Sound.aliased (hp : Sound p) {label : String} {s₁ : State} (he : V.Suits e) (hok : V.Ok s)
    (halias : Gives nextAlias V.context s label s₁) (hrun : Gives (p.rows e label) V.context s₁ node t) :
    Stands V s t (e.face none) node := by
  obtain ⟨rfl, rfl⟩ := gives_nextAlias.mp halias
  have hgenerated : Generated (aliasName (s.aliases + 1)) := .inl ⟨_, rfl⟩
  have hdrawn : V.After s { s with aliases := s.aliases + 1 } := (After.refl s).change changes_counters
  have h := (hp.rows V he (fun hname => he.free.names _ hname hgenerated) (fun hvar => he.free.given _ hvar hgenerated)
    (hok.after hdrawn) hrun).forget
  exact { h with after := hdrawn.trans h.after }

/-! ## Filters and order -/

theorem stands_filterRows (hp : Sound p) {q : Expr} (he : V.Suits (.filter ⟨e, v⟩ q)) (hok : V.Ok s)
    (hrun : Gives (filterRows p ⟨e, v⟩ q var) V.context s node t) :
    Stands V s t ((Expr.filter ⟨e, v⟩ q).face none) node := by
  obtain ⟨hinput, hq⟩ := Bool.and_eq_true_iff.mp he.valued.1
  obtain ⟨-, hnodes⟩ := Bool.and_eq_true_iff.mp he.nodes
  obtain ⟨hnodes, hnodes'⟩ := Bool.and_eq_true_iff.mp hnodes
  obtain ⟨t₁, stage, t₂, condition, t₃, hrows, hopen, hcondition, rfl⟩ := filterRows_inv hrun
  obtain ⟨h, hused⟩ := hp.input hinput he.free hnodes hok hrows
  obtain ⟨h, rfl⟩ := h.openFor hok hopen
  rw [← Face.sides_openFor .filter] at hq hused
  obtain ⟨hm, hkept⟩ := h.inside (v :: e.binders) hok hused
    (R := fun u a => ∀ id ∈ a.elements, Kept V.test t₂.stages.length u id)
    (fun _ _ => (hp.values _).keeps (suits_enter he.free (valued_of_and hq).1 hnodes') t₂) hcondition
  exact h.attach hm (clausal_where condition) (adds_where condition) (List.forall_mem_singleton.mpr hkept)

/-- Sort keys on the open stage. -/
theorem stands_orderBy (hp : Sound p) {f : Face} {keys : List SortKey} (h : Stands V s t f node) (hok : V.Ok s)
    (hused : ∀ x columns, (x, columns) ∈ f.sides → x ∈ used) (hfree : V.Free (used ++ Expr.bindersOfKeys keys))
    (hkeys : Expr.resolvesKeys none (f.sides ++ V.scope) keys = true)
    (hnodes : Expr.everyNodeOfKeys V.test keys = true) {r : Unit}
    (hrun : Gives (orderBy p (nodeAt t.nodes node).last.stage keys) V.context t r u) :
    Stands V s u (f.attach fun s => { s with orderBy := some [] }) node ∧
      nodeAt u.nodes node = nodeAt t.nodes node := by
  obtain ⟨items, w, hitems, rfl⟩ := orderBy_inv hrun
  obtain ⟨hm, hsettled⟩ := h.inside used hok hused
    (R := fun u items => ∀ i ∈ items, ∀ id ∈ i.expr.elements, Kept V.test t.stages.length u id)
    (fun _ _ => yields_mono (settles_orderItems (hp.values _) hkeys hfree.enter hnodes) fun _ _ h i hi => (h i hi).kept)
    hitems
  exact ⟨h.attach hm (clausal_orderBy items) (adds_orderBy items) (List.forall_mem_map.mpr hsettled), hm.last_eq h⟩

theorem stands_sortRows (hp : Sound p) {keys : List SortKey} (he : V.Suits (.sort ⟨e, v⟩ keys)) (hok : V.Ok s)
    (hrun : Gives (sortRows p ⟨e, v⟩ keys var) V.context s node t) :
    Stands V s t ((Expr.sort ⟨e, v⟩ keys).face none) node := by
  obtain ⟨hinput, hkeys⟩ := Bool.and_eq_true_iff.mp he.valued.1
  obtain ⟨-, hnodes⟩ := Bool.and_eq_true_iff.mp he.nodes
  obtain ⟨hnodes, hnodes'⟩ := Bool.and_eq_true_iff.mp hnodes
  obtain ⟨t₁, stage, t₂, hrows, hopen, horder⟩ := sortRows_inv hrun
  obtain ⟨h, hused⟩ := hp.input hinput he.free hnodes hok hrows
  obtain ⟨h, rfl⟩ := h.openFor hok hopen
  rw [← Face.sides_openFor .sort] at hkeys hused
  exact (stands_orderBy hp h hok hused he.free hkeys hnodes' horder).1

/-! ## Numbers of rows -/

/-- A number of rows is compiled beside the rows. -/
theorem stands_count (hp : Sound p) {f : Face} {count : Expr} {a : SqlExpr} (h : Stands V s t f node) (hok : V.Ok s)
    (hused : ∀ x columns, (x, columns) ∈ f.sides → x ∈ used) (hfree : V.Free (used ++ count.binders))
    (hcount : count.resolves none V.scope = true) (hnodes : count.everyNode V.test = true)
    (hrun : Gives (p.value count) V.context t a u) :
    Meanwhile V s t u f node ∧ ∀ e ∈ [a], ∀ id ∈ e.elements, Kept V.test t.stages.length u id := by
  have hcount : count.resolves none ([] ++ V.scope) = true := hcount
  obtain ⟨hm, hkept⟩ := h.beside used hok hused
    (R := fun u a => ∀ id ∈ a.elements, Kept V.test t.stages.length u id)
    (fun _ _ => (hp.values _).keeps (suits_enter hfree hcount hnodes) t) hrun
  exact ⟨hm, List.forall_mem_singleton.mpr hkept⟩

theorem stands_skipRows (hp : Sound p) {keys : List SortKey} {count : Expr} (he : V.Suits (.skip ⟨e, v⟩ keys count))
    (hok : V.Ok s) (hrun : Gives (skipRows p ⟨e, v⟩ keys count var) V.context s node t) :
    Stands V s t ((Expr.skip ⟨e, v⟩ keys count).face none) node := by
  obtain ⟨hboth, hcount⟩ := Bool.and_eq_true_iff.mp he.valued.1
  obtain ⟨hinput, hkeys⟩ := Bool.and_eq_true_iff.mp hboth
  obtain ⟨-, hnodes⟩ := Bool.and_eq_true_iff.mp he.nodes
  obtain ⟨hboth, hnodesN⟩ := Bool.and_eq_true_iff.mp hnodes
  obtain ⟨hnodes, hnodesK⟩ := Bool.and_eq_true_iff.mp hboth
  obtain ⟨t₁, stage, t₂, t₃, a, t₄, hrows, hopen, horder, hvalue, rfl⟩ := skipRows_inv hrun
  have hfree : V.Free (v :: (e.binders ++ (Expr.bindersOfKeys keys ++ count.binders))) := Expr.binders_skip ▸ he.free
  obtain ⟨h, hused⟩ := hp.input hinput hfree hnodes hok hrows
  obtain ⟨h, rfl⟩ := h.openFor hok hopen
  rw [← Face.sides_openFor .skip] at hkeys hused
  have hfree : V.Free ((v :: e.binders) ++ (Expr.bindersOfKeys keys ++ count.binders)) := hfree
  obtain ⟨h, hnode⟩ := stands_orderBy hp h hok hused
    (hfree.subperm ((List.sublist_append_left _ _).append_left _).subperm) hkeys hnodesK horder
  obtain ⟨hm, hkept⟩ := stands_count hp h hok hused
    (hfree.subperm ((List.sublist_append_right _ _).append_left _).subperm) (valued_of_and hcount).1 hnodesN hvalue
  rw [← hnode]
  exact h.attach hm (clausal_skip a) (adds_skip a) hkept

theorem stands_limitRows (hp : Sound p) {count : Expr} (he : V.Suits (.limit e count)) (hok : V.Ok s)
    (hrun : Gives (limitRows p e count) V.context s node t) : Stands V s t ((Expr.limit e count).face none) node := by
  obtain ⟨hinput, hcount⟩ := Bool.and_eq_true_iff.mp he.valued.1
  obtain ⟨-, hnodes⟩ := Bool.and_eq_true_iff.mp he.nodes
  obtain ⟨hnodes, hnodes'⟩ := Bool.and_eq_true_iff.mp hnodes
  obtain ⟨label, t₁, t₂, _, t₃, a, t₄, halias, hrows, hopen, hvalue, rfl⟩ := limitRows_inv hrun
  obtain ⟨rfl, rfl⟩ := gives_openStage_iff.mp hopen
  have hfree : V.Free (e.binders ++ count.binders) := he.free
  have h := hp.aliased (suits_of_resolves hinput hfree.left hnodes) hok halias hrows
  obtain ⟨hm, hkept⟩ := stands_count hp h hok (fun _ _ hx => e.side_mem_binders hx) hfree (valued_of_and hcount).1 hnodes'
    hvalue
  exact h.attach hm (clausal_limit a) (adds_limit a) hkept

/-! ## Sources -/

/-- The node of one source. -/
theorem stands_source {source : Source} {f : Face} (hafter : V.After s t)
    (hpush : V.After s { t with stages := t.stages ++ [.ofSource source var] })
    (hsealed : ¬Sealed (t.stages ++ [.ofSource source var]) t.stages.length) (hclauses : f.clauses = {})
    (hwrapped : f.wrapped = false) (hinner : f.inner = []) (hlisted : f.listed = false) (hsides : f.sides = []) :
    Stands V s (sourced t source var) f t.nodes.length := by
  have hget : (sourced t source var).stages.get t.stages.length = .ofSource source var := get_sourced t source var
  refine .single (a := ⟨var, t.stages.length⟩) (hpush.change (changes_pushNode hafter.length (by simp)))
    ⟨length_nodes hafter, by simp [sourced]⟩ (nodeAt_length _ _)
    ⟨hafter.length, by simp [sourced], hsealed, neat_of_pulled (by rw [hget]; rfl)⟩ (fun i _ => ?fed) hwrapped ?inner
    ?exposing ?sides
  case fed => simp [label, sourced]
  case inner =>
    show ((Stages.get _ t.stages.length).projection.getD []).map _ = _
    rw [hget, hinner]
    rfl
  case exposing =>
    show Exposing f (Stages.get _ t.stages.length)
    rw [hget]
    refine ⟨hclauses ▸ ⟨rfl, rfl, rfl, rfl, rfl, rfl⟩, ?_, fun _ => ⟨⟨rfl, rfl⟩, fun _ => ⟨_, rfl⟩⟩, ?_⟩ <;>
      exact fun hlisted' => by rw [hlisted] at hlisted'; cases hlisted'
  case sides =>
    rw [hsides]
    exact fun x columns hx => by cases hx

/-- The node of a source that does not combine others. -/
theorem stands_uncombined {source : Source} {f : Face} (hok : V.Ok s) (hafter : V.After s t)
    (hnone : (Stage.ofSource source var).combinations = [])
    (hkept : ∀ id ∈ (Stage.ofSource source var).elements, Kept V.test s.stages.length t id) (hclauses : f.clauses = {})
    (hwrapped : f.wrapped = false) (hinner : f.inner = []) (hlisted : f.listed = false) (hsides : f.sides = []) :
    Stands V s (sourced t source var) f t.nodes.length := by
  refine stands_source hafter (hafter.change (changes_pushStage hafter.length hnone rfl hkept)) (fun h => ?_) hclauses
    hwrapped hinner hlisted hsides
  rcases (onlyNew_append hnone).sealed h with h | h
  · exact Nat.lt_irrefl _ ((hok.after hafter).sealed _ h)
  · exact Nat.lt_irrefl _ (hkept _ h).bound

theorem elements_ofSource (source : Source) : (Stage.ofSource source var).elements = source.elements := by
  simp [Stage.elements, Stage.ofSource, Stage.clauseExprs, FromTree.elements]

theorem stands_scan {set : EntitySet} (hok : V.Ok s)
    (hrun : Gives (pushSource (.table (tableSql set)) var) V.context s node t) :
    Stands V s t ((Expr.scan set).face none) node := by
  obtain ⟨rfl, rfl⟩ := gives_pushSource.mp hrun
  exact stands_uncombined hok (.refl s) rfl (fun _ hid => absurd hid List.not_mem_nil) rfl rfl rfl rfl rfl

theorem stands_callRows (hp : Sound p) {f : FunctionRef} {args : List Expr} {type : DataType}
    (he : V.Suits (.call f args type)) (hok : V.Ok s) (hrun : Gives (callRows p f args type var) V.context s node t) :
    Stands V s t ((Expr.call f args type).face none) node := by
  obtain ⟨call, t₁, hcall, hpush⟩ := gives_bind.mp hrun
  obtain ⟨rfl, rfl⟩ := gives_pushSource.mp hpush
  have hargs := he.parts he.valued.1 (.refl _) (List.subset_cons_self _ _)
  obtain ⟨hafter, hsettled⟩ := settles_of_steps (Comparison.steps_callValue f type ((hp.values V).compiles hargs _)) _ _ _
    (.refl s) hok hcall
  refine stands_uncombined hok hafter rfl ?_ rfl rfl rfl rfl rfl
  rw [elements_ofSource]
  exact hsettled.kept

/-! ## Constant rows -/

theorem settles_constantColumns {w : State} (hp : Sound p) {arg : Expr} (he : V.Suits arg) :
    V.Yields w (constantColumns p arg) fun t columns => ∀ c ∈ columns, V.Settled w.stages.length t c.expr := by
  unfold constantColumns
  split
  · refine yields_mono (yields_rowColumns fun t args hrow => ?_) fun _ _ h => h.2
    cases hrow
    exact (hp.values V).compiles (he.parts he.valued.1 (.refl _) (List.subset_cons_self _ _)) _
  · refine yields_bind ((hp.values V).settles he w) fun _ ha => yields_pure fun t ht => ?_
    exact List.forall_mem_singleton.mpr (ha.later ht)

/-- The columns of one row, one after the other. -/
theorem settled_columns {floor : Nat} {columns : List Column} (h : ∀ c ∈ columns, V.Settled floor t c.expr) :
    V.Settled floor t (.list (columns.map fun c => .column c.expr c.name c.type)) := by
  refine (congruence_settled floor t).list (List.forall₂_same.mpr (List.forall_mem_map.mpr fun c hc => ?_))
  exact (congruence_settled floor t).column (b := c.expr) (h c hc) c.name c.type

theorem settles_constantSelects {w : State} (hp : Sound p) {args : List Expr} (he : ∀ e ∈ args, V.Suits e) :
    V.Yields w (constantSelects p args) fun t selects => ∀ l ∈ selects, ∀ a ∈ l, V.Settled w.stages.length t a := by
  induction args generalizing w with
  | nil => exact yields_pure fun _ _ => by simp
  | cons arg args ih =>
    refine yields_bind (settles_constantColumns hp (he arg (.head _))) fun hu hcolumns => ?_
    refine yields_bind (ih fun e he' => he e (.tail _ he')) fun hv hselects => yields_pure fun t ht => ?_
    refine List.forall_mem_cons.mpr ⟨fun a ha => ?_, fun l hl a ha => ((hselects l hl a ha).later ht).mono hu.length⟩
    rcases List.mem_pair.mp ha with rfl | rfl
    · exact settled_bare rfl
    · exact settled_columns fun c hc => (hcolumns c hc).later (hv.trans ht)

theorem stands_constantRows (hp : Sound p) {args : List Expr} {type : DataType} (he : V.Suits (.newInstance type args))
    (hok : V.Ok s) (hrun : Gives (constantRows p type args var) V.context s node t) :
    Stands V s t ((Expr.newInstance type args).face none) node := by
  have hargs := he.parts he.valued.1 (.refl _) (List.subset_cons_self _ _)
  have hconstant (hnone : Expr.elementFace? none args = none) {rows : SqlExpr} {t₁ : State} (hafter : V.After s t₁)
      (hrows : V.Settled s.stages.length t₁ rows) :
      Stands V s (sourced t₁ (.rows rows) var) ((Expr.newInstance type args).face none) t₁.nodes.length := by
    rw [Expr.face, hnone]
    refine stands_uncombined hok hafter rfl ?_ rfl rfl rfl rfl rfl
    rw [elements_ofSource]
    exact hrows.kept
  rcases constantRows_inv hrun with ⟨input, label, t₁, t₂, _, t₃, rfl, halias, hrows, hopen, rfl⟩ |
    ⟨hne, written, t₁, hpush, hwritten⟩
  · obtain ⟨rfl, rfl⟩ := gives_openStage_iff.mp hopen
    have h := hp.aliased (hargs _ (.head _)).element.1 hok halias hrows
    exact h.attach (.refl h) (clausal_limit _) (adds_limit _) (by simp [SqlExpr.elements])
  · obtain ⟨rfl, rfl⟩ := gives_pushSource.mp hpush
    have hnone : Expr.elementFace? none args = none := Expr.elementFace?_eq_none _ hne
    rcases hwritten with ⟨hempty, rfl⟩ | ⟨selects, hselects, rfl⟩
    · obtain ⟨text, -, rfl⟩ := TreeComparison.verbatim_of_emptyRows hempty
      exact hconstant hnone (.refl _) (settled_bare rfl)
    · obtain ⟨hafter, hsettled⟩ := settles_constantSelects hp hargs _ _ _ (.refl s) hok hselects
      refine hconstant hnone hafter ((congruence_settled _ _).seq (List.forall₂_same.mpr fun a ha => ?_))
      simp only [List.mem_append, List.mem_singleton] at ha
      obtain (rfl | ha) | rfl := ha
      · exact settled_bare rfl
      · rcases mem_intercalate ha with ha | ⟨l, hl, ha⟩
        · exact List.mem_singleton.mp ha ▸ settled_bare rfl
        · exact hsettled l hl a ha
      · exact settled_bare rfl

end TreeSql.Compile.Vicinity
