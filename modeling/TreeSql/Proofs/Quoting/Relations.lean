import TreeSql.Compile.Tree
import TreeSql.Proofs.Compile.Gathered
import TreeSql.Proofs.Quoting.Values

/-
  TreeSql.Proofs.Quoting.Relations — relational expressions are compiled to safe stages.

  One lemma for each function of `Compile.Clause` and `Compile.Relation`. Names of tables, columns and
  aliases are quoted; a defining query would not be, so that a harmless scan has none. Expressions of any
  depth follow by induction on the levels (`safeParts_partsTo`).
-/
namespace TreeSql.Compile

open Sql Postgres Quoting

variable {p : Parts} {e l r : Expr} {es : List Expr} {x : SqlExpr} {s : Stage}

/-! ## Sources -/

theorem reads_tableSql {set : EntitySet} (h : set.mapping.definingQuery = none) : Reads (tableSql set) := by
  have hpoint : Runs .any .clear 0 0 "." := runs_fixed (by decide)
  unfold tableSql
  rw [h]
  dsimp only
  split
  · exact runs_empty.append (reads_identifier _)
  · exact ((reads_identifier _).append hpoint).append (reads_identifier _)

theorem keepsSafe_wrap (node : NodeId) (label : String) : KeepsSafe (wrap node label) := by
  refine makes_bind (keepsSafe_openStage node) fun last _ => ?_
  have hsource : Source.Safe (.stage last.stage) := trivial
  refine makes_bind (keepsSafe_pushStage (hsource.stage last.name)) fun wrapper _ => ?_
  exact makes_bind (keepsSafe_modifyNode _ _) fun _ _ => makes_pure trivial

theorem keepsSafe_openFor (clause : Clause) (node : NodeId) (label : String) : KeepsSafe (openFor clause node label) := by
  refine makes_bind (keepsSafe_openStage node) fun last _ => makes_bind (makes_getStage _) fun stage _ => ?_
  split
  · exact makes_pure trivial
  · exact keepsSafe_wrap node label

/-! ## Clauses -/

theorem safe_addCondition (hx : x.Safe) (h : s.Safe) : (addCondition x s).Safe := by
  refine ⟨h.projection, h.from_, fun e he => ?_, h.groupBy, h.orderBy, h.skip, h.limit⟩
  obtain rfl := Option.some.inj he
  split
  · exact ⟨h.where_ _ ‹_›, hx⟩
  · exact hx

theorem safe_addLimit (hx : x.Safe) (h : s.Safe) : (addLimit x s).Safe := by
  refine ⟨h.projection, h.from_, h.where_, h.groupBy, h.orderBy, h.skip, fun e he => ?_⟩
  obtain rfl := Option.some.inj he
  split
  · exact safe_call (by decide) ⟨h.limit _ ‹_›, hx, trivial⟩
  · exact hx

theorem safe_project {columns : List Column} (hcolumns : ∀ c ∈ columns, c.expr.Safe) (h : s.Safe) :
    ({ s with projection := some columns } : Stage).Safe :=
  ⟨fun _ h => Option.some.inj h ▸ hcolumns, h.from_, h.where_, h.groupBy, h.orderBy, h.skip, h.limit⟩

theorem safe_order {items : List OrderItem} (hitems : ∀ i ∈ items, i.expr.Safe) (h : s.Safe) :
    ({ s with orderBy := some items } : Stage).Safe :=
  ⟨h.projection, h.from_, h.where_, h.groupBy, fun _ h => Option.some.inj h ▸ hitems, h.skip, h.limit⟩

theorem safe_expose (label : String) (names : List String) (h : s.Safe) : (s.expose label names).Safe := by
  unfold Stage.expose
  refine List.foldlRecOn names _ h fun s hs name _ => ?_
  split
  · exact hs
  · exact ⟨hs.projection, hs.from_, hs.where_, hs.groupBy, hs.orderBy, hs.skip, hs.limit⟩

/-! ## Filters, order and limits -/

theorem keepsSafe_filterRows (hp : SafeParts p) {input : Binding} (hinput : Harmless input.expr) (he : Harmless e)
    (var : String) : KeepsSafe (filterRows p input e var) := by
  refine makes_bind (hp.rows _ _ hinput) fun node _ => makes_bind (keepsSafe_openFor _ node var) fun stage _ => ?_
  refine makes_bind (makes_inScope (hp.value e he) stage) fun condition hcondition => ?_
  exact makes_bind (keepsSafe_modifyStage stage fun _ hs => safe_addCondition hcondition hs) fun _ _ => makes_pure trivial

theorem makes_orderItems (hp : SafeParts p) {keys : List SortKey} (h : ∀ k ∈ keys, Harmless k.expr) :
    Makes (orderItems p keys) fun items => ∀ i ∈ items, i.expr.Safe := by
  induction keys with
  | nil => exact makes_pure (by simp)
  | cons k keys ih =>
    rw [List.forall_mem_cons] at h
    refine makes_bind (hp.value _ h.1) fun v hv => makes_bind (ih h.2) fun items hitems => ?_
    exact makes_pure (List.forall_mem_cons.mpr ⟨hv, hitems⟩)

theorem keepsSafe_orderBy (hp : SafeParts p) (stage : StageId) {keys : List SortKey} (h : ∀ k ∈ keys, Harmless k.expr) :
    KeepsSafe (orderBy p stage keys) :=
  makes_bind (makes_inScope (makes_orderItems hp h) stage) fun _ hitems =>
    keepsSafe_modifyStage stage fun _ hs => safe_order hitems hs

theorem keepsSafe_sortRows (hp : SafeParts p) {input : Binding} {keys : List SortKey} (hinput : Harmless input.expr)
    (hkeys : ∀ k ∈ keys, Harmless k.expr) (var : String) : KeepsSafe (sortRows p input keys var) := by
  refine makes_bind (hp.rows _ _ hinput) fun node _ => makes_bind (keepsSafe_openFor _ node var) fun stage _ => ?_
  exact makes_bind (keepsSafe_orderBy hp stage hkeys) fun _ _ => makes_pure trivial

theorem keepsSafe_skipRows (hp : SafeParts p) {input : Binding} {keys : List SortKey} (hinput : Harmless input.expr)
    (hkeys : ∀ k ∈ keys, Harmless k.expr) (he : Harmless e) (var : String) : KeepsSafe (skipRows p input keys e var) := by
  refine makes_bind (hp.rows _ _ hinput) fun node _ => makes_bind (keepsSafe_openFor _ node var) fun stage _ => ?_
  refine makes_bind (keepsSafe_orderBy hp stage hkeys) fun _ _ => makes_bind (hp.value e he) fun count hcount => ?_
  refine makes_bind (keepsSafe_modifyStage stage fun s hs => ?_) fun _ _ => makes_pure trivial
  exact ⟨hs.projection, hs.from_, hs.where_, hs.groupBy, hs.orderBy, fun _ h => Option.some.inj h ▸ hcount, hs.limit⟩

theorem keepsSafe_limitRows (hp : SafeParts p) (hl : Harmless l) (he : Harmless e) : KeepsSafe (limitRows p l e) := by
  refine makes_bind keepsSafe_nextAlias fun label _ => makes_bind (hp.rows l label hl) fun node _ => ?_
  refine makes_bind (keepsSafe_openStage node) fun last _ => makes_bind (hp.value e he) fun count hcount => ?_
  exact makes_bind (keepsSafe_modifyStage _ fun _ hs => safe_addLimit hcount hs) fun _ _ => makes_pure trivial

theorem keepsSafe_distinctRows (hp : SafeParts p) (he : Harmless e) (var : String) : KeepsSafe (distinctRows p e var) := by
  have hdistinct {s : Stage} (hs : s.Safe) : ({ s with distinct := true } : Stage).Safe :=
    ⟨hs.projection, hs.from_, hs.where_, hs.groupBy, hs.orderBy, hs.skip, hs.limit⟩
  refine makes_bind keepsSafe_nextAlias fun label _ => makes_bind (hp.rows e label he) fun node _ => ?_
  refine makes_bind (keepsSafe_openStage node) fun last _ => makes_bind (makes_getStage _) fun closed _ => ?_
  split
  · exact makes_bind (keepsSafe_modifyStage _ fun _ hs => hdistinct hs) fun _ _ => makes_pure trivial
  · refine makes_bind (keepsSafe_wrap node var) fun wrapper _ => ?_
    refine makes_bind (keepsSafe_modifyStage wrapper fun _ hs => ?_) fun _ _ => makes_pure trivial
    exact hdistinct (safe_expose _ _ hs)

/-! ## Rows by their columns -/

theorem safe_columnsOf (members : List Member) {values : List SqlExpr} (h : ∀ v ∈ values, v.Safe) :
    ∀ c ∈ columnsOf members values, c.expr.Safe :=
  fun c hc => h c.expr (expr_mem_of_mem_columnsOf hc)

theorem safe_columnValues (args : List Expr) {values : List SqlExpr} (h : ∀ v ∈ values, v.Safe) :
    ∀ v ∈ args.zipWith columnValue values, v.Safe := by
  intro v hv
  obtain ⟨x, hx, rfl | rfl⟩ := mem_columnValues hv
  · exact h _ hx
  · exact safe_cast (by decide) (h x hx)

theorem makes_rowColumns (hp : SafeParts p) (he : Harmless e) :
    Makes (rowColumns p e) fun columns => ∀ c ∈ columns, c.expr.Safe := by
  unfold rowColumns
  split
  · rename_i t args
    split
    · exact makes_fail
    · split
      · refine makes_bind (makes_valuesOf (hp.values (Expr.everyNodeOfAll_iff.mp he))) fun values hvalues => ?_
        exact makes_pure (safe_columnsOf _ (safe_columnValues args hvalues))
      · exact makes_fail
  · exact makes_fail

theorem keepsSafe_projectRows (hp : SafeParts p) {input : Binding} (hinput : Harmless input.expr) (he : Harmless e)
    (var : String) : KeepsSafe (projectRows p input e var) := by
  refine makes_bind (hp.rows _ _ hinput) fun child _ => makes_bind (keepsSafe_openStage child) fun last _ => ?_
  refine makes_bind (makes_getStage _) fun stage _ => ?_
  split
  · refine makes_bind (makes_inScope (makes_rowColumns hp he) _) fun columns hcolumns => ?_
    exact makes_bind (keepsSafe_modifyStage _ fun _ hs => safe_project hcolumns hs) fun _ _ => keepsSafe_pushNode _
  · refine makes_bind (makes_rowColumns hp he) fun columns hcolumns => ?_
    refine makes_bind (keepsSafe_wrap child var) fun wrapper _ => ?_
    exact makes_bind (keepsSafe_modifyStage _ fun _ hs => safe_project hcolumns hs) fun _ _ => keepsSafe_pushNode _

/-! ## Constant rows -/

theorem makes_constantColumns (hp : SafeParts p) (he : Harmless e) :
    Makes (constantColumns p e) fun columns => ∀ c ∈ columns, c.expr.Safe := by
  unfold constantColumns
  split
  · exact makes_rowColumns hp he
  · exact makes_bind (hp.value e he) fun x hx => makes_pure (by simpa using hx)

/-- The select lists of constant rows each read, after the keyword in front of them. -/
theorem makes_constantSelects (hp : SafeParts p) (h : ∀ e ∈ es, Harmless e) :
    Makes (constantSelects p es) fun selects =>
      ∀ parts ∈ selects, ∃ columns : SqlExpr, parts = [.verbatim "SELECT ", columns] ∧ columns.Safe := by
  induction es with
  | nil => exact makes_pure (by simp)
  | cons e es ih =>
    rw [List.forall_mem_cons] at h
    refine makes_bind (makes_constantColumns hp h.1) fun columns hcolumns => ?_
    refine makes_bind (ih h.2) fun rest hrest => makes_pure (List.forall_mem_cons.mpr ⟨⟨_, rfl, ?_⟩, hrest⟩)
    refine SqlExpr.safeAll_iff.mpr fun x hx => ?_
    obtain ⟨c, hc, rfl⟩ := List.mem_map.mp hx
    exact hcolumns c hc

/-- Select lists with `UNION ALL` between them. -/
theorem fragments_selects {selects : List (List SqlExpr)}
    (h : ∀ parts ∈ selects, ∃ columns : SqlExpr, parts = [.verbatim "SELECT ", columns] ∧ columns.Safe)
    (regime : Regime) {select : StageId → String} (hselect : ∀ id, Reads (select id)) :
    Reads (String.join (renderAll regime select ([SqlExpr.verbatim " UNION ALL "].intercalate selects))) := by
  have hword : Runs .clear .clear 0 0 "SELECT " := runs_fixed (by decide)
  have hunion : Runs .any .clear 0 0 " UNION ALL " := runs_fixed (by decide)
  induction selects with
  | nil => exact runs_empty.toAny
  | cons parts rest ih =>
    rw [List.forall_mem_cons] at h
    obtain ⟨columns, rfl, hcolumns⟩ := h.1
    have hparts : Reads (String.join (renderAll regime select [.verbatim "SELECT ", columns])) :=
      SqlExpr.safe_after hword hcolumns regime select hselect
    cases rest with
    | nil =>
      rw [List.intercalate_singleton]
      exact hparts
    | cons parts' rest =>
      have htext : String.join (renderAll regime select [SqlExpr.verbatim " UNION ALL "]) = " UNION ALL " := by
        simp [renderAll, SqlExpr.renderWith]
      rw [List.intercalate_cons_cons, SqlExpr.renderAll_append, SqlExpr.renderAll_append, String.join_append,
        String.join_append, htext]
      exact (hparts.append hunion).append (ih h.2)

theorem reads_emptyRows {t : DataType} {rows : SqlExpr} (h : emptyRows t = .ok rows) : rows.Safe := by
  unfold emptyRows at h
  split at h
  · cases h
  · obtain ⟨type, htype, h⟩ := ok_of_bind h
    cases h
    have hopen : Runs .clear .clear 0 2 "(SELECT CAST(NULL AS " := runs_fixed (by decide)
    have hclose : Runs .any .any 2 0 ") LIMIT 0)" := runs_fixed (by decide)
    exact (hopen.append ((reads_castTarget htype).deeper 2)).append hclose

theorem safe_constantRows {selects : List (List SqlExpr)}
    (h : ∀ parts ∈ selects, ∃ columns : SqlExpr, parts = [.verbatim "SELECT ", columns] ∧ columns.Safe) :
    (SqlExpr.seq ([.verbatim "("] ++ [SqlExpr.verbatim " UNION ALL "].intercalate selects ++ [.verbatim ")"])).Safe := by
  intro regime select hselect
  have htext : String.join (renderAll regime select
      ([SqlExpr.verbatim "("] ++ [SqlExpr.verbatim " UNION ALL "].intercalate selects ++ [SqlExpr.verbatim ")"])) =
      "(" ++ String.join (renderAll regime select ([SqlExpr.verbatim " UNION ALL "].intercalate selects)) ++ ")" := by
    simp [SqlExpr.renderAll_append, renderAll, SqlExpr.renderWith, String.append_assoc]
  rw [htext]
  exact (fragments_selects h regime hselect).inParens.toAny.ofAny

theorem keepsSafe_constantRows (hp : SafeParts p) (t : DataType) (h : ∀ e ∈ es, Harmless e) (var : String) :
    KeepsSafe (constantRows p t es var) := by
  unfold constantRows
  split
  · rename_i input
    have hinput : Harmless (.element input) := h _ (by simp)
    refine makes_bind keepsSafe_nextAlias fun label _ => makes_bind (hp.rows input label hinput) fun node _ => ?_
    refine makes_bind (keepsSafe_openStage node) fun last _ => ?_
    exact makes_bind (keepsSafe_modifyStage _ fun _ hs => safe_addLimit trivial hs) fun _ _ => makes_pure trivial
  · exact makes_bind (makes_lift fun _ hrows => reads_emptyRows hrows) fun rows hrows =>
      keepsSafe_pushSource (.rows rows) hrows var
  · refine makes_bind (makes_constantSelects hp h) fun selects hselects => ?_
    exact keepsSafe_pushSource (.rows (.seq _)) (safe_constantRows hselects) var

/-! ## Set operations -/

theorem keepsSafe_pullMembers (stage : StageId) (label : String) (members : List Member) :
    KeepsSafe (exposeMembers.pullMembers stage label members) := by
  induction members with
  | nil => exact makes_pure trivial
  | cons m members ih => exact makes_bind (keepsSafe_pullColumn _ _ _) fun _ _ => ih

theorem keepsSafe_exposeMembers (stage : StageId) (t : DataType) : KeepsSafe (exposeMembers stage t) := by
  refine makes_bind (makes_getStage stage) fun s _ => ?_
  split
  · exact makes_pure trivial
  · split
    · exact keepsSafe_pullMembers stage _ _
    · exact makes_pure trivial

theorem keepsSafe_operandStages (hp : SafeParts p) (h : ∀ e ∈ es, Harmless e) (var : String) (place : Nat) :
    KeepsSafe (operandStages p var place es) := by
  induction es generalizing place with
  | nil => exact makes_pure trivial
  | cons e es ih =>
    rw [List.forall_mem_cons] at h
    refine makes_bind (hp.rows e _ h.1) fun node _ => makes_bind (keepsSafe_openStage node) fun last _ => ?_
    refine makes_bind (keepsSafe_exposeMembers _ _) fun _ _ => ?_
    exact makes_bind (ih h.2 (place + 1)) fun rest _ => makes_pure trivial

theorem keepsSafe_setOpRows (hp : SafeParts p) (kind : SetOpKind) (hl : Harmless l) (hr : Harmless r) (var : String) :
    KeepsSafe (setOpRows p kind l r var) :=
  makes_bind (keepsSafe_operandStages hp (everyNode_setOpOperands kind hl hr) var 0) fun stages _ =>
    keepsSafe_pushSource (.setOp kind stages) trivial var

/-! ## Groups -/

theorem makes_aggregateValues (hp : SafeParts p) {aggregates : List Aggregate}
    (h : ∀ a ∈ aggregates, ∀ e ∈ a.args, Harmless e) :
    Makes (aggregateValues p aggregates) fun values => ∀ v ∈ values, v.Safe := by
  induction aggregates with
  | nil => exact makes_pure (by simp)
  | cons a aggregates ih =>
    rw [List.forall_mem_cons] at h
    refine makes_bind (makes_aggregateValue (hp.values h.1)) fun v hv => makes_bind (ih h.2) fun rest hrest => ?_
    exact makes_pure (List.forall_mem_cons.mpr ⟨hv, hrest⟩)

theorem safe_groupKeys (keys : List Expr) {values : List SqlExpr} (h : ∀ v ∈ values, v.Safe) :
    ∀ v ∈ groupKeys keys values, v.Safe :=
  fun v hv => h v (mem_of_mem_groupKeys hv)

theorem keepsSafe_groupRows (hp : SafeParts p) {input : GroupBinding} {keys : List Expr} {aggregates : List Aggregate}
    (hinput : Harmless input.expr) (hkeys : ∀ e ∈ keys, Harmless e) (haggregates : ∀ a ∈ aggregates, ∀ e ∈ a.args, Harmless e)
    (t : DataType) (var : String) : KeepsSafe (groupRows p input keys aggregates t var) := by
  refine makes_bind (hp.rows _ _ hinput) fun node _ => makes_bind (keepsSafe_openFor _ node var) fun stage _ => ?_
  refine makes_bind (keepsSafe_bindVar _ node) fun _ _ => ?_
  split
  · exact makes_fail
  · split
    · have hvalues : Makes (do
          let keyValues ← valuesOf p.value keys
          return (keyValues, ← aggregateValues p aggregates)) fun values =>
            (∀ v ∈ values.1, v.Safe) ∧ ∀ v ∈ values.2, v.Safe :=
        makes_bind (makes_valuesOf (hp.values hkeys)) fun _ hkeyValues =>
          makes_bind (makes_aggregateValues hp haggregates) fun _ hvalues => makes_pure ⟨hkeyValues, hvalues⟩
      refine makes_bind (makes_inScope hvalues stage) fun values hvalues => ?_
      obtain ⟨hkeyValues, hvalues⟩ := hvalues
      refine makes_bind (keepsSafe_modifyStage stage fun s hs => ?_) fun _ _ => makes_pure trivial
      refine ⟨fun _ h => ?_, hs.from_, hs.where_, fun _ h => ?_, hs.orderBy, hs.skip, hs.limit⟩
      · obtain rfl := Option.some.inj h
        exact safe_columnsOf _ fun v hv => (List.mem_append.mp hv).elim (hkeyValues v) (hvalues v)
      · obtain rfl := Option.some.inj h
        exact safe_groupKeys keys hkeyValues
    · exact makes_fail

/-! ## Joins -/

theorem makes_joinSide (hp : SafeParts p) (node : NodeId) (he : Harmless e) (var : String) :
    Makes (joinSide p node e var) fun item => item.source.Safe := by
  refine makes_bind (hp.rows e var he) fun child _ => makes_bind (keepsSafe_modifyNode _ _) fun _ _ => ?_
  exact makes_bind (keepsSafe_openStage child) fun last _ => makes_pure trivial

theorem makes_joined (hp : SafeParts p) (stage : StageId) {left right : FromTree} (kind : JoinKind) (hleft : left.Safe)
    (hright : right.Safe) {condition : Option Expr} (h : ∀ e ∈ condition, Harmless e) :
    Makes (joined p stage left kind right condition) FromTree.Safe := by
  unfold joined
  split
  · refine makes_bind (makes_inScope (hp.value _ (h _ rfl)) stage) fun x hx => makes_pure ⟨hleft, hright, ?_⟩
    simpa using hx
  · exact makes_pure ⟨hleft, hright, by simp⟩

theorem makes_joinTree (hp : SafeParts p) (node : NodeId) (stage : StageId) (h : Harmless e) (var : String) :
    Makes (joinTree p node stage e var) FromTree.Safe := by
  induction e, var using joinTree.induct with
  | case1 var kind l lv r rv condition ihl ihr =>
    rw [joinTree]
    have h : ((l.everyNode isHarmless && r.everyNode isHarmless) && Expr.everyNodeOfOption isHarmless condition) = true := h
    obtain ⟨hsides, hcondition⟩ := Bool.and_eq_true_iff.mp h
    obtain ⟨hl, hr⟩ := Bool.and_eq_true_iff.mp hsides
    have hcondition := Expr.everyNodeOfOption_iff.mp hcondition
    refine makes_bind (ihl hl) fun left hleft => ?_
    split
    · refine makes_bind (makes_inScope (makes_joinSide hp node hr rv) stage) fun item hitem => ?_
      have hright : FromTree.Safe (.item { item with forceSubquery := true }) := hitem
      exact makes_pure_bind (makes_joined hp stage kind hleft hright hcondition)
    · exact makes_bind (ihr hr) fun right hright => makes_joined hp stage kind hleft hright hcondition
  | case2 var e hjoin =>
    rw [joinTree]
    · exact makes_bind (makes_joinSide hp node h var) fun item hitem => makes_pure hitem
    · exact hjoin

theorem keepsSafe_joinRows (hp : SafeParts p) (h : Harmless e) (var : String) : KeepsSafe (joinRows p e var) := by
  refine makes_bind (keepsSafe_pushStage stage_safe_empty) fun stage _ => makes_bind (keepsSafe_pushNode _) fun node _ => ?_
  refine makes_bind (makes_joinTree hp node stage h var) fun tree htree => ?_
  refine makes_bind (keepsSafe_modifyStage stage fun s hs => ?_) fun _ _ => makes_pure trivial
  exact ⟨hs.projection, fun _ h => Option.some.inj h ▸ htree, hs.where_, hs.groupBy, hs.orderBy, hs.skip, hs.limit⟩

/-! ## All relational expressions -/

theorem keepsSafe_nodeStep (hp : SafeParts p) (h : Harmless e) (var : String) : KeepsSafe (nodeStep p e var) := by
  have hparts := h
  unfold Harmless Expr.everyNode at hparts
  obtain ⟨hnode, hparts⟩ := Bool.and_eq_true_iff.mp hparts
  cases e with
  | scan set =>
    have hquery : set.mapping.definingQuery.isNone = true := hnode
    exact keepsSafe_pushSource (.table _) (reads_tableSql (Option.isNone_iff_eq_none.mp hquery)) var
  | filter input predicate =>
    obtain ⟨hinput, hpredicate⟩ := Bool.and_eq_true_iff.mp hparts
    exact keepsSafe_filterRows hp hinput hpredicate var
  | project input row =>
    obtain ⟨hinput, hrow⟩ := Bool.and_eq_true_iff.mp hparts
    exact keepsSafe_projectRows hp hinput hrow var
  | sort input keys =>
    obtain ⟨hinput, hkeys⟩ := Bool.and_eq_true_iff.mp hparts
    exact keepsSafe_sortRows hp hinput (Expr.everyNodeOfKeys_iff.mp hkeys) var
  | skip input keys count =>
    obtain ⟨hrows, hcount⟩ := Bool.and_eq_true_iff.mp hparts
    obtain ⟨hinput, hkeys⟩ := Bool.and_eq_true_iff.mp hrows
    exact keepsSafe_skipRows hp hinput (Expr.everyNodeOfKeys_iff.mp hkeys) hcount var
  | limit input count =>
    obtain ⟨hinput, hcount⟩ := Bool.and_eq_true_iff.mp hparts
    exact keepsSafe_limitRows hp hinput hcount
  | distinct input => exact keepsSafe_distinctRows hp (e := input) hparts var
  | groupBy input keys aggregates t =>
    obtain ⟨hrows, haggregates⟩ := Bool.and_eq_true_iff.mp hparts
    obtain ⟨hinput, hkeys⟩ := Bool.and_eq_true_iff.mp hrows
    exact keepsSafe_groupRows hp hinput (Expr.everyNodeOfAll_iff.mp hkeys)
      (Expr.everyNodeOfAggregates_iff.mp haggregates) t var
  | join kind left right condition => exact keepsSafe_joinRows hp h var
  | setOp kind left right =>
    obtain ⟨hleft, hright⟩ := Bool.and_eq_true_iff.mp hparts
    exact keepsSafe_setOpRows hp kind hleft hright var
  | newInstance t args => exact keepsSafe_constantRows hp t (Expr.everyNodeOfAll_iff.mp hparts) var
  | call f args t =>
    refine makes_bind (makes_callValue f t (hp.values (Expr.everyNodeOfAll_iff.mp hparts))) fun x hx => ?_
    exact keepsSafe_pushSource (.function x) hx var
  | _ => exact makes_fail

theorem keepsSafe_rowsStep (hp : SafeParts p) (h : Harmless e) (var : String) : KeepsSafe (rowsStep p e var) :=
  makes_bind (keepsSafe_nodeStep hp h var) fun node _ =>
    makes_bind (keepsSafe_bindVar var node) fun _ _ => makes_pure trivial

/-! ## Expressions of any depth -/

theorem safeParts_partsTo (n : Nat) : SafeParts (partsTo n) := by
  induction n with
  | zero => exact ⟨fun _ _ => makes_fail, fun _ _ _ => makes_fail⟩
  | succ n ih => exact ⟨fun _ h => makes_valueStep ih h, fun _ var h => keepsSafe_rowsStep ih h var⟩

theorem makes_value (h : Harmless e) : Makes (value e) SqlExpr.Safe := (safeParts_partsTo _).value e h

theorem keepsSafe_rows (h : Harmless e) (var : String) : KeepsSafe (rows e var) := (safeParts_partsTo _).rows e var h

end TreeSql.Compile
