import TreeSql.Proofs.Renaming.Values

/-
  TreeSql.Proofs.Renaming.Relations — inputs under other names.

  Each operator binds its inputs to variables that are renamed with it, or to names that compiling makes, and
  attaches its clause to the same stage (`mirrors_nodeStep`). The names of columns and the types that show in
  the stages come from nodes that keep them. So at every depth the compiler of renamed expressions mirrors the
  compiler of the expressions (`mirrored_partsTo`).
-/
namespace TreeSql.Compile

open Sql Postgres TreeSql.Expr

variable {r : VarRenaming} {vars : List String} {p p' : Parts} {w : Nat}
  (hr : Renames r vars) (h : Mirrored r vars p p')

/-- The result is a node that exists. -/
theorem mirrors_node {f : String → String} {node : Nat} (hnode : node < w) :
    Mirrors f w (pure node) (pure node) SameNode :=
  mirrors_pure fun _ hu => ⟨rfl, Nat.lt_of_lt_of_le hnode hu⟩

section

include h

/-! ## Filters, order and limits -/

theorem mirrors_callRows (f : FunctionRef) {args : List Expr} (hargs : everyNodeOfAll (renamable vars) args = true)
    (t : DataType) (var : String) :
    Mirrors r.name w (callRows p f args t var) (callRows p' f (args.map (rename r)) t (r.name var)) SameNode := by
  unfold callRows
  refine mirrors_bind (mirrors_callValue h f hargs t) fun _ hcall => ?_
  subst hcall
  exact mirrors_pushSource (.function _) var

/-- What is done with rows and the stage that takes a clause. -/
theorem mirrors_openRows {e : Expr} {v : String} (he : e.everyNode (renamable vars) = true) (hv : Occurs vars v)
    (clause : Clause) (var : String) {α : Type} {R : Nat → α → α → Prop} {g g' : NodeId → StageId → CompileM α}
    (hg : ∀ {u node : Nat} (stage : StageId), node < u → Mirrors r.name u (g node stage) (g' node stage) R) :
    Mirrors r.name w (p.rows e v >>= fun node => openFor clause node var >>= g node)
      (p'.rows (e.rename r) (r.name v) >>= fun node => openFor clause node (r.name var) >>= g' node) R := by
  refine mirrors_bind (h.rows he hv w) fun _ hnode => ?_
  obtain ⟨rfl, hnode⟩ := hnode
  refine mirrors_bind (mirrors_openFor clause hnode var) fun hu hstage => ?_
  subst hstage
  exact hg _ (Nat.lt_of_lt_of_le hnode hu)

theorem mirrors_filterRows {e predicate : Expr} {v : String} (he : e.everyNode (renamable vars) = true)
    (hv : Occurs vars v) (hp : predicate.everyNode (renamable vars) = true) (var : String) :
    Mirrors r.name w (filterRows p ⟨e, v⟩ predicate var)
      (filterRows p' ⟨e.rename r, r.name v⟩ (predicate.rename r) (r.name var)) SameNode := by
  refine mirrors_openRows h he hv .filter var fun stage hnode => ?_
  refine mirrors_bind (mirrors_inScope _ (h.value hp _)) fun hu hcondition => ?_
  subst hcondition
  refine mirrors_bind (mirrors_modifyStage _ (addCondition_renamed _)) fun hu' _ => ?_
  exact mirrors_node (by omega)

theorem mirrors_orderItems {keys : List SortKey} (hkeys : everyNodeOfKeys (renamable vars) keys = true) :
    Mirrors r.name w (orderItems p keys) (orderItems p' (renameKeys r keys)) fun _ a b =>
      b = a.map (·.renamed r.name) := by
  induction keys generalizing w with
  | nil => exact mirrors_pure fun _ _ => rfl
  | cons key keys ih =>
    simp only [everyNodeOfKeys, Bool.and_eq_true] at hkeys
    refine mirrors_bind (h.value hkeys.1 w) fun _ hvalue => ?_
    subst hvalue
    refine mirrors_bind (ih hkeys.2) fun _ hitems => ?_
    subst hitems
    exact mirrors_pure fun _ _ => rfl

theorem mirrors_orderBy (stage : StageId) {keys : List SortKey}
    (hkeys : everyNodeOfKeys (renamable vars) keys = true) :
    Mirrors r.name w (orderBy p stage keys) (orderBy p' stage (renameKeys r keys)) fun _ _ _ => True := by
  refine mirrors_bind (mirrors_inScope _ (mirrors_orderItems h hkeys)) fun _ hitems => ?_
  subst hitems
  exact mirrors_modifyStage _ fun _ => rfl

theorem mirrors_sortRows {e : Expr} {v : String} {keys : List SortKey} (he : e.everyNode (renamable vars) = true)
    (hv : Occurs vars v) (hkeys : everyNodeOfKeys (renamable vars) keys = true) (var : String) :
    Mirrors r.name w (sortRows p ⟨e, v⟩ keys var)
      (sortRows p' ⟨e.rename r, r.name v⟩ (renameKeys r keys) (r.name var)) SameNode := by
  refine mirrors_openRows h he hv .sort var fun stage hnode => ?_
  refine mirrors_bind (mirrors_orderBy h _ hkeys) fun hu _ => ?_
  exact mirrors_node (by omega)

theorem mirrors_skipRows {e count : Expr} {v : String} {keys : List SortKey}
    (he : e.everyNode (renamable vars) = true) (hv : Occurs vars v)
    (hkeys : everyNodeOfKeys (renamable vars) keys = true) (hcount : count.everyNode (renamable vars) = true)
    (var : String) :
    Mirrors r.name w (skipRows p ⟨e, v⟩ keys count var)
      (skipRows p' ⟨e.rename r, r.name v⟩ (renameKeys r keys) (count.rename r) (r.name var)) SameNode := by
  refine mirrors_openRows h he hv .skip var fun stage hnode => ?_
  refine mirrors_bind (mirrors_orderBy h _ hkeys) fun hu _ => ?_
  refine mirrors_bind (h.value hcount _) fun hu' hvalue => ?_
  subst hvalue
  refine mirrors_bind (mirrors_modifyStage _ fun _ => rfl) fun hu'' _ => ?_
  exact mirrors_node (by omega)

include hr in
theorem mirrors_limitRows {e count : Expr} (he : e.everyNode (renamable vars) = true)
    (hcount : count.everyNode (renamable vars) = true) :
    Mirrors r.name w (limitRows p e count) (limitRows p' (e.rename r) (count.rename r)) SameNode := by
  refine mirrors_aliasedRows hr h he fun _ hnode => ?_
  refine mirrors_bind (mirrors_openStage hnode) fun hu hlast => ?_
  subst hlast
  refine mirrors_bind (h.value hcount _) fun hu' hvalue => ?_
  subst hvalue
  refine mirrors_bind (mirrors_modifyStage _ (addLimit_renamed _)) fun hu'' _ => ?_
  exact mirrors_node (by omega)

include hr in
theorem mirrors_distinctRows {e : Expr} (he : e.everyNode (renamable vars) = true) (var : String) :
    Mirrors r.name w (distinctRows p e var) (distinctRows p' (e.rename r) (r.name var)) SameNode := by
  refine mirrors_aliasedRows hr h he fun _ hnode => ?_
  refine mirrors_bind (mirrors_openStage hnode) fun hu hlast => ?_
  subst hlast
  refine mirrors_bind (mirrors_getStage _) fun hu' hstage => ?_
  subst hstage
  rw [Clause.compatible_renamed]
  split
  · refine mirrors_bind (mirrors_modifyStage _ fun _ => rfl) fun hu'' _ => ?_
    exact mirrors_node (by omega)
  · refine mirrors_bind (mirrors_wrap (by omega) var) fun hu'' hwrapper => ?_
    subst hwrapper
    refine mirrors_bind (mirrors_modifyStage _ fun s => ?_) fun hu''' _ => ?_
    · rw [Stage.outputNames_renamed]
      exact congrArg (fun s : Stage => { s with distinct := true }) (Stage.expose_renamed hr.name_inj s _ _)
    · exact mirrors_node (by omega)

/-! ## Rows by their columns -/

omit h in
theorem columnsOf_renamed (f : String → String) (members : List Member) (values : List SqlExpr) :
    columnsOf members (values.map (·.renamed f)) = (columnsOf members values).map (·.renamed f) := by
  unfold columnsOf
  rw [List.zipWith_map_right, List.map_zipWith]
  rfl

omit h in
theorem columnValues_rename (args : List Expr) (values : List SqlExpr) :
    (args.map (rename r)).zipWith columnValue (values.map (·.renamed r.name)) =
      (args.zipWith columnValue values).map (·.renamed r.name) := by
  have hvalue (e : Expr) (x : SqlExpr) :
      columnValue (e.rename r) (x.renamed r.name) = (columnValue e x).renamed r.name := by
    cases e with
    | constant v => cases v <;> rfl
    | _ => rfl
  rw [List.zipWith_map, List.map_zipWith]
  simp only [hvalue]

theorem mirrors_valuesOf {es : List Expr} (hes : everyNodeOfAll (renamable vars) es = true) :
    Mirrors r.name w (valuesOf p.value es) (valuesOf p'.value (es.map (rename r))) fun _ a b =>
      b = a.map (·.renamed r.name) := by
  refine mirrors_mono (Comparison.steps_valuesOf_each (C := mirroring r.name) (h.compilesEach hes)) fun _ a b hab => ?_
  rw [SqlExpr.renamedAll_of_forall₂ hab, SqlExpr.renamedAll_eq_map]

theorem mirrors_rowColumns {row : Expr} (hrow : row.everyNode (renamable vars) = true) :
    Mirrors r.name w (rowColumns p row) (rowColumns p' (row.rename r)) fun _ a b =>
      b = a.map (·.renamed r.name) := by
  cases row with
  | newInstance t args =>
    rw [everyNode, Bool.and_eq_true] at hrow
    rw [rename, renameAll_eq_map]
    simp only [rowColumns, List.length_map]
    split
    · exact mirrors_fail _ _
    · split
      · refine mirrors_bind (mirrors_valuesOf h hrow.2) fun _ hvalues => ?_
        subst hvalues
        rw [columnValues_rename, columnsOf_renamed]
        exact mirrors_pure fun _ _ => rfl
      · exact mirrors_fail _ _
  | _ => exact mirrors_fail _ _

theorem mirrors_projectRows {e row : Expr} {v : String} (he : e.everyNode (renamable vars) = true) (hv : Occurs vars v)
    (hrow : row.everyNode (renamable vars) = true) (var : String) :
    Mirrors r.name w (projectRows p ⟨e, v⟩ row var)
      (projectRows p' ⟨e.rename r, r.name v⟩ (row.rename r) (r.name var)) SameNode := by
  refine mirrors_bind (h.rows he hv w) fun _ hnode => ?_
  obtain ⟨rfl, hnode⟩ := hnode
  refine mirrors_bind (mirrors_openStage hnode) fun hu hlast => ?_
  subst hlast
  refine mirrors_bind (mirrors_getStage _) fun hu' hstage => ?_
  subst hstage
  rw [Clause.compatible_renamed]
  split
  · refine mirrors_bind (mirrors_inScope _ (mirrors_rowColumns h hrow)) fun _ hcolumns => ?_
    subst hcolumns
    refine mirrors_bind (mirrors_modifyStage _ fun _ => rfl) fun _ _ => ?_
    exact mirrors_pushNode rfl
  · refine mirrors_bind (mirrors_rowColumns h hrow) fun hu'' hcolumns => ?_
    subst hcolumns
    refine mirrors_bind (mirrors_wrap (by omega) var) fun _ hwrapper => ?_
    subst hwrapper
    refine mirrors_bind (mirrors_modifyStage _ fun _ => rfl) fun _ _ => ?_
    exact mirrors_pushNode rfl

/-! ## Constant rows -/

omit h in
theorem map_intercalate {α β : Type} (g : α → β) (sep : List α) (xs : List (List α)) :
    (sep.intercalate xs).map g = (sep.map g).intercalate (xs.map (·.map g)) := by
  induction xs with
  | nil => rfl
  | cons x xs ih =>
    cases xs with
    | nil => simp
    | cons y ys =>
      rw [List.intercalate_cons_cons, List.map_append, List.map_append, ih]
      exact List.intercalate_cons_cons.symm

omit h in
/-- A constant row that is no row constructor is a single value. -/
theorem constantColumns_value (p : Parts) {e : Expr} (h : e.kind ≠ .newInstance) :
    constantColumns p e = do return [⟨← p.value e, valueColumn, e.resultType⟩] := by
  cases e with
  | newInstance => exact absurd rfl h
  | _ => rfl

theorem mirrors_constantColumns {e : Expr} (he : e.everyNode (renamable vars) = true)
    (htype : (e.kind == .varRef || !e.typedByVars) = true) :
    Mirrors r.name w (constantColumns p e) (constantColumns p' (e.rename r)) fun _ a b =>
      b = a.map (·.renamed r.name) := by
  by_cases hrow : e.kind = .newInstance
  · cases e with
    | newInstance t args => exact mirrors_rowColumns h he
    | _ => cases hrow
  · rw [constantColumns_value p hrow, constantColumns_value p' (by rwa [kind_rename])]
    rcases Bool.or_eq_true_iff.mp htype with hvar | htyped
    · cases e with
      | varRef x t => exact mirrors_bind (h.bare x t w) fun _ hnone => hnone.elim
      | _ => cases hvar
    · refine mirrors_bind (h.value he w) fun _ hx => mirrors_pure fun _ _ => ?_
      subst hx
      rw [resultType_rename e (by simpa using htyped)]
      rfl

theorem mirrors_constantSelects {args : List Expr} (hargs : everyNodeOfAll (renamable vars) args = true)
    (htypes : ∀ e ∈ args, (e.kind == .varRef || !e.typedByVars) = true) :
    Mirrors r.name w (constantSelects p args) (constantSelects p' (args.map (rename r))) fun _ a b =>
      b = a.map (·.map (·.renamed r.name)) := by
  induction args generalizing w with
  | nil => exact mirrors_pure fun _ _ => rfl
  | cons e es ih =>
    rw [everyNodeOfAll, Bool.and_eq_true] at hargs
    rw [List.map_cons]
    refine mirrors_bind (mirrors_constantColumns h hargs.1 (htypes e (.head _))) fun _ hcolumns => ?_
    subst hcolumns
    refine mirrors_bind (ih hargs.2 fun e' he' => htypes e' (.tail _ he')) fun _ hselects => ?_
    subst hselects
    refine mirrors_pure fun _ _ => ?_
    simp [SqlExpr.renamed, SqlExpr.renamedAll_eq_map, Function.comp_def, Column.renamed]

omit h in
/-- Constant rows that are given one by one. -/
theorem constantRows_each (p : Parts) (t : DataType) {args : List Expr} (var : String) (hnil : args ≠ [])
    (helement : ∀ e, args ≠ [.element e]) :
    constantRows p t args var = (do
      let selects ← constantSelects p args
      let parts := [SqlExpr.verbatim " UNION ALL "].intercalate selects
      pushSource (.rows (.seq ([.verbatim "("] ++ parts ++ [.verbatim ")"]))) var) := by
  unfold constantRows
  split
  · exact absurd rfl (helement _)
  · exact absurd rfl hnil
  · rfl

omit h in
theorem emptyRows_renamed (f : String → String) (t : DataType) :
    FailTogether (fun a b => b = a.renamed f) (emptyRows t) (emptyRows t) := by
  unfold emptyRows
  cases t.element? with
  | none => exact .error _ _
  | some element =>
    cases hcast : castTarget element with
    | error e =>
      simp only [hcast]
      exact .error e e
    | ok type =>
      simp only [hcast]
      exact .ok rfl

omit h in
theorem keepsTypes_each {t : DataType} {args : List Expr} (helement : ∀ e, args ≠ [.element e])
    (h : (newInstance t args).keepsTypes = true) : ∀ e ∈ args, (e.kind == .varRef || !e.typedByVars) = true := by
  unfold keepsTypes at h
  split at h
  · cases ‹newInstance t args = _›
  · cases ‹newInstance t args = _›
    exact absurd rfl (helement _)
  · cases ‹newInstance t args = _›
    exact List.all_eq_true.mp h
  · cases ‹newInstance t args = _›
  · rename_i hrows _
    exact (hrows t args rfl).elim

include hr in
theorem mirrors_constantRows (t : DataType) {args : List Expr} (hargs : everyNodeOfAll (renamable vars) args = true)
    (htypes : (newInstance t args).keepsTypes = true) (var : String) :
    Mirrors r.name w (constantRows p t args var) (constantRows p' t (args.map (rename r)) (r.name var)) SameNode := by
  by_cases helement : ∃ e, args = [.element e]
  · obtain ⟨e, rfl⟩ := helement
    have he : e.everyNode (renamable vars) = true := by
      simp only [everyNodeOfAll, everyNode, Bool.and_eq_true] at hargs
      exact hargs.1.2
    refine mirrors_aliasedRows hr h he fun _ hnode => ?_
    refine mirrors_bind (mirrors_openStage hnode) fun hu hlast => ?_
    subst hlast
    refine mirrors_bind (mirrors_modifyStage _ (addLimit_renamed (.constant (.int32 1)))) fun hu' _ => ?_
    exact mirrors_node (by omega)
  · have helement := not_exists.mp helement
    by_cases hnil : args = []
    · subst hnil
      refine mirrors_bind (mirrors_lift (emptyRows_renamed r.name t)) fun _ hrows => ?_
      subst hrows
      exact mirrors_pushSource (.rows _) var
    · have helement' (e : Expr) : args.map (rename r) ≠ [.element e] := by
        intro heq
        obtain ⟨a, rfl, ha⟩ := List.map_eq_singleton_iff.mp heq
        cases a with
        | element a => exact helement a rfl
        | _ => cases ha
      rw [constantRows_each p t var hnil helement,
        constantRows_each p' t (r.name var) (mt List.map_eq_nil_iff.mp hnil) helement']
      refine mirrors_bind (mirrors_constantSelects h hargs (keepsTypes_each helement htypes)) @fun _ selects _ _ hselects => ?_
      subst hselects
      have hparts := map_intercalate (SqlExpr.renamed r.name) [SqlExpr.verbatim " UNION ALL "] selects
      have hrows : SqlExpr.seq ([.verbatim "("] ++ [SqlExpr.verbatim " UNION ALL "].intercalate
            (selects.map (·.map (·.renamed r.name))) ++ [.verbatim ")"]) =
          (SqlExpr.seq ([.verbatim "("] ++ [SqlExpr.verbatim " UNION ALL "].intercalate selects ++
            [.verbatim ")"])).renamed r.name := by
        rw [SqlExpr.renamed, SqlExpr.renamedAll_eq_map, List.map_append, List.map_append, hparts]
        rfl
      dsimp only
      rw [hrows]
      exact mirrors_pushSource (.rows _) var

/-! ## Set operations -/

omit h in
theorem chainOperands_rename (kind : SetOpKind) (e : Expr) :
    chainOperands kind (e.rename r) = (chainOperands kind e).map (rename r) := by
  induction e using chainOperands.induct kind with
  | case1 a b iha ihb =>
    rw [rename, chainOperands, chainOperands, if_pos rfl, if_pos rfl, iha, ihb, List.map_append]
  | case2 k a b hk =>
    rw [rename, chainOperands, chainOperands, if_neg hk, if_neg hk]
    rfl
  | case3 e he =>
    cases e with
    | setOp k a b => exact (he k a b rfl).elim
    | _ => rfl

omit h in
theorem setOpOperands_rename (kind : SetOpKind) (a b : Expr) :
    setOpOperands kind (a.rename r) (b.rename r) = (setOpOperands kind a b).map (rename r) := by
  cases kind with
  | except => rfl
  | _ => simp only [setOpOperands, chainOperands_rename, List.map_append]

/-- An operand of a set operation has rows of columns. -/
def Combinable (vars : List String) (e : Expr) : Prop :=
  e.everyNode (renamable vars) = true ∧ e.typedByVars = false

omit h in
theorem combinable_sides {kind : SetOpKind} {a b : Expr} (he : (setOp kind a b).everyNode (renamable vars) = true) :
    Combinable vars a ∧ Combinable vars b := by
  have htest := test_of_everyNode he
  simp only [renamable, keepsTypes, Bool.and_eq_true, Bool.not_eq_true'] at htest
  rw [everyNode, Bool.and_eq_true, Bool.and_eq_true] at he
  exact ⟨⟨he.2.1, htest.2.1⟩, he.2.2, htest.2.2⟩

omit h in
theorem combinable_chainOperands (kind : SetOpKind) {e : Expr} (he : Combinable vars e) :
    ∀ o ∈ chainOperands kind e, Combinable vars o := by
  induction e using chainOperands.induct kind with
  | case1 a b iha ihb =>
    rw [chainOperands, if_pos rfl]
    obtain ⟨ha, hb⟩ := combinable_sides he.1
    exact fun o ho => (List.mem_append.mp ho).elim (iha ha o) (ihb hb o)
  | case2 k a b hk =>
    rw [chainOperands, if_neg hk]
    exact List.forall_mem_singleton.mpr he
  | case3 e hnot =>
    rw [chainOperands]
    · exact List.forall_mem_singleton.mpr he
    · exact hnot

omit h in
theorem combinable_setOpOperands (kind : SetOpKind) {a b : Expr} (ha : Combinable vars a) (hb : Combinable vars b) :
    ∀ o ∈ setOpOperands kind a b, Combinable vars o := by
  have hchain (kind : SetOpKind) : ∀ o ∈ chainOperands kind a ++ chainOperands kind b, Combinable vars o :=
    fun o ho => (List.mem_append.mp ho).elim (combinable_chainOperands kind ha o) (combinable_chainOperands kind hb o)
  cases kind with
  | except => exact List.forall_mem_cons.mpr ⟨ha, List.forall_mem_singleton.mpr hb⟩
  | _ => exact hchain _

omit h in
theorem mirrors_pullMembers (hr : r.Faithful) (stage : StageId) (source : String) (members : List Member) :
    Mirrors r.name w (exposeMembers.pullMembers stage source members)
      (exposeMembers.pullMembers stage (r.name source) members) fun _ _ _ => True := by
  induction members generalizing w with
  | nil => exact mirrors_pure fun _ _ => trivial
  | cons m ms ih => exact mirrors_bind (mirrors_pullColumn hr.name_inj _ _ _) fun _ _ => ih

omit h in
theorem mirrors_exposeMembers (hr : r.Faithful) (stage : StageId) (t : DataType) :
    Mirrors r.name w (exposeMembers stage t) (exposeMembers stage t) fun _ _ _ => True := by
  refine mirrors_bind (mirrors_getStage stage) @fun _ s _ _ hstage => ?_
  subst hstage
  have htest : ((s.renamed r.name).projection.isSome || !(s.renamed r.name).pulled.isEmpty) =
      (s.projection.isSome || !s.pulled.isEmpty) := by simp [Stage.renamed]
  rw [htest]
  split
  · exact mirrors_pure fun _ _ => trivial
  · rcases hfrom : s.from_ with _ | item | _ <;> rcases t.elementOrSelf.members? with _ | members <;>
      simp only [Stage.renamed, hfrom, Option.map_none, Option.map_some, FromTree.renamed] <;> first
        | exact mirrors_pure fun _ _ => trivial
        | exact mirrors_pullMembers hr stage item.name members

theorem mirrors_operandStages (hr : Renames r vars) {var : String} (hvar : Occurs vars var) (place : Nat)
    {es : List Expr} (hes : ∀ e ∈ es, Combinable vars e) :
    Mirrors r.name w (operandStages p var place es) (operandStages p' (r.name var) place (es.map (rename r)))
      fun _ a b => b = a := by
  induction es generalizing w place with
  | nil => exact mirrors_pure fun _ _ => rfl
  | cons e es ih =>
    obtain ⟨he, htype⟩ := hes e (.head _)
    rw [List.map_cons, operandStages, operandStages, ← hr.operand hvar, resultType_rename e htype]
    refine mirrors_bind (h.rows he (hvar.operand place) w) fun _ hnode => ?_
    obtain ⟨rfl, hnode⟩ := hnode
    refine mirrors_bind (mirrors_openStage hnode) fun _ hlast => ?_
    subst hlast
    refine mirrors_bind (mirrors_exposeMembers hr.toFaithful _ _) fun _ _ => ?_
    refine mirrors_bind (ih (place + 1) fun e' he' => hes e' (.tail _ he')) fun _ hstages => ?_
    subst hstages
    exact mirrors_pure fun _ _ => rfl

theorem mirrors_setOpRows (hr : Renames r vars) (kind : SetOpKind) {a b : Expr}
    (he : (setOp kind a b).everyNode (renamable vars) = true) {var : String} (hvar : Occurs vars var) :
    Mirrors r.name w (setOpRows p kind a b var) (setOpRows p' kind (a.rename r) (b.rename r) (r.name var))
      SameNode := by
  obtain ⟨ha, hb⟩ := combinable_sides he
  unfold setOpRows
  rw [setOpOperands_rename]
  refine mirrors_bind (mirrors_operandStages h hr hvar 0 (combinable_setOpOperands kind ha hb)) fun _ hstages => ?_
  subst hstages
  exact mirrors_pushSource (.setOp kind _) var

/-! ## Groups -/

theorem mirrors_aggregateValues {aggs : List Aggregate}
    (haggs : everyNodeOfAggregates (renamable vars) aggs = true) :
    Mirrors r.name w (aggregateValues p aggs) (aggregateValues p' (aggs.map (renamedAggregate r))) fun _ a b =>
      b = a.map (·.renamed r.name) := by
  induction aggs generalizing w with
  | nil => exact mirrors_pure fun _ _ => rfl
  | cons a aggs ih =>
    rw [everyNodeOfAggregates, Bool.and_eq_true] at haggs
    rw [List.map_cons, aggregateValues, aggregateValues, aggregateValue_rename]
    refine mirrors_bind (Comparison.steps_aggregateValue (C := mirroring r.name) (h.compilesAll haggs.1)) fun _ hvalue => ?_
    rw [show _ = _ from hvalue]
    refine mirrors_bind (ih haggs.2) fun _ hvalues => ?_
    subst hvalues
    exact mirrors_pure fun _ _ => rfl

omit h in
theorem groupKeys_rename (keys : List Expr) (values : List SqlExpr) :
    groupKeys (keys.map (rename r)) (values.map (·.renamed r.name)) =
      (groupKeys keys values).map (·.renamed r.name) := by
  have hconstant (e : Expr) : isConstant (e.rename r) = isConstant e := by cases e <;> rfl
  unfold groupKeys
  rw [List.zip_map, List.filter_map, List.map_map, List.map_map]
  simp [Function.comp_def, hconstant]

theorem mirrors_groupRows {e : Expr} {v g : String} {keys : List Expr} {aggs : List Aggregate}
    (he : e.everyNode (renamable vars) = true) (hv : Occurs vars v)
    (hkeys : everyNodeOfAll (renamable vars) keys = true)
    (haggs : everyNodeOfAggregates (renamable vars) aggs = true) (t : DataType) (var : String) :
    Mirrors r.name w (groupRows p ⟨e, v, g⟩ keys aggs t var)
      (groupRows p' ⟨e.rename r, r.name v, r.name g⟩ (keys.map (rename r)) (aggs.map (renamedAggregate r)) t
        (r.name var)) SameNode := by
  refine mirrors_openRows h he hv .groupBy var fun stage hnode => ?_
  refine mirrors_bind (mirrors_bindVar g hnode) fun hu _ => ?_
  split
  · exact mirrors_fail _ _
  · rename_i members _
    rw [List.length_map, List.length_map]
    split
    · have hvalues {w : Nat} : Mirrors r.name w
          (do
            let keyValues ← valuesOf p.value keys
            return (keyValues, ← aggregateValues p aggs))
          (do
            let keyValues ← valuesOf p'.value (keys.map (rename r))
            return (keyValues, ← aggregateValues p' (aggs.map (renamedAggregate r)))) fun _ a b =>
            b = (a.1.map (·.renamed r.name), a.2.map (·.renamed r.name)) := by
        refine mirrors_bind (mirrors_valuesOf h hkeys) fun _ hkeyValues => ?_
        subst hkeyValues
        refine mirrors_bind (mirrors_aggregateValues h haggs) fun _ hvalues => ?_
        subst hvalues
        exact mirrors_pure fun _ _ => rfl
      refine mirrors_bind (mirrors_inScope _ hvalues) @fun _ values _ hu' hpair => ?_
      subst hpair
      refine mirrors_bind (mirrors_modifyStage _ fun s => ?_) fun hlast _ => mirrors_node (by omega)
      rw [← List.map_append, columnsOf_renamed, groupKeys_rename]
      rfl
    · exact mirrors_fail _ _

/-! ## Joins -/

theorem mirrors_joinSide {node : Nat} (hnode : node < w) {e : Expr} (he : e.everyNode (renamable vars) = true)
    {var : String} (hvar : Occurs vars var) :
    Mirrors r.name w (joinSide p node e var) (joinSide p' node (e.rename r) (r.name var)) fun _ a b =>
      b = a.renamed r.name := by
  refine mirrors_bind (h.rows he hvar w) fun hu hchild => ?_
  obtain ⟨rfl, hchild⟩ := hchild
  refine mirrors_bind (mirrors_modifyNode _ (fun _ => rfl) fun n parent hparent => .inr ?_) fun hu' _ => ?_
  · obtain rfl := Option.some.inj hparent
    exact Nat.lt_of_lt_of_le hnode hu
  · refine mirrors_bind (mirrors_openStage (Nat.lt_of_lt_of_le hchild hu')) fun _ hlast => ?_
    subst hlast
    exact mirrors_pure fun _ _ => rfl

theorem mirrors_joined (stage : StageId) (left right : FromTree) (kind : JoinKind) {condition : Option Expr}
    (hcondition : everyNodeOfOption (renamable vars) condition = true) :
    Mirrors r.name w (joined p stage left kind right condition)
      (joined p' stage (left.renamed r.name) kind (right.renamed r.name) (renameOption r condition)) fun _ a b =>
      b = a.renamed r.name := by
  cases condition with
  | none => exact mirrors_pure fun _ _ => rfl
  | some e =>
    refine mirrors_bind (mirrors_inScope _ (h.value hcondition w)) fun _ hx => ?_
    subst hx
    exact mirrors_pure fun _ _ => rfl

theorem mirrors_joinTree {node : Nat} (hnode : node < w) (stage : StageId) {e : Expr}
    (he : e.everyNode (renamable vars) = true) {var : String} (hvar : Occurs vars var) :
    Mirrors r.name w (joinTree p node stage e var) (joinTree p' node stage (e.rename r) (r.name var)) fun _ a b =>
      b = a.renamed r.name := by
  induction e, var using joinTree.induct generalizing w with
  | case1 var kind a v b u condition iha ihb =>
    have hv : Occurs vars v := .var (mem_of_everyNode he v (.head _))
    have hu : Occurs vars u := .var (mem_of_everyNode he u (.tail _ (.head _)))
    simp only [everyNode, Bool.and_eq_true] at he
    obtain ⟨-, ⟨ha, hb⟩, hcondition⟩ := he
    rw [rename, joinTree, joinTree]
    refine mirrors_bind (iha hnode ha hv) @fun _ left _ hw hleft => ?_
    subst hleft
    split
    · refine mirrors_bind (mirrors_inScope _ (mirrors_joinSide h (Nat.lt_of_lt_of_le hnode hw) hb hu))
        @fun _ item _ _ hitem => ?_
      subst hitem
      rw [pure_bind, pure_bind]
      exact mirrors_joined h stage left (.item { item with forceSubquery := true }) kind hcondition
    · refine mirrors_bind (ihb (Nat.lt_of_lt_of_le hnode hw) hb hu) @fun _ right _ _ hright => ?_
      subst hright
      exact mirrors_joined h stage left right kind hcondition
  | case2 var e hjoin =>
    have hjoin' : ∀ (kind : JoinKind) (a : Expr) (v : String) (b : Expr) (u : String) (c : Option Expr),
        e.rename r = join kind ⟨a, v⟩ ⟨b, u⟩ c → False := by
      intro kind a v b u c heq
      cases e with
      | join k a b c => exact hjoin _ _ _ _ _ _ rfl
      | _ => cases heq
    rw [joinTree, joinTree]
    · refine mirrors_bind (mirrors_joinSide h hnode he hvar) fun _ hitem => ?_
      subst hitem
      exact mirrors_pure fun _ _ => rfl
    · exact hjoin'
    · exact hjoin

theorem mirrors_joinRows {e : Expr} (he : e.everyNode (renamable vars) = true) {var : String} (hvar : Occurs vars var) :
    Mirrors r.name w (joinRows p e var) (joinRows p' (e.rename r) (r.name var)) SameNode := by
  refine mirrors_bind (mirrors_pushStage {}) fun _ hstage => ?_
  subst hstage
  refine mirrors_bind (mirrors_pushNode rfl) fun _ hnode => ?_
  obtain ⟨rfl, hnode⟩ := hnode
  refine mirrors_bind (mirrors_joinTree h hnode _ he hvar) fun hu hfrom => ?_
  subst hfrom
  refine mirrors_bind (mirrors_modifyStage _ fun _ => rfl) fun hu' _ => ?_
  exact mirrors_node (by omega)

/-! ## All relational expressions -/

include hr in
theorem mirrors_nodeStep {e : Expr} (he : e.everyNode (renamable vars) = true) {var : String} (hvar : Occurs vars var) :
    Mirrors r.name w (nodeStep p e var) (nodeStep p' (e.rename r) (r.name var)) SameNode := by
  have hnames (x : String) (hx : x ∈ e.namesHere) : Occurs vars x := .var (mem_of_everyNode he x hx)
  have hall := he
  unfold everyNode at he
  obtain ⟨htest, he⟩ := Bool.and_eq_true_iff.mp he
  cases e with
  | scan set => exact mirrors_pushSource (.table _) var
  | filter input predicate =>
    obtain ⟨hinput, hpredicate⟩ := Bool.and_eq_true_iff.mp he
    exact mirrors_filterRows h hinput (hnames _ (.head _)) hpredicate var
  | project input row =>
    obtain ⟨hinput, hrow⟩ := Bool.and_eq_true_iff.mp he
    exact mirrors_projectRows h hinput (hnames _ (.head _)) hrow var
  | sort input keys =>
    obtain ⟨hinput, hkeys⟩ := Bool.and_eq_true_iff.mp he
    exact mirrors_sortRows h hinput (hnames _ (.head _)) hkeys var
  | skip input keys count =>
    obtain ⟨hrows, hcount⟩ := Bool.and_eq_true_iff.mp he
    obtain ⟨hinput, hkeys⟩ := Bool.and_eq_true_iff.mp hrows
    exact mirrors_skipRows h hinput (hnames _ (.head _)) hkeys hcount var
  | limit input count =>
    obtain ⟨hinput, hcount⟩ := Bool.and_eq_true_iff.mp he
    exact mirrors_limitRows hr h hinput hcount
  | distinct input => exact mirrors_distinctRows hr h he var
  | groupBy input keys aggregates t =>
    obtain ⟨hrows, haggregates⟩ := Bool.and_eq_true_iff.mp he
    obtain ⟨hinput, hkeys⟩ := Bool.and_eq_true_iff.mp hrows
    obtain ⟨input, v, g⟩ := input
    rw [rename, renameAll_eq_map, renameAggregates_eq_map]
    exact mirrors_groupRows h hinput (hnames _ (.head _)) hkeys haggregates t var
  | join kind left right condition => exact mirrors_joinRows h hall hvar
  | setOp kind left right => exact mirrors_setOpRows h hr kind hall hvar
  | newInstance t args =>
    rw [rename, renameAll_eq_map]
    exact mirrors_constantRows hr h t he (Bool.and_eq_true_iff.mp htest).2 var
  | call f args t =>
    rw [rename, renameAll_eq_map]
    exact mirrors_callRows h f he t var
  | _ => exact mirrors_fail _ _

include hr in
theorem mirrors_rowsStep {e : Expr} (he : e.everyNode (renamable vars) = true) {var : String} (hvar : Occurs vars var) :
    Mirrors r.name w (rowsStep p e var) (rowsStep p' (e.rename r) (r.name var)) SameNode := by
  refine mirrors_bind (mirrors_nodeStep hr h he hvar) fun _ hnode => ?_
  obtain ⟨rfl, hnode⟩ := hnode
  refine mirrors_bind (mirrors_bindVar var hnode) fun hu _ => ?_
  exact mirrors_node (Nat.lt_of_lt_of_le hnode hu)

end

/-! ## Expressions of any depth -/

include hr

theorem mirrored_partsTo (n : Nat) : Mirrored r vars (partsTo n) (partsTo n) := by
  induction n with
  | zero => exact ⟨fun _ _ => mirrors_fail _ _, fun _ _ _ _ => mirrors_fail _ _, fun _ _ _ => mirrors_fail _ _⟩
  | succ n ih =>
    exact ⟨fun he _ => mirrors_valueStep hr ih he, fun he _ hvar _ => mirrors_rowsStep hr ih he hvar,
      fun _ _ _ => mirrors_fail _ _⟩

theorem mirrors_rows {e : Expr} (he : e.everyNode (renamable vars) = true) {var : String} (hvar : Occurs vars var) :
    Mirrors r.name w (rows e var) (rows (e.rename r) (r.name var)) SameNode := by
  unfold rows levels
  rw [size_rename]
  exact (mirrored_partsTo hr _).rows he hvar w

end TreeSql.Compile
