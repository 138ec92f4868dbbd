import TreeSql.Proofs.Compile.ColumnComparison
import TreeSql.Proofs.Compile.StagesAlike

/-
  TreeSql.Proofs.Compile.TreeComparison — two compilations of a whole tree, step by step.

  Beside values, a compilation of a tree builds stages and nodes. A `TreeComparison` says of each primitive
  step on those that both compilations do it alike. Stages and nodes have the same numbers in both. What a
  compilation built itself it owns: only that is changed.

  If the primitive steps do the same, then so do all steps for rows and for values but constants. If constants
  are written alike (`AgreeOnConstants`), that goes for expressions of any depth (`agree_partsTo`). Statements do the
  same when their expressions do (`steps_statement`).
-/
namespace TreeSql.Compile

open Sql Postgres

structure TreeComparison extends ColumnComparison where
  Owned : World → StageId → Prop
  OwnedNode : World → NodeId → Prop
  owned_later {u w : World} {id : StageId} (h : Le u w) (hid : Owned u id) : Owned w id
  ownedNode_later {u w : World} {id : NodeId} (h : Le u w) (hid : OwnedNode u id) : OwnedNode w id
  alike_stage {w : World} {id : StageId} (h : Owned w id) : Alike w (.stage id) (.stage id)
  alike_element {w : World} {a b : SqlExpr} (h : Alike w a b) : Alike w (.paren a) (.paren b)
  alike_placeholder (w : World) (name : String) :
    Alike w (.verbatim (placeholder name)) (.verbatim (placeholder name))
  alike_null (w : World) : Alike w (.verbatim "NULL") (.verbatim "NULL")
  steps_nextAlias (w : World) : Steps w nextAlias nextAlias fun _ a b => a = b
  steps_inScope {α : Type} {w : World} (id : StageId) {m m' : CompileM α} {R : World → α → α → Prop}
    (h : Steps w m m' R) : Steps w (inScope id m) (inScope id m') R
  steps_pushStage {w : World} {s t : Stage} (h : StageAlike (Alike w) s t) :
    Steps w (pushStage s) (pushStage t) fun u i j => i = j ∧ Owned u i
  steps_getStage (w : World) (id : StageId) :
    Steps w (getStage id) (getStage id) fun u => StageAlike (Alike u)
  steps_modifyStage {w : World} {id : StageId} (h : Owned w id) {f f' : Stage → Stage}
    (hf : ∀ {u s t}, Le w u → StageAlike (Alike u) s t → StageAlike (Alike u) (f s) (f' t)) :
    Steps w (modifyStage id f) (modifyStage id f') fun _ _ _ => True
  steps_pushNode {w : World} {n : Node} (h : ∀ s ∈ n.selects, Owned w s.stage) :
    Steps w (pushNode n) (pushNode n) fun u i j => i = j ∧ OwnedNode u i
  steps_getNode {w : World} {id : NodeId} (h : OwnedNode w id) :
    Steps w (getNode id) (getNode id) fun u n n' => n = n' ∧ ∀ s ∈ n.selects, Owned u s.stage
  steps_modifyNode {w : World} {id : NodeId} (h : OwnedNode w id) {f : Node → Node}
    (hf : ∀ {u n}, Le w u → (∀ s ∈ n.selects, Owned u s.stage) → ∀ s ∈ (f n).selects, Owned u s.stage) :
    Steps w (modifyNode id f) (modifyNode id f) fun _ _ _ => True
  steps_bindVar {w : World} (var : String) {node : NodeId} (h : OwnedNode w node) :
    Steps w (bindVar var node) (bindVar var node) fun _ _ _ => True

namespace TreeComparison

variable (C : TreeComparison)

/-- The same node, which is owned. -/
def SameNode (w : C.World) (i j : NodeId) : Prop := i = j ∧ C.OwnedNode w i

/-- The same stage, which is owned. -/
def SameStage (w : C.World) (i j : StageId) : Prop := i = j ∧ C.Owned w i

/-- Both compile every expression alike. -/
structure Agree (p p' : Parts) : Prop where
  value (e : Expr) (w : C.World) : C.Steps w (p.value e) (p'.value e) C.Alike
  rows (e : Expr) (var : String) (w : C.World) : C.Steps w (p.rows e var) (p'.rows e var) C.SameNode

variable {C} {w : C.World} {p p' : Parts}

theorem Agree.compiles (h : C.Agree p p') (es : List Expr) : C.Compiles p.value p'.value es :=
  fun e _ w => h.value e w

/-! ## Nulls -/

theorem steps_nullValue (t : DataType) : C.Steps w (nullValue t) (nullValue t) C.Alike := by
  refine C.steps_context fun hmode _ => ?_
  rw [hmode]
  split
  · refine C.bind (Comparison.steps_lift _) fun _ htype => ?_
    subst htype
    exact C.pure fun u _ => (C.congruence u).cast (C.alike_null u) _
  · exact C.pure fun u _ => C.alike_null u

/-! ## Stages around a node -/

theorem last_mem_selects (n : Node) : n.last ∈ n.selects := by
  unfold Node.last Node.selects
  cases h : n.wrappers.getLast? with
  | none => exact .head _
  | some s => exact .tail _ (List.mem_of_getLast? h)

theorem steps_openStage {node : NodeId} (h : C.OwnedNode w node) :
    C.Steps w (openStage node) (openStage node) fun u a b => a = b ∧ C.Owned u a.stage := by
  refine C.bind (C.steps_getNode h) fun _ hn => ?_
  obtain ⟨rfl, howned⟩ := hn
  exact C.pure fun _ hu => ⟨rfl, C.owned_later hu (howned _ (last_mem_selects _))⟩

theorem steps_wrap {node : NodeId} (h : C.OwnedNode w node) (label : String) :
    C.Steps w (wrap node label) (wrap node label) C.SameStage := by
  refine C.bind (steps_openStage h) fun hw hlast => ?_
  obtain ⟨rfl, -⟩ := hlast
  refine C.bind (C.steps_pushStage (stageAlike_ofSource (.stage _) _)) fun hu hid => ?_
  obtain ⟨rfl, hid⟩ := hid
  refine C.bind (C.steps_modifyNode (C.ownedNode_later (C.trans hw hu) h) @fun _ n hv hn => ?_) fun hv _ => ?_
  · intro s hs
    rcases List.mem_append.mp (show s ∈ n.selects ++ [_] from hs) with hs | hs
    · exact hn s hs
    · rw [List.mem_singleton.mp hs]
      exact C.owned_later hv hid
  · exact C.pure fun _ hx => ⟨rfl, C.owned_later (C.trans hv hx) hid⟩

theorem steps_openFor (clause : Clause) {node : NodeId} (h : C.OwnedNode w node) (label : String) :
    C.Steps w (openFor clause node label) (openFor clause node label) C.SameStage := by
  refine C.bind (steps_openStage h) fun hw hlast => ?_
  obtain ⟨rfl, hlast⟩ := hlast
  refine C.bind (C.steps_getStage _ _) fun hu hst => ?_
  rw [hst.compatible]
  split
  · exact C.pure fun _ hv => ⟨rfl, C.owned_later (C.trans hu hv) hlast⟩
  · exact steps_wrap (C.ownedNode_later (C.trans hw hu) h) label

theorem steps_pushSource {a b : Source} (h : SourceAlike (C.Alike w) a b) (name : String) :
    C.Steps w (pushSource a name) (pushSource b name) C.SameNode := by
  refine C.bind (C.steps_pushStage (stageAlike_ofSource h name)) fun _ hid => ?_
  obtain ⟨rfl, hid⟩ := hid
  refine C.steps_pushNode fun s hs => ?_
  rw [List.mem_singleton.mp hs]
  exact hid

/-! ## Subqueries -/

/-- What is done with rows that have an alias of their own. -/
theorem steps_aliasedRows (h : C.Agree p p') (e : Expr) {α : Type} {R : C.World → α → α → Prop}
    {g g' : NodeId → CompileM α}
    (hg : ∀ {u : C.World} {node : NodeId}, C.OwnedNode u node → C.Steps u (g node) (g' node) R) :
    C.Steps w (nextAlias >>= fun label => p.rows e label >>= g) (nextAlias >>= fun label => p'.rows e label >>= g')
      R := by
  refine C.bind (C.steps_nextAlias w) fun _ hlabel => ?_
  subst hlabel
  refine C.bind (h.rows e _ _) fun _ hnode => ?_
  obtain ⟨rfl, hnode⟩ := hnode
  exact hg hnode

theorem steps_subqueryValue (h : C.Agree p p') (e : Expr) :
    C.Steps w (subqueryValue p e) (subqueryValue p' e) C.Alike := by
  refine steps_aliasedRows h e fun hnode => ?_
  refine C.bind (steps_openStage hnode) fun _ hlast => ?_
  obtain ⟨rfl, hlast⟩ := hlast
  exact C.pure fun _ hu => C.alike_stage (C.owned_later hu hlast)

theorem steps_pullAll (path : ColumnPath) (stages : List AliasedStage) :
    C.Steps w (pullAll path stages) (pullAll path stages) fun _ _ _ => True := by
  induction stages generalizing w path with
  | nil => exact C.pure fun _ _ => trivial
  | cons stage stages ih =>
    refine C.bind (ColumnComparison.steps_pullThrough path stage) fun _ hpath => ?_
    subst hpath
    exact ih _

theorem steps_limitValue (h : C.Agree p p') (e : Expr) :
    C.Steps w (limitValue p e) (limitValue p' e) C.Alike := by
  refine steps_aliasedRows h e fun hnode => ?_
  refine C.bind (C.steps_getNode hnode) fun hu hn => ?_
  obtain ⟨rfl, howned⟩ := hn
  refine C.bind (C.steps_getStage _ _) @fun _ s t hv hst => ?_
  have hlast := howned _ (last_mem_selects _)
  have hprojection := hst.projection
  generalize s.projection = a, t.projection = b at hprojection
  cases hprojection with
  | none => exact C.pure fun _ hx => C.alike_stage (C.owned_later (C.trans hv hx) hlast)
  | some hcolumns =>
    cases hcolumns with
    | nil => exact C.pure fun _ hx => C.alike_stage (C.owned_later (C.trans hv hx) hlast)
    | cons hcolumn _ =>
      simp only [hcolumn.name]
      refine C.bind (steps_pullAll _ _) fun hx _ => ?_
      exact C.pure fun _ hy => C.alike_stage (C.owned_later (C.trans hv (C.trans hx hy)) hlast)

/-! ## Values -/

theorem steps_valueStep (h : C.Agree p p') (e : Expr)
    (hconstant : ∀ v, e = .constant v → C.Steps w (constantValue v) (constantValue v) C.Alike) :
    C.Steps w (valueStep p e) (valueStep p' e) C.Alike := by
  cases e with
  | constant v => exact hconstant v rfl
  | null t => exact steps_nullValue t
  | paramRef name t => exact C.pure fun u _ => C.alike_placeholder u name
  | varRef name t => exact C.fail _
  | property base name t => exact ColumnComparison.steps_propertyValue base name
  | comparison op l r | and l r | or l r | like l r => exact Comparison.steps_binaryValue _ (h.compiles _)
  | arithmetic op args => exact Comparison.steps_arithmeticValue op (h.compiles _)
  | not e => exact Comparison.steps_one (h.compiles _) fun hx => (C.congruence _).negate hx
  | isNull e => exact Comparison.steps_one (h.compiles _) fun hx => (C.congruence _).trailing _ hx
  | isEmpty e => exact Comparison.steps_one (h.compiles _) fun hx => (C.congruence _).negate ((C.congruence _).exists_ hx)
  | isIn item list => exact Comparison.steps_isInValue (h.compiles _)
  | cast e t =>
    refine C.bind (h.value e w) fun _ hx => ?_
    refine C.bind (Comparison.steps_lift _) fun hu htype => ?_
    subst htype
    exact C.pure fun u ht => (C.congruence u).cast (C.later (C.trans hu ht) hx) _
  | caseOf ws ts o =>
    show C.Steps w (reducedCaseValue p _) (reducedCaseValue p' _) C.Alike
    cases Expr.reduce (.caseOf ws ts o) with
    | caseOf ws ts o => exact Comparison.steps_caseValue (h.compiles _) (h.compiles _) (h.compiles _)
    | _ => exact h.value _ w
  | call f args t => exact Comparison.steps_callValue f t (h.compiles _)
  | element e => exact Comparison.steps_one (h.compiles _) C.alike_element
  | limit e n => exact steps_limitValue h _
  | newInstance t args =>
    simp only [valueStep]
    split
    · exact steps_subqueryValue h _
    · exact C.fail _
  | _ => exact steps_subqueryValue h _

/-! ## Rows -/

/-- What is done with rows and the stage that takes a clause. -/
theorem steps_openRows (h : C.Agree p p') (e : Expr) (v : String) (clause : Clause) (var : String) {α : Type}
    {R : C.World → α → α → Prop} {g g' : NodeId → StageId → CompileM α}
    (hg : ∀ {u : C.World} {node : NodeId} {stage : StageId}, C.OwnedNode u node → C.Owned u stage →
      C.Steps u (g node stage) (g' node stage) R) :
    C.Steps w (p.rows e v >>= fun node => openFor clause node var >>= g node)
      (p'.rows e v >>= fun node => openFor clause node var >>= g' node) R := by
  refine C.bind (h.rows e v w) fun _ hnode => ?_
  obtain ⟨rfl, hnode⟩ := hnode
  refine C.bind (steps_openFor clause hnode var) fun hu hstage => ?_
  obtain ⟨rfl, hstage⟩ := hstage
  exact hg (C.ownedNode_later hu hnode) hstage

theorem steps_filterRows (h : C.Agree p p') (input : Binding) (predicate : Expr) (var : String) :
    C.Steps w (filterRows p input predicate var) (filterRows p' input predicate var) C.SameNode := by
  refine steps_openRows h _ _ .filter var fun hnode hstage => ?_
  refine C.bind (C.steps_inScope _ (h.value predicate _)) fun hv hc => ?_
  refine C.bind (C.steps_modifyStage (C.owned_later hv hstage) fun hx hst =>
    hst.addCondition ((C.congruence _).binary _) (C.later hx hc)) fun hx _ => ?_
  exact C.pure fun _ hy => ⟨rfl, C.ownedNode_later (C.trans hv (C.trans hx hy)) hnode⟩

theorem steps_orderItems (h : C.Agree p p') (keys : List SortKey) :
    C.Steps w (orderItems p keys) (orderItems p' keys) fun u => List.Forall₂ (OrderAlike (C.Alike u)) := by
  induction keys generalizing w with
  | nil => exact C.pure fun _ _ => .nil
  | cons key keys ih =>
    refine C.bind (h.value _ w) fun _ hkey => ?_
    refine C.bind ih fun hu hkeys => ?_
    refine C.pure fun _ hv => .cons ⟨C.later (C.trans hu hv) hkey, rfl⟩ ?_
    exact List.Forall₂.imp (fun _ _ => .mono fun _ _ => C.later hv) hkeys

theorem steps_orderBy (h : C.Agree p p') {stage : StageId} (hstage : C.Owned w stage) (keys : List SortKey) :
    C.Steps w (orderBy p stage keys) (orderBy p' stage keys) fun _ _ _ => True := by
  refine C.bind (C.steps_inScope _ (steps_orderItems h keys)) fun hu hitems => ?_
  refine C.steps_modifyStage (C.owned_later hu hstage) fun hv hst => { hst with orderBy := .some ?_ }
  exact List.Forall₂.imp (fun _ _ => .mono fun _ _ => C.later hv) hitems

theorem steps_sortRows (h : C.Agree p p') (input : Binding) (keys : List SortKey) (var : String) :
    C.Steps w (sortRows p input keys var) (sortRows p' input keys var) C.SameNode := by
  refine steps_openRows h _ _ .sort var fun hnode hstage => ?_
  refine C.bind (steps_orderBy h hstage keys) fun hv _ => ?_
  exact C.pure fun _ hx => ⟨rfl, C.ownedNode_later (C.trans hv hx) hnode⟩

theorem steps_skipRows (h : C.Agree p p') (input : Binding) (keys : List SortKey) (count : Expr) (var : String) :
    C.Steps w (skipRows p input keys count var) (skipRows p' input keys count var) C.SameNode := by
  refine steps_openRows h _ _ .skip var fun hnode hstage => ?_
  refine C.bind (steps_orderBy h hstage keys) fun hv _ => ?_
  refine C.bind (h.value count _) fun hv' hcount => ?_
  refine C.bind (C.steps_modifyStage (C.owned_later (C.trans hv hv') hstage) fun hx hst =>
    { hst with skip := .some (C.later hx hcount) }) fun hx _ => ?_
  exact C.pure fun _ hy => ⟨rfl, C.ownedNode_later (C.trans hv (C.trans hv' (C.trans hx hy))) hnode⟩

/-- Adding a limit that is alike. -/
theorem alike_addLimit {a b : SqlExpr} (hab : C.Alike w a b) {s t : Stage} (hst : StageAlike (C.Alike w) s t) :
    StageAlike (C.Alike w) (addLimit a s) (addLimit b t) :=
  hst.addLimit ((C.congruence w).call_two _) hab

theorem steps_limitRows (h : C.Agree p p') (input count : Expr) :
    C.Steps w (limitRows p input count) (limitRows p' input count) C.SameNode := by
  refine steps_aliasedRows h _ fun hnode => ?_
  refine C.bind (steps_openStage hnode) fun hu hlast => ?_
  obtain ⟨rfl, hlast⟩ := hlast
  refine C.bind (h.value count _) fun hv hcount => ?_
  refine C.bind (C.steps_modifyStage (C.owned_later hv hlast) fun hx hst =>
    alike_addLimit (C.later hx hcount) hst) fun hx _ => ?_
  exact C.pure fun _ hy => ⟨rfl, C.ownedNode_later (C.trans hu (C.trans hv (C.trans hx hy))) hnode⟩

theorem steps_distinctRows (h : C.Agree p p') (input : Expr) (var : String) :
    C.Steps w (distinctRows p input var) (distinctRows p' input var) C.SameNode := by
  refine steps_aliasedRows h _ fun hnode => ?_
  refine C.bind (steps_openStage hnode) fun hu hlast => ?_
  obtain ⟨rfl, hlast⟩ := hlast
  refine C.bind (C.steps_getStage _ _) @fun _ s t hv hclosed => ?_
  rw [hclosed.compatible, hclosed.outputNames]
  split
  · refine C.bind (C.steps_modifyStage (C.owned_later hv hlast) fun _ hst =>
      { hst with distinct := rfl }) fun hx _ => ?_
    exact C.pure fun _ hy => ⟨rfl, C.ownedNode_later (C.trans hu (C.trans hv (C.trans hx hy))) hnode⟩
  · refine C.bind (steps_wrap (C.ownedNode_later (C.trans hu hv) hnode) var) fun hx hwrapper => ?_
    obtain ⟨rfl, hwrapper⟩ := hwrapper
    refine C.bind (C.steps_modifyStage hwrapper fun _ hst =>
      { hst.expose _ _ with distinct := rfl }) fun hy _ => ?_
    exact C.pure fun _ hz =>
      ⟨rfl, C.ownedNode_later (C.trans hu (C.trans hv (C.trans hx (C.trans hy hz)))) hnode⟩

theorem steps_callRows (h : C.Agree p p') (f : FunctionRef) (args : List Expr) (t : DataType) (var : String) :
    C.Steps w (callRows p f args t var) (callRows p' f args t var) C.SameNode := by
  refine C.bind (Comparison.steps_callValue f t (h.compiles args)) fun _ hcall => ?_
  exact steps_pushSource (.function hcall) var

/-! ## Rows by their columns -/

/-- Select lists that are alike, column by column. -/
def ColumnsAlike (C : TreeComparison) (w : C.World) : List Column → List Column → Prop :=
  List.Forall₂ (ColumnAlike (C.Alike w))

theorem ColumnsAlike.later {u : C.World} {as bs : List Column} (h : C.ColumnsAlike u as bs) (hw : C.Le u w) :
    C.ColumnsAlike w as bs :=
  List.Forall₂.imp (fun _ _ => .mono fun _ _ => C.later hw) h

theorem alike_columnsOf (members : List Member) {as bs : List SqlExpr} (h : C.AlikeAll w as bs) :
    C.ColumnsAlike w (columnsOf members as) (columnsOf members bs) := by
  induction h generalizing members with
  | nil => cases members <;> exact .nil
  | cons hab _ ih =>
    cases members with
    | nil => exact .nil
    | cons m members => exact .cons ⟨hab, rfl, rfl⟩ (ih members)

theorem alike_columnValues (args : List Expr) {as bs : List SqlExpr} (h : C.AlikeAll w as bs) :
    C.AlikeAll w (args.zipWith columnValue as) (args.zipWith columnValue bs) := by
  induction h generalizing args with
  | nil => cases args <;> exact .nil
  | cons hab _ ih =>
    cases args with
    | nil => exact .nil
    | cons arg args =>
      refine .cons ?_ (ih args)
      unfold columnValue
      split
      · exact (C.congruence w).cast hab _
      · exact hab

theorem steps_rowColumns (h : C.Agree p p') (row : Expr) :
    C.Steps w (rowColumns p row) (rowColumns p' row) C.ColumnsAlike := by
  unfold rowColumns
  split
  · split
    · exact C.fail _
    · rename_i members _
      split
      · refine C.bind (Comparison.steps_valuesOf (h.compiles _)) fun _ has => ?_
        exact C.pure fun _ hu => alike_columnsOf members (alike_columnValues _ (Comparison.AlikeAll.later has hu))
      · exact C.fail _
  · exact C.fail _

theorem steps_projectRows (h : C.Agree p p') (input : Binding) (row : Expr) (var : String) :
    C.Steps w (projectRows p input row var) (projectRows p' input row var) C.SameNode := by
  have hattach {w : C.World} {stage : StageId} (hstage : C.Owned w stage) {as bs : List Column}
      (has : C.ColumnsAlike w as bs) : C.Steps w
      (do
        modifyStage stage fun s => { s with projection := some as }
        pushNode { first := ⟨var, stage⟩ })
      (do
        modifyStage stage fun s => { s with projection := some bs }
        pushNode { first := ⟨var, stage⟩ }) C.SameNode := by
    refine C.bind (C.steps_modifyStage hstage fun hu hst =>
      { hst with projection := .some (has.later hu) }) fun hu _ => C.steps_pushNode fun s hs => ?_
    rw [List.mem_singleton.mp hs]
    exact C.owned_later hu hstage
  refine C.bind (h.rows _ _ w) fun _ hchild => ?_
  obtain ⟨rfl, hchild⟩ := hchild
  refine C.bind (steps_openStage hchild) fun hu hlast => ?_
  obtain ⟨rfl, hlast⟩ := hlast
  refine C.bind (C.steps_getStage _ _) @fun _ s t hv hst => ?_
  rw [hst.compatible]
  split
  · refine C.bind (C.steps_inScope _ (steps_rowColumns h row)) fun hx hcolumns => ?_
    exact hattach (C.owned_later (C.trans hv hx) hlast) hcolumns
  · refine C.bind (steps_rowColumns h row) fun hx hcolumns => ?_
    refine C.bind (steps_wrap (C.ownedNode_later (C.trans hu (C.trans hv hx)) hchild) var) fun hy hwrapper => ?_
    obtain ⟨rfl, hwrapper⟩ := hwrapper
    exact hattach hwrapper (hcolumns.later hy)

/-! ## Constant rows -/

theorem steps_constantColumns (h : C.Agree p p') (arg : Expr) :
    C.Steps w (constantColumns p arg) (constantColumns p' arg) C.ColumnsAlike := by
  unfold constantColumns
  split
  · exact steps_rowColumns h _
  · refine C.bind (h.value _ w) fun _ hx => ?_
    exact C.pure fun _ hu => .cons ⟨C.later hu hx, rfl, rfl⟩ .nil

theorem alike_selectList {as bs : List Column} (h : C.ColumnsAlike w as bs) :
    C.Alike w (.list (as.map fun c => .column c.expr c.name c.type))
      (.list (bs.map fun c => .column c.expr c.name c.type)) := by
  refine (C.congruence w).list (List.forall₂_map_left_iff.mpr (List.forall₂_map_right_iff.mpr ?_))
  refine List.Forall₂.imp (fun a b hab => ?_) h
  rw [hab.name, hab.type]
  exact (C.congruence w).column hab.expr _ _

theorem steps_constantSelects (h : C.Agree p p') (args : List Expr) :
    C.Steps w (constantSelects p args) (constantSelects p' args) fun u => List.Forall₂ (C.AlikeAll u) := by
  induction args generalizing w with
  | nil => exact C.pure fun _ _ => .nil
  | cons arg args ih =>
    refine C.bind (steps_constantColumns h arg) fun _ hcolumns => ?_
    refine C.bind ih fun hu hrest => C.pure fun v hv => ?_
    have hlist := alike_selectList (hcolumns.later (C.trans hu hv))
    exact .cons (.cons ((C.congruence v).verbatim (by decide)) (.cons hlist .nil))
      (List.Forall₂.imp (fun _ _ has => Comparison.AlikeAll.later has hv) hrest)

theorem alike_intercalate {sep : List SqlExpr} (hsep : C.AlikeAll w sep sep) {as bs : List (List SqlExpr)}
    (h : List.Forall₂ (C.AlikeAll w) as bs) : C.AlikeAll w (sep.intercalate as) (sep.intercalate bs) := by
  unfold List.intercalate
  induction h with
  | nil => exact .nil
  | cons hab hrest ih =>
    cases hrest with
    | nil => simpa using hab
    | cons _ _ =>
      simp only [List.intersperse_cons_cons, List.flatten_cons] at ih ⊢
      exact List.rel_append hab (List.rel_append hsep ih)

theorem verbatim_of_emptyRows {t : DataType} {rows : SqlExpr} (h : emptyRows t = .ok rows) :
    ∃ text, OwnText text ∧ rows = .verbatim text := by
  unfold emptyRows at h
  split at h
  · cases h
  · rename_i element _
    cases htype : castTarget element with
    | error e =>
      rw [htype] at h
      cases h
    | ok type =>
      rw [htype] at h
      cases h
      exact ⟨_, ownText_of_head (c := '(') (by simp) (by decide), rfl⟩

theorem steps_emptyRows (t : DataType) :
    C.Steps w (liftM (emptyRows t)) (liftM (emptyRows t)) C.Alike := by
  cases hrows : emptyRows t with
  | error e => exact C.fail e
  | ok rows =>
    obtain ⟨text, htext, rfl⟩ := verbatim_of_emptyRows hrows
    exact C.pure fun u _ => (C.congruence u).verbatim htext

theorem steps_constantRows (h : C.Agree p p') (t : DataType) (args : List Expr) (var : String) :
    C.Steps w (constantRows p t args var) (constantRows p' t args var) C.SameNode := by
  unfold constantRows
  split
  · refine steps_aliasedRows h _ fun hnode => ?_
    refine C.bind (steps_openStage hnode) fun hu hlast => ?_
    obtain ⟨rfl, hlast⟩ := hlast
    refine C.bind (C.steps_modifyStage hlast fun _ hst =>
      alike_addLimit ((C.congruence _).int (by decide)) hst) fun hv _ => ?_
    exact C.pure fun _ hx => ⟨rfl, C.ownedNode_later (C.trans hu (C.trans hv hx)) hnode⟩
  · exact C.bind (steps_emptyRows t) fun _ hrows => steps_pushSource (.rows hrows) var
  · refine C.bind (steps_constantSelects h _) @fun u _ _ _ hselects => ?_
    have hverbatim {text : String} (h : OwnText text) : C.AlikeAll u [.verbatim text] [.verbatim text] :=
      .cons ((C.congruence u).verbatim h) .nil
    have hunion : OwnText " UNION ALL " := by decide
    have hparts := alike_intercalate (hverbatim hunion) hselects
    exact steps_pushSource (.rows ((C.congruence u).seq
      (List.rel_append (List.rel_append (hverbatim (by decide)) hparts) (hverbatim (by decide))))) var

/-! ## Set operations -/

theorem steps_pullMembers (stage : StageId) (source : String) (members : List Member) :
    C.Steps w (exposeMembers.pullMembers stage source members) (exposeMembers.pullMembers stage source members)
      fun _ _ _ => True := by
  induction members generalizing w with
  | nil => exact C.pure fun _ _ => trivial
  | cons m members ih => exact C.bind (C.steps_pullColumn _ _ _ _) fun _ _ => ih

theorem steps_exposeMembers (stage : StageId) (t : DataType) :
    C.Steps w (exposeMembers stage t) (exposeMembers stage t) fun _ _ _ => True := by
  refine C.bind (C.steps_getStage _ _) @fun _ s s' _ hst => ?_
  have hprojection : s.projection.isSome = s'.projection.isSome := by
    rw [← Option.not_isNone, ← Option.not_isNone, isNone_congr hst.projection]
  have hfrom := hst.from_
  rw [hprojection, hst.pulled]
  generalize s.from_ = a, s'.from_ = b at hfrom
  split
  · exact C.pure fun _ _ => trivial
  · cases hfrom with
    | none => exact C.pure fun _ _ => trivial
    | some hfrom =>
      cases hfrom with
      | join _ _ _ _ => exact C.pure fun _ _ => trivial
      | item hitem =>
        cases t.elementOrSelf.members? with
        | none => exact C.pure fun _ _ => trivial
        | some members =>
          simp only [hitem.name]
          exact steps_pullMembers _ _ _

theorem steps_operandStages (h : C.Agree p p') (var : String) (place : Nat) (es : List Expr) :
    C.Steps w (operandStages p var place es) (operandStages p' var place es) fun _ a b => a = b := by
  induction es generalizing w place with
  | nil => exact C.pure fun _ _ => rfl
  | cons e es ih =>
    refine C.bind (h.rows _ _ w) fun _ hnode => ?_
    obtain ⟨rfl, hnode⟩ := hnode
    refine C.bind (steps_openStage hnode) fun _ hlast => ?_
    obtain ⟨rfl, -⟩ := hlast
    refine C.bind (steps_exposeMembers _ _) fun _ _ => ?_
    refine C.bind (ih _) fun _ hrest => ?_
    subst hrest
    exact Comparison.steps_same _

theorem steps_setOpRows (h : C.Agree p p') (kind : SetOpKind) (l r : Expr) (var : String) :
    C.Steps w (setOpRows p kind l r var) (setOpRows p' kind l r var) C.SameNode := by
  refine C.bind (steps_operandStages h var 0 _) fun _ hstages => ?_
  subst hstages
  exact steps_pushSource (.setOp _ _) var

/-! ## Groups -/

theorem steps_aggregateValues (h : C.Agree p p') (aggregates : List Aggregate) :
    C.Steps w (aggregateValues p aggregates) (aggregateValues p' aggregates) C.AlikeAll := by
  induction aggregates generalizing w with
  | nil => exact C.pure fun _ _ => .nil
  | cons a as ih =>
    refine C.bind (Comparison.steps_aggregateValue (h.compiles _)) fun _ ha => ?_
    refine C.bind ih fun hu has => ?_
    exact C.pure fun _ hv => .cons (C.later (C.trans hu hv) ha) (Comparison.AlikeAll.later has hv)

theorem alike_groupKeys (keys : List Expr) {as bs : List SqlExpr} (h : C.AlikeAll w as bs) :
    C.AlikeAll w (groupKeys keys as) (groupKeys keys bs) := by
  unfold groupKeys
  induction h generalizing keys with
  | nil => cases keys <;> exact .nil
  | cons hab _ ih =>
    cases keys with
    | nil => exact .nil
    | cons key keys =>
      simp only [List.zip_cons_cons, List.filter_cons]
      split
      · exact .cons hab (ih keys)
      · exact ih keys

theorem steps_groupRows (h : C.Agree p p') (input : GroupBinding) (keys : List Expr) (aggregates : List Aggregate)
    (t : DataType) (var : String) :
    C.Steps w (groupRows p input keys aggregates t var) (groupRows p' input keys aggregates t var) C.SameNode := by
  refine steps_openRows h _ _ .groupBy var fun hnode hstage => ?_
  refine C.bind (C.steps_bindVar _ hnode) fun hv _ => ?_
  split
  · exact C.fail _
  · rename_i members _
    split
    · have hvalues (w : C.World) : C.Steps w
          (do
            let keyValues ← valuesOf p.value keys
            return (keyValues, ← aggregateValues p aggregates))
          (do
            let keyValues ← valuesOf p'.value keys
            return (keyValues, ← aggregateValues p' aggregates))
          fun u a b => C.AlikeAll u a.1 b.1 ∧ C.AlikeAll u a.2 b.2 := by
        refine C.bind (Comparison.steps_valuesOf (h.compiles _)) fun _ hkeys => ?_
        refine C.bind (steps_aggregateValues h _) fun hx has => ?_
        exact C.pure fun _ hy =>
          ⟨Comparison.AlikeAll.later hkeys (C.trans hx hy), Comparison.AlikeAll.later has hy⟩
      refine C.bind (C.steps_inScope _ (hvalues _)) fun hx hboth => ?_
      refine C.bind (C.steps_modifyStage (C.owned_later (C.trans hv hx) hstage) fun hy hst => ?_) fun hy _ => ?_
      · have hkeys := Comparison.AlikeAll.later hboth.1 hy
        have hall := List.rel_append hkeys (Comparison.AlikeAll.later hboth.2 hy)
        exact { hst with
          projection := .some (alike_columnsOf members hall), groupBy := .some (alike_groupKeys keys hkeys) }
      · exact C.pure fun _ hz =>
          ⟨rfl, C.ownedNode_later (C.trans hv (C.trans hx (C.trans hy hz))) hnode⟩
    · exact C.fail _

/-! ## Joins -/

theorem steps_joinSide (h : C.Agree p p') {node : NodeId} (e : Expr) (var : String) :
    C.Steps w (joinSide p node e var) (joinSide p' node e var) fun u => ItemAlike (C.Alike u) := by
  refine C.bind (h.rows _ _ w) fun _ hchild => ?_
  obtain ⟨rfl, hchild⟩ := hchild
  refine C.bind (C.steps_modifyNode hchild fun _ hn => hn) fun hu _ => ?_
  refine C.bind (steps_openStage (C.ownedNode_later hu hchild)) fun _ hlast => ?_
  obtain ⟨rfl, -⟩ := hlast
  exact C.pure fun _ _ => ⟨.stage _, rfl, rfl⟩

theorem steps_joined (h : C.Agree p p') (stage : StageId) {l l' r r' : FromTree} (hl : FromAlike (C.Alike w) l l')
    (kind : JoinKind) (hr : FromAlike (C.Alike w) r r') (condition : Option Expr) :
    C.Steps w (joined p stage l kind r condition) (joined p' stage l' kind r' condition)
      fun u => FromAlike (C.Alike u) := by
  cases condition with
  | none => exact C.pure fun _ hu => (FromAlike.join hl kind hr .none).mono fun _ _ => C.later hu
  | some c =>
    refine C.bind (C.steps_inScope stage (h.value c _)) fun hu hc => C.pure fun _ hv => ?_
    exact .join (hl.mono fun _ _ => C.later (C.trans hu hv)) kind
      (hr.mono fun _ _ => C.later (C.trans hu hv)) (.some (C.later hv hc))

theorem steps_joinTree (h : C.Agree p p') {node : NodeId} {stage : StageId} (e : Expr) (var : String) :
    C.Steps w (joinTree p node stage e var) (joinTree p' node stage e var) fun u => FromAlike (C.Alike u) := by
  fun_induction joinTree p node stage e var generalizing w with
  | case1 var kind l lv r rv condition ihl ihr =>
    simp only [joinTree]
    refine C.bind ihl fun _ hleft => ?_
    -- The right side of an apply is one item, which stays a subquery.
    by_cases hk : kind.isApply = true
    · simp only [hk, if_true]
      refine C.bind (C.steps_inScope stage (steps_joinSide h r rv)) fun hu hitem => ?_
      exact steps_joined h stage (hleft.mono fun _ _ => C.later hu) kind (.item hitem.forced) condition
    · rw [if_neg hk, if_neg hk]
      refine C.bind ihr fun hu hright => ?_
      exact steps_joined h stage (hleft.mono fun _ _ => C.later hu) kind hright condition
  | case2 var e hne =>
    simp only [joinTree]
    refine C.bind (steps_joinSide h e var) fun _ hitem => C.pure fun _ hu => ?_
    exact (FromAlike.item hitem).mono fun _ _ => C.later hu

theorem steps_joinRows (h : C.Agree p p') (e : Expr) (var : String) :
    C.Steps w (joinRows p e var) (joinRows p' e var) C.SameNode := by
  refine C.bind (C.steps_pushStage stageAlike_empty) fun _ hstage => ?_
  obtain ⟨rfl, hstage⟩ := hstage
  refine C.bind (C.steps_pushNode fun s hs => ?_) fun hu hnode => ?_
  · rw [List.mem_singleton.mp hs]
    exact hstage
  obtain ⟨rfl, hnode⟩ := hnode
  refine C.bind (steps_joinTree h e var) fun hv hfrom => ?_
  refine C.bind (C.steps_modifyStage (C.owned_later (C.trans hu hv) hstage) fun hx hst =>
    { hst with from_ := .some (hfrom.mono fun _ _ => C.later hx) }) fun hx _ => ?_
  exact C.pure fun _ hy => ⟨rfl, C.ownedNode_later (C.trans hv (C.trans hx hy)) hnode⟩

/-! ## All relational expressions -/

theorem steps_nodeStep (h : C.Agree p p') (e : Expr) (var : String) :
    C.Steps w (nodeStep p e var) (nodeStep p' e var) C.SameNode := by
  cases e with
  | scan set => exact steps_pushSource (.table _) var
  | filter input predicate => exact steps_filterRows h input predicate var
  | project input row => exact steps_projectRows h input row var
  | sort input keys => exact steps_sortRows h input keys var
  | skip input keys count => exact steps_skipRows h input keys count var
  | limit input count => exact steps_limitRows h input count
  | distinct input => exact steps_distinctRows h input var
  | groupBy input keys aggregates t => exact steps_groupRows h input keys aggregates t var
  | join kind l r c => exact steps_joinRows h _ var
  | setOp kind l r => exact steps_setOpRows h kind l r var
  | newInstance t args => exact steps_constantRows h t args var
  | call f args t => exact steps_callRows h f args t var
  | _ => exact C.fail _

theorem steps_rowsStep (h : C.Agree p p') (e : Expr) (var : String) :
    C.Steps w (rowsStep p e var) (rowsStep p' e var) C.SameNode := by
  refine C.bind (steps_nodeStep h e var) fun _ hnode => ?_
  obtain ⟨rfl, hnode⟩ := hnode
  refine C.bind (C.steps_bindVar var hnode) fun hu _ => ?_
  exact C.pure fun _ hv => ⟨rfl, C.ownedNode_later (C.trans hu hv) hnode⟩

variable (C) in
/-- Constants are written alike in both. -/
def AgreeOnConstants : Prop := ∀ (w : C.World) (v : Value), C.Steps w (constantValue v) (constantValue v) C.Alike

/-- Then both compile the same expressions alike, down to any number of levels. -/
theorem agree_partsTo (hconstants : C.AgreeOnConstants) (n : Nat) : C.Agree (partsTo n) (partsTo n) := by
  induction n with
  | zero => exact ⟨fun _ _ => C.fail _, fun _ _ _ => C.fail _⟩
  | succ n ih =>
    exact ⟨fun e w => steps_valueStep ih e fun v _ => hconstants w v, fun e var _ => steps_rowsStep ih e var⟩

theorem steps_value (hconstants : C.AgreeOnConstants) (e : Expr) (w : C.World) :
    C.Steps w (value e) (value e) C.Alike := (agree_partsTo hconstants _).value e w

theorem steps_rows (hconstants : C.AgreeOnConstants) (e : Expr) (var : String) (w : C.World) :
    C.Steps w (rows e var) (rows e var) C.SameNode := (agree_partsTo hconstants _).rows e var w

/-! ## Statements -/

variable (C) in
/-- Statements that are alike, with the same result columns. -/
def SameResult (u : C.World) (a b : Statement × List Member) : Prop :=
  StatementAlike (C.Alike u) a.1 b.1 ∧ a.2 = b.2

theorem steps_queryStatement (h : C.Agree p p') (query : Expr) :
    C.Steps w (queryStatement p query) (queryStatement p' query) C.SameResult := by
  unfold queryStatement
  split
  · refine C.bind (C.steps_nextAlias w) fun _ hlabel => ?_
    subst hlabel
    refine C.bind (h.rows _ _ _) fun _ hnode => ?_
    obtain ⟨rfl, hnode⟩ := hnode
    refine C.bind (steps_openStage hnode) fun _ hlast => ?_
    obtain ⟨rfl, -⟩ := hlast
    refine C.bind (C.steps_getStage _ _) fun _ hst => C.pure fun _ _ => ?_
    exact ⟨.select _, hst.resultColumns⟩
  · exact C.fail _

theorem steps_assignmentValues (h : C.Agree p p') (as : List Assignment) :
    C.Steps w (assignmentValues p as) (assignmentValues p' as)
      fun u => List.Forall₂ (AssignmentAlike (C.Alike u)) := by
  induction as generalizing w with
  | nil => exact C.pure fun _ _ => .nil
  | cons a as ih =>
    refine C.bind (h.value _ w) fun _ hcolumn => ?_
    refine C.bind (h.value _ _) fun hu hvalue => ?_
    refine C.bind ih fun hv hrest => C.pure fun _ hx => ?_
    exact .cons ⟨C.later (C.trans hu (C.trans hv hx)) hcolumn, C.later (C.trans hv hx) hvalue⟩
      (List.Forall₂.imp (fun _ _ hab => ⟨C.later hx hab.1, C.later hx hab.2⟩) hrest)

theorem steps_predicateValue (h : C.Agree p p') (predicate : Option Expr) :
    C.Steps w (predicateValue p predicate) (predicateValue p' predicate) fun u => Option.Rel (C.Alike u) := by
  cases predicate with
  | none => exact C.pure fun _ _ => .none
  | some e =>
    refine C.bind (h.value e w) fun _ hx => ?_
    exact C.pure fun _ hu => .some (C.later hu hx)

theorem steps_returnedValues (h : C.Agree p p') (row : Option Expr) :
    C.Steps w (returnedValues p row) (returnedValues p' row)
      fun u a b => Option.Rel (C.AlikeAll u) a.1 b.1 ∧ a.2 = b.2 := by
  unfold returnedValues
  split
  · exact C.pure fun _ _ => ⟨.none, rfl⟩
  · split
    · exact C.fail _
    · split
      · refine C.bind (Comparison.steps_valuesOf (h.compiles _)) fun _ has => ?_
        exact C.pure fun _ hu => ⟨.some (Comparison.AlikeAll.later has hu), rfl⟩
      · exact C.fail _
  · exact C.fail _

theorem alike_assignments {u : C.World} {as bs : List (SqlExpr × SqlExpr)}
    (h : List.Forall₂ (AssignmentAlike (C.Alike u)) as bs) (hw : C.Le u w) :
    List.Forall₂ (AssignmentAlike (C.Alike w)) as bs :=
  List.Forall₂.imp (fun _ _ hab => ⟨C.later hw hab.1, C.later hw hab.2⟩) h

theorem alike_returned {u : C.World} {a b : Option (List SqlExpr)} (h : Option.Rel (C.AlikeAll u) a b)
    (hw : C.Le u w) : Option.Rel (C.AlikeAll w) a b :=
  rel_mono (fun _ _ hab => Comparison.AlikeAll.later hab hw) h

theorem steps_insertStatement (h : C.Agree p p') (c : Insert) :
    C.Steps w (insertStatement p c) (insertStatement p' c) C.SameResult := by
  refine C.bind (Comparison.steps_lift _) fun _ htable => ?_
  subst htable
  refine C.bind (steps_assignmentValues h _) fun _ has => ?_
  refine C.bind (steps_returnedValues h _) fun hu hr => C.pure fun _ hv => ?_
  exact ⟨.insert _ (alike_assignments has (C.trans hu hv)) (alike_returned hr.1 hv), hr.2⟩

theorem steps_updateStatement (h : C.Agree p p') (c : Update) :
    C.Steps w (updateStatement p c) (updateStatement p' c) C.SameResult := by
  unfold updateStatement
  split
  · exact C.fail _
  · refine C.bind (Comparison.steps_lift _) fun _ htable => ?_
    subst htable
    refine C.bind (steps_assignmentValues h _) fun _ has => ?_
    refine C.bind (steps_predicateValue h _) fun hu hc => ?_
    refine C.bind (steps_returnedValues h _) fun hv hr => C.pure fun _ hx => ?_
    exact ⟨.update _ (alike_assignments has (C.trans hu (C.trans hv hx)))
      (rel_mono (fun _ _ => C.later (C.trans hv hx)) hc) (alike_returned hr.1 hx), hr.2⟩

theorem steps_deleteStatement (h : C.Agree p p') (c : Delete) :
    C.Steps w (deleteStatement p c) (deleteStatement p' c) C.SameResult := by
  refine C.bind (Comparison.steps_lift _) fun _ htable => ?_
  subst htable
  refine C.bind (steps_predicateValue h _) fun _ hc => C.pure fun _ hu => ?_
  exact ⟨.delete _ (rel_mono (fun _ _ => C.later hu) hc), rfl⟩

theorem steps_statement (h : C.Agree p p') (body : CommandBody) :
    C.Steps w (statement p body) (statement p' body) C.SameResult := by
  cases body with
  | query e => exact steps_queryStatement h e
  | insert c => exact steps_insertStatement h c
  | update c => exact steps_updateStatement h c
  | delete c => exact steps_deleteStatement h c

end TreeComparison

end TreeSql.Compile
