import TreeSql.Compile.Tree
import TreeSql.Proofs.Passing.Values
import TreeSql.Proofs.References.Joins

/-
  TreeSql.Proofs.Passing.Relations — rows are compiled through transparent states.

  One lemma for each function of `Compile.Clause` and `Compile.Relation`. Clauses leave the source of a stage as it
  is, so attaching them succeeds (`Succeeds`). What is written to the columns of a stage otherwise goes by the alias
  of its source: a stage put around a node has its open stage as source, and is next on the route of the node.
  A stage with a select list, and the stage of a join, take columns under all aliases, so a second name for them
  does not matter. Expressions of any depth follow by induction on the levels (`preservesParts_partsTo`).
-/
namespace TreeSql.Compile

open Sql

variable {α β : Type} {c : Context} {s t : State} {R : β → State → Prop} {p : Parts} {node : NodeId} {stage : StageId}

/-! ## Steps on stages and nodes -/

theorem preserves_pushStage {g : Stage} (hg : PassesOn g) :
    Preserves c s (pushStage g) fun id t => id = s.stages.length ∧ t = { s with stages := s.stages ++ [g] } :=
  preserves_step (.pushStage g) trivial (gives_pushStage.mpr ⟨rfl, rfl⟩) (fun hs => hs.pushStage hg) ⟨rfl, rfl⟩

theorem preserves_modifyStage (hid : stage < s.stages.length) {f : Stage → Stage}
    (hf : Succeeds (s.stages.get stage) (f (s.stages.get stage))) :
    Preserves c s (modifyStage stage f) fun _ t => t.stages.get stage = f (s.stages.get stage) := by
  refine preserves_step (.modifyStage stage f) hid (gives_modifyStage.mpr ⟨rfl, rfl⟩) (fun hs => hs.modifyStage hf) ?_
  rw [Stages.get_modify, if_pos ⟨rfl, hid⟩]

/-- A clause is attached to a stage of a node, which is given. -/
theorem preserves_attach (hnode : node < s.nodes.length) (hid : stage < s.stages.length) {f : Stage → Stage}
    (hf : Succeeds (s.stages.get stage) (f (s.stages.get stage))) :
    Preserves c s (modifyStage stage f >>= fun _ => pure node) fun node t => node < t.nodes.length :=
  preserves_bind (preserves_modifyStage hid hf) fun _ _ ht _ => preserves_pure (ht.node_lt hnode)

theorem preserves_modifyNode (hnode : node < s.nodes.length) {f : Node → Node}
    (hf : ∀ n, s.nodes[node]? = some n → (f n).first = n.first ∧ Routed s (f n)) :
    Preserves c s (modifyNode node f) fun _ t => t = { s with nodes := s.nodes.modify node f } :=
  preserves_step (.modifyNode node f) hnode (gives_modifyNode.mpr ⟨rfl, rfl⟩) (fun hs => hs.modifyNode hf) rfl

/-- A node of one stage, which takes columns under the name of the node. -/
theorem preserves_pushNode {name : String} (hid : stage < s.stages.length) (h : Takes name (s.stages.get stage)) :
    Preserves c s (pushNode { first := ⟨name, stage⟩ }) fun node t =>
      node = s.nodes.length ∧ t = { s with nodes := s.nodes ++ [{ first := ⟨name, stage⟩ }] } :=
  preserves_step (.pushNode _) trivial (gives_pushNode.mpr ⟨rfl, rfl⟩)
    (fun hs => hs.pushNode ⟨⟨⟨hid, h⟩, trivial⟩, by simp⟩) ⟨rfl, rfl⟩

theorem preserves_bindVar (var : String) (hnode : node < s.nodes.length) :
    Preserves c s (bindVar var node) fun _ _ => True :=
  preserves_step (.bindVar var node) trivial (gives_bindVar.mpr ⟨rfl, rfl⟩) (fun hs => hs.bindVar var hnode) trivial

theorem preserves_newNode {name : String} (hid : stage < s.stages.length) (h : Takes name (s.stages.get stage)) :
    Preserves c s (pushNode { first := ⟨name, stage⟩ }) fun node t => node < t.nodes.length := by
  refine preserves_mono (preserves_pushNode hid h) fun node t _ hnode => ?_
  obtain ⟨rfl, rfl⟩ := hnode
  simp

theorem preserves_pushSource (source : Source) (name : String) :
    Preserves c s (pushSource source name) fun node t => node < t.nodes.length := by
  refine preserves_bind (preserves_pushStage (passesOn_ofSource source name)) fun id t _ hid => ?_
  obtain ⟨rfl, rfl⟩ := hid
  refine preserves_newNode (by simp) ?_
  rw [Stages.get_append, if_pos rfl]
  exact takes_ofSource source name

/-! ## Stages around a node -/

/-- The stage around a node has the open stage as its source. -/
theorem preserves_wrap (hnode : node < s.nodes.length) (label : String) :
    Preserves c s (wrap node label) fun id t =>
      id < t.stages.length ∧ ∀ n, s.nodes[node]? = some n → Takes n.last.name (t.stages.get id) := by
  refine preserves_of_transparent fun hs => ?_
  refine preserves_bind (preserves_openStage hnode) fun last _ _ hlast => ?_
  obtain ⟨rfl, -, n, hn, rfl⟩ := hlast
  refine preserves_bind (preserves_pushStage (passesOn_ofSource _ _)) fun id t ht hid => ?_
  obtain ⟨rfl, rfl⟩ := hid
  let wrapper : Stage := .ofSource (.stage n.last.stage) n.last.name
  have htakes : Takes n.last.name (Stages.get (s.stages ++ [wrapper]) s.stages.length) := by
    rw [Stages.get_append, if_pos rfl]
    exact takes_ofSource _ _
  have hwrapped (m : Node) (hm : s.nodes[node]? = some m) :
      Routed { s with stages := s.stages ++ [wrapper] } { m with wrappers := m.wrappers ++ [⟨label, s.stages.length⟩] } := by
    obtain rfl : n = m := Option.some.inj (hn.symm.trans hm)
    have hroute := (hs.routed hn).onward hs ht
    exact ⟨⟨hroute.chained.1, hroute.chained.2.concat (by simp) htakes⟩, hroute.parent⟩
  refine preserves_bind (preserves_modifyNode (by exact hnode) fun m hm => ⟨rfl, hwrapped m hm⟩) fun _ u _ hu => ?_
  obtain rfl := hu
  refine preserves_pure ⟨by simp, fun m hm => ?_⟩
  obtain rfl : n = m := Option.some.inj (hn.symm.trans hm)
  exact htakes

theorem preserves_openFor (hnode : node < s.nodes.length) (clause : Clause) (label : String) :
    Preserves c s (openFor clause node label) fun id t => id < t.stages.length := by
  refine preserves_bind (preserves_openStage hnode) fun last _ _ hlast => ?_
  obtain ⟨rfl, hlast, -⟩ := hlast
  refine preserves_bind (preserves_getStage hlast) fun g _ _ hg => ?_
  obtain ⟨rfl, -⟩ := hg
  split
  · exact preserves_pure hlast
  · exact preserves_mono (preserves_wrap hnode label) fun _ _ _ hid => hid.1

section

variable (hp : PreservesParts p)

include hp

/-- Rows, the stage that takes a clause, and what is done with both. -/
theorem preserves_openRows (e : Expr) (v : String) (clause : Clause) (label : String)
    {f : NodeId → StageId → CompileM β}
    (hf : ∀ node stage t, node < t.nodes.length → stage < t.stages.length → Preserves c t (f node stage) R) :
    Preserves c s (p.rows e v >>= fun node => openFor clause node label >>= f node) R := by
  refine preserves_bind (hp.rows e v c s) fun node t _ hnode => ?_
  exact preserves_bind (preserves_openFor hnode clause label) fun stage u hu hstage =>
    hf node stage u (hu.node_lt hnode) hstage

/-! ## Filters, order and limits -/

theorem preserves_filterRows (input : Binding) (predicate : Expr) (var : String) :
    Preserves c s (filterRows p input predicate var) fun node t => node < t.nodes.length := by
  refine preserves_openRows hp _ _ .filter var fun node stage t hnode hstage => ?_
  refine preserves_bind (preserves_inScope (hp.value predicate _ t)) fun condition u hu _ => ?_
  exact preserves_attach (hu.node_lt hnode) (hu.stage_lt hstage) (succeeds_clause rfl rfl rfl)

theorem preserves_orderItems (keys : List SortKey) : Preserves c s (orderItems p keys) fun _ _ => True := by
  induction keys generalizing s with
  | nil => exact preserves_pure trivial
  | cons key keys ih =>
    refine preserves_bind (hp.value key.expr c s) fun _ t _ _ => ?_
    exact preserves_bind ih fun _ _ _ _ => preserves_pure trivial

theorem preserves_orderBy (hstage : stage < s.stages.length) (keys : List SortKey) :
    Preserves c s (orderBy p stage keys) fun _ _ => True := by
  refine preserves_bind (preserves_inScope (preserves_orderItems hp keys)) fun items t ht _ => ?_
  exact preserves_mono (preserves_modifyStage (ht.stage_lt hstage) (succeeds_clause rfl rfl rfl)) fun _ _ _ _ => trivial

theorem preserves_sortRows (input : Binding) (keys : List SortKey) (var : String) :
    Preserves c s (sortRows p input keys var) fun node t => node < t.nodes.length := by
  refine preserves_openRows hp _ _ .sort var fun node stage t hnode hstage => ?_
  exact preserves_bind (preserves_orderBy hp hstage keys) fun _ u hu _ => preserves_pure (hu.node_lt hnode)

theorem preserves_skipRows (input : Binding) (keys : List SortKey) (count : Expr) (var : String) :
    Preserves c s (skipRows p input keys count var) fun node t => node < t.nodes.length := by
  refine preserves_openRows hp _ _ .skip var fun node stage t hnode hstage => ?_
  refine preserves_bind (preserves_orderBy hp hstage keys) fun _ u hu _ => ?_
  refine preserves_bind (hp.value count c u) fun count v hv _ => ?_
  have hkept := hu.trans hv
  exact preserves_attach (hkept.node_lt hnode) (hkept.stage_lt hstage) (succeeds_clause rfl rfl rfl)

theorem preserves_limitRows (input count : Expr) :
    Preserves c s (limitRows p input count) fun node t => node < t.nodes.length := by
  refine preserves_aliasedRows hp input fun node t hnode => ?_
  refine preserves_bind (preserves_openStage hnode) fun last _ _ hlast => ?_
  obtain ⟨rfl, hlast, -⟩ := hlast
  refine preserves_bind (hp.value count c t) fun count u hu _ => ?_
  exact preserves_attach (hu.node_lt hnode) (hu.stage_lt hlast) (succeeds_clause rfl rfl rfl)

/-- The columns of the input are exposed under the alias of the stage that they come from. -/
theorem preserves_distinctRows (input : Expr) (var : String) :
    Preserves c s (distinctRows p input var) fun node t => node < t.nodes.length := by
  refine preserves_aliasedRows hp input fun node t hnode => ?_
  refine preserves_bind (preserves_openStage hnode) fun last _ _ hlast => ?_
  obtain ⟨rfl, hlast, n, hn, rfl⟩ := hlast
  refine preserves_bind (preserves_getStage hlast) fun closed _ _ hclosed => ?_
  obtain ⟨rfl, -⟩ := hclosed
  split
  · exact preserves_attach hnode hlast (succeeds_clause rfl rfl rfl)
  · refine preserves_bind (preserves_wrap hnode var) fun wrapper u hu hwrapper => ?_
    exact preserves_attach (hu.node_lt hnode) hwrapper.1 (succeeds_expose (hwrapper.2 n hn) closed.outputNames)

theorem preserves_callRows (f : FunctionRef) (args : List Expr) (t : DataType) (var : String) :
    Preserves c s (callRows p f args t var) fun node t => node < t.nodes.length := by
  have hcall : Preserves c s (callValue p.value f args t) fun _ _ => True :=
    preserves_of_steps (Comparison.steps_callValue f t (hp.compiles args))
  exact preserves_bind hcall fun _ _ _ _ => preserves_pushSource _ var

/-! ## Rows by their columns -/

theorem preserves_rowColumns (row : Expr) : Preserves c s (rowColumns p row) fun _ _ => True := by
  unfold rowColumns
  split
  · split
    · exact preserves_fail _
    · split
      · exact preserves_bind (preserves_valuesOf hp _) fun _ _ _ _ => preserves_pure trivial
      · exact preserves_fail _
  · exact preserves_fail _

omit hp in
/-- A stage gets a select list, and a node of its own under a name that may be another one than that of its source. -/
theorem preserves_projected (hid : stage < s.stages.length) (columns : List Column) (var : String) :
    Preserves c s
      (do
        modifyStage stage fun s => { s with projection := some columns }
        pushNode { first := ⟨var, stage⟩ }) fun node t => node < t.nodes.length := by
  have hlist {g : Stage} (item : FromItem) : ¬Exposes { g with projection := some columns } item :=
    not_exposes_projected rfl item
  refine preserves_bind (preserves_modifyStage hid (succeeds_of_not_exposes hlist)) fun _ t ht hstage => ?_
  refine preserves_newNode (ht.stage_lt hid) ?_
  rw [hstage]
  exact takes_of_not_exposes hlist

theorem preserves_projectRows (input : Binding) (row : Expr) (var : String) :
    Preserves c s (projectRows p input row var) fun node t => node < t.nodes.length := by
  refine preserves_bind (hp.rows _ _ c s) fun child t _ hchild => ?_
  refine preserves_bind (preserves_openStage hchild) fun last _ _ hlast => ?_
  obtain ⟨rfl, hlast, -⟩ := hlast
  refine preserves_bind (preserves_getStage hlast) fun g _ _ hg => ?_
  obtain ⟨rfl, -⟩ := hg
  split
  · refine preserves_bind (preserves_inScope (preserves_rowColumns hp row)) fun columns u hu _ => ?_
    exact preserves_projected (hu.stage_lt hlast) columns var
  · refine preserves_bind (preserves_rowColumns hp row) fun columns u hu _ => ?_
    refine preserves_bind (preserves_wrap (hu.node_lt hchild) var) fun wrapper v _ hwrapper => ?_
    exact preserves_projected hwrapper.1 columns var

/-! ## Constant rows -/

theorem preserves_constantColumns (e : Expr) : Preserves c s (constantColumns p e) fun _ _ => True := by
  unfold constantColumns
  split
  · exact preserves_rowColumns hp _
  · exact preserves_bind (hp.value e c s) fun _ _ _ _ => preserves_pure trivial

theorem preserves_constantSelects (es : List Expr) : Preserves c s (constantSelects p es) fun _ _ => True := by
  induction es generalizing s with
  | nil => exact preserves_pure trivial
  | cons e es ih =>
    refine preserves_bind (preserves_constantColumns hp e) fun _ t _ _ => ?_
    exact preserves_bind ih fun _ _ _ _ => preserves_pure trivial

theorem preserves_constantRows (type : DataType) (args : List Expr) (var : String) :
    Preserves c s (constantRows p type args var) fun node t => node < t.nodes.length := by
  unfold constantRows
  split
  · refine preserves_aliasedRows hp _ fun node t hnode => ?_
    refine preserves_bind (preserves_openStage hnode) fun last _ _ hlast => ?_
    obtain ⟨rfl, hlast, -⟩ := hlast
    exact preserves_attach hnode hlast (succeeds_clause rfl rfl rfl)
  · exact preserves_lift_bind fun rows => preserves_pushSource _ var
  · exact preserves_bind (preserves_constantSelects hp args) fun _ _ _ _ => preserves_pushSource _ var

/-! ## Set operations -/

omit hp in
theorem preserves_pullMembers {source : String} (hid : stage < s.stages.length)
    (htakes : Takes source (s.stages.get stage)) (members : List Member) :
    Preserves c s (exposeMembers.pullMembers stage source members) fun _ _ => True := by
  induction members generalizing s with
  | nil => exact preserves_pure trivial
  | cons m members ih =>
    refine preserves_bind (preserves_pullColumn hid htakes m.name) fun _ t ht _ => ?_
    exact ih (ht.stage_lt hid) (ht.takes _ hid _ htakes)

omit hp in
/-- The members of an operand are pulled under the alias of its only source. -/
theorem preserves_exposeMembers (hid : stage < s.stages.length) (type : DataType) :
    Preserves c s (exposeMembers stage type) fun _ _ => True := by
  refine preserves_bind (preserves_getStage hid) fun g _ _ hg => ?_
  obtain ⟨rfl, rfl⟩ := hg
  split
  · exact preserves_pure trivial
  · split
    · rename_i item _ hfrom _
      refine preserves_pullMembers hid (fun item' hitem => ?_) _
      cases hfrom.symm.trans hitem.1
      rfl
    · exact preserves_pure trivial

theorem preserves_operandStages (var : String) (place : Nat) (es : List Expr) :
    Preserves c s (operandStages p var place es) fun _ _ => True := by
  induction es generalizing s place with
  | nil => exact preserves_pure trivial
  | cons e es ih =>
    refine preserves_bind (hp.rows e _ c s) fun node t _ hnode => ?_
    refine preserves_bind (preserves_openStage hnode) fun last _ _ hlast => ?_
    obtain ⟨rfl, hlast, -⟩ := hlast
    refine preserves_bind (preserves_exposeMembers hlast _) fun _ u _ _ => ?_
    exact preserves_bind (ih (place + 1)) fun _ _ _ _ => preserves_pure trivial

theorem preserves_setOpRows (kind : SetOpKind) (l r : Expr) (var : String) :
    Preserves c s (setOpRows p kind l r var) fun node t => node < t.nodes.length :=
  preserves_bind (preserves_operandStages hp var 0 _) fun _ _ _ _ => preserves_pushSource _ var

/-! ## Groups -/

theorem preserves_aggregateValues (aggregates : List Aggregate) :
    Preserves c s (aggregateValues p aggregates) fun _ _ => True := by
  induction aggregates generalizing s with
  | nil => exact preserves_pure trivial
  | cons a aggregates ih =>
    have hvalue : Preserves c s (aggregateValue p.value a) fun _ _ => True :=
      preserves_of_steps (Comparison.steps_aggregateValue (hp.compiles a.args))
    refine preserves_bind hvalue fun _ t _ _ => ?_
    exact preserves_bind ih fun _ _ _ _ => preserves_pure trivial

theorem preserves_groupRows (input : GroupBinding) (keys : List Expr) (aggregates : List Aggregate) (type : DataType)
    (var : String) :
    Preserves c s (groupRows p input keys aggregates type var) fun node t => node < t.nodes.length := by
  refine preserves_openRows hp _ _ .groupBy var fun node stage t hnode hstage => ?_
  refine preserves_bind (preserves_bindVar input.groupVar hnode) fun _ u hu _ => ?_
  split
  · exact preserves_fail _
  · split
    · have hvalues (c : Context) : Preserves c u
          (do
            let keyValues ← valuesOf p.value keys
            return (keyValues, ← aggregateValues p aggregates)) fun _ _ => True := by
        refine preserves_bind (preserves_valuesOf hp keys) fun _ _ _ _ => ?_
        exact preserves_bind (preserves_aggregateValues hp aggregates) fun _ _ _ _ => preserves_pure trivial
      refine preserves_bind (preserves_inScope (hvalues _)) fun values v hv _ => ?_
      have hkept := hu.trans hv
      refine preserves_attach (hkept.node_lt hnode) (hkept.stage_lt hstage) ?_
      exact succeeds_of_not_exposes (not_exposes_projected rfl)
    · exact preserves_fail _

/-! ## Joins -/

/-- The side of a join whose stage takes columns of all sources. -/
theorem preserves_joinSide (hnode : TakesAll s node) (e : Expr) (var : String) :
    Preserves c s (joinSide p node e var) fun _ _ => True := by
  refine preserves_of_transparent fun hs => ?_
  refine preserves_bind (hp.rows e var c s) fun child t ht hchild => ?_
  refine preserves_of_transparent fun htransparent => ?_
  have hjoined (n : Node) (hn : t.nodes[child]? = some n) : Routed t { n with joinParent := some node } := by
    refine ⟨(htransparent.routed hn).chained, fun parent hparent => ?_⟩
    exact Option.some.inj hparent ▸ hnode.onward hs ht
  refine preserves_bind (preserves_modifyNode hchild fun n hn => ⟨rfl, hjoined n hn⟩) fun _ u hu _ => ?_
  exact preserves_bind (preserves_openStage (hu.node_lt hchild)) fun _ _ _ _ => preserves_pure trivial

theorem preserves_joined (left : FromTree) (kind : JoinKind) (right : FromTree) (condition : Option Expr) :
    Preserves c s (joined p stage left kind right condition) fun _ _ => True := by
  unfold joined
  split
  · exact preserves_bind (preserves_inScope (hp.value _ _ s)) fun _ _ _ _ => preserves_pure trivial
  · exact preserves_pure trivial

theorem preserves_joinTree (hnode : TakesAll s node) (e : Expr) (var : String) :
    Preserves c s (joinTree p node stage e var) fun _ _ => True := by
  induction e, var using joinTree.induct generalizing s with
  | case1 var kind l lv r rv condition ihl ihr =>
    refine preserves_of_transparent fun hs => ?_
    rw [joinTree]
    refine preserves_bind (ihl hnode) fun left t ht _ => ?_
    have hnode' := hnode.onward hs ht
    split
    · refine preserves_bind (preserves_inScope (preserves_joinSide hp hnode' r rv)) fun item u _ _ => ?_
      exact preserves_joined hp _ _ _ _
    · exact preserves_bind (ihr hnode') fun right u _ _ => preserves_joined hp _ _ _ _
  | case2 var e hjoin =>
    rw [joinTree]
    · exact preserves_bind (preserves_joinSide hp hnode e var) fun _ _ _ _ => preserves_pure trivial
    · exact hjoin

/-- The stage of a join has no source while the sides are built, and several ones afterwards. -/
theorem preserves_joinRows (kind : JoinKind) (l r : Binding) (condition : Option Expr) (var : String) :
    Preserves c s (joinRows p (.join kind l r condition) var) fun node t => node < t.nodes.length := by
  have hempty (item : FromItem) : ¬Exposes {} item := fun h => nomatch h.1
  refine preserves_bind (preserves_pushStage fun item hitem => (hempty item hitem).elim) fun stage t _ hstage => ?_
  obtain ⟨rfl, rfl⟩ := hstage
  have hget : (s.stages ++ [({} : Stage)]).get s.stages.length = {} := by
    rw [Stages.get_append, if_pos rfl]
  have htakes (qualifier : String) : Takes qualifier ((s.stages ++ [({} : Stage)]).get s.stages.length) := by
    rw [hget]
    exact takes_of_not_exposes hempty
  refine preserves_bind (preserves_pushNode (by simp) (htakes var)) fun node t _ hnode => ?_
  obtain ⟨rfl, rfl⟩ := hnode
  have hall : TakesAll { s with
      stages := s.stages ++ [{}]
      nodes := s.nodes ++ [{ first := ⟨var, s.stages.length⟩ }] } s.nodes.length :=
    ⟨{ first := ⟨var, s.stages.length⟩ }, by simp, htakes⟩
  refine preserves_bind (preserves_gives (preserves_joinTree hp hall _ var)) fun from_ u hu hfrom => ?_
  refine preserves_attach (hu.node_lt (by simp)) (hu.stage_lt (by simp)) (succeeds_of_not_exposes fun item hitem => ?_)
  exact joinTree_ne_item hfrom.1 item (Option.some.inj hitem.1)

/-! ## All relational expressions -/

theorem preserves_nodeStep (e : Expr) (var : String) :
    Preserves c s (nodeStep p e var) fun node t => node < t.nodes.length := by
  cases e with
  | scan set => exact preserves_pushSource _ var
  | filter input predicate => exact preserves_filterRows hp input predicate var
  | project input row => exact preserves_projectRows hp input row var
  | sort input keys => exact preserves_sortRows hp input keys var
  | skip input keys count => exact preserves_skipRows hp input keys count var
  | limit input count => exact preserves_limitRows hp input count
  | distinct input => exact preserves_distinctRows hp input var
  | groupBy input keys aggregates type => exact preserves_groupRows hp input keys aggregates type var
  | join kind l r condition => exact preserves_joinRows hp kind l r condition var
  | setOp kind l r => exact preserves_setOpRows hp kind l r var
  | newInstance type args => exact preserves_constantRows hp type args var
  | call f args type => exact preserves_callRows hp f args type var
  | _ => exact preserves_fail _

theorem preserves_rowsStep (e : Expr) (var : String) :
    Preserves c s (rowsStep p e var) fun node t => node < t.nodes.length := by
  refine preserves_bind (preserves_nodeStep hp e var) fun node t _ hnode => ?_
  exact preserves_bind (preserves_bindVar var hnode) fun _ u hu _ => preserves_pure (hu.node_lt hnode)

end

/-! ## Expressions of any depth -/

theorem preservesParts_partsTo (n : Nat) : PreservesParts (partsTo n) := by
  induction n with
  | zero => exact ⟨fun _ _ _ => preserves_fail _, fun _ _ _ _ => preserves_fail _⟩
  | succ n ih => exact ⟨fun e _ _ => preserves_valueStep ih e, fun e var _ _ => preserves_rowsStep ih e var⟩

theorem preserves_value (e : Expr) : Preserves c s (value e) fun _ _ => True := (preservesParts_partsTo _).value e c s

theorem preserves_rows (e : Expr) (var : String) : Preserves c s (rows e var) fun node t => node < t.nodes.length :=
  (preservesParts_partsTo _).rows e var c s

end TreeSql.Compile
