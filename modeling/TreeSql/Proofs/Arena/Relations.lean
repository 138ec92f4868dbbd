import TreeSql.Compile.Tree
import TreeSql.Proofs.Arena.Values
import TreeSql.Proofs.Compile.Gathered

/-
  TreeSql.Proofs.Arena.Relations — rows are compiled through well-formed states.

  One lemma for each function of `Compile.Clause` and `Compile.Relation`. Each function first builds a node on
  its own, then the values of a clause, and then attaches the clause to a stage of the node
  (`builds_attach`). A join makes its own stage before its sides, and gives it a FROM clause when these are
  built. Expressions of any depth follow by induction on the levels (`builds_partsTo`).
-/
namespace TreeSql.Compile

open Sql

variable {L : String → Prop} {test : Expr → Bool} {b s t u : State} {c : Context} {α β : Type} {p : Parts}
  {e l r : Expr}
  {es : List Expr} {node : NodeId} {stage : StageId} {var : String}

theorem AddedNode.mono (h : AddedNode s t node) (hlength : t.nodes.length ≤ u.nodes.length) : AddedNode s u node :=
  ⟨h.1, Nat.lt_of_lt_of_le h.2 hlength⟩

/-! ## Stages around a node -/

/-- The state with a stage around a node. -/
def enclosed (s : State) (node : NodeId) (label : String) (stage : Stage) : State :=
  { s with
    stages := s.stages ++ [stage]
    nodes := s.nodes.modify node fun n => { n with wrappers := n.wrappers ++ [⟨label, s.stages.length⟩] } }

theorem larger_enclosed (s : State) (node : NodeId) (label : String) (stage : Stage) :
    Larger s (enclosed s node label stage) := ⟨by simp [enclosed], by simp [enclosed]⟩

theorem modify_enclosed (s : State) (node : NodeId) (label : String) (stage : Stage) (f : Stage → Stage) :
    { enclosed s node label stage with stages := (enclosed s node label stage).stages.modify s.stages.length f } =
      enclosed s node label (f stage) := by
  have hstages : (s.stages ++ [stage]).modify s.stages.length f = s.stages ++ [f stage] := by
    simp [List.modify_eq_take_drop]
  simp only [enclosed, hstages]

theorem Standing.enclosed (h : Standing L b s) (hnode : AddedNode b s node) (label : String) {stage : Stage}
    (hstage : stage.Fits L (Added b s)) : Standing L b (enclosed s node label stage) := by
  refine (h.pushStage hstage).modifyNode hnode.1 (fun n hn => ?_) fun _ h => h
  have hnew : ∀ a ∈ n.wrappers ++ [⟨label, s.stages.length⟩],
      Added b { s with stages := s.stages ++ [stage] } a.stage := by
    refine List.forall_mem_append.mpr ⟨fun a ha => hn a (.tail _ ha), ?_⟩
    simpa [Added] using h.length
  exact List.forall_mem_cons.mpr ⟨hn _ (.head _), hnew⟩

theorem proceeds_wrap (hb : Here L c b) (h : Standing L b s) (hnode : AddedNode b s node) (label : String) :
    Proceeds c s (wrap node label) fun id t => id = s.stages.length ∧
      ∃ stage : Stage, stage.Fits L (Added b s) ∧ t = enclosed s node label stage := by
  refine along_bind (proceeds_openStage hb h hnode) fun last _ hlast => ?_
  obtain ⟨rfl, hlast⟩ := hlast
  have hsource : (Source.stage last.stage).Fits L (Added b s) := hlast
  have hstage := Stage.fits_ofSource hsource last.name
  refine proceeds_step_bind (.pushStage _) hb h trivial (gives_pushStage.mpr ⟨rfl, rfl⟩) (h.pushStage hstage) ?_
  refine proceeds_step_bind (.modifyNode node _) hb (h.pushStage hstage) hnode.2 (gives_modifyNode.mpr ⟨rfl, rfl⟩)
    (h.enclosed hnode label hstage) ?_
  exact along_pure ⟨rfl, _, hstage, rfl⟩

theorem proceeds_openFor (hb : Here L c b) (h : Standing L b s) (hnode : AddedNode b s node) (clause : Clause)
    (label : String) :
    Proceeds c s (openFor clause node label) fun id t => Standing L b t ∧ Larger s t ∧ Added b t id := by
  refine along_bind (proceeds_openStage hb h hnode) fun last _ hlast => ?_
  obtain ⟨rfl, hlast⟩ := hlast
  refine proceeds_getStage_bind (hb.later h) hlast.2 ?_
  split
  · exact along_pure ⟨h, .refl s, hlast⟩
  · refine along_mono (proceeds_wrap hb h hnode label) fun id t hid => ?_
    obtain ⟨rfl, stage, hstage, rfl⟩ := hid
    exact ⟨h.enclosed hnode label hstage, larger_enclosed s node label stage, h.length, by simp [enclosed]⟩

/-- Rows, the stage that takes a clause, and what is done with both. -/
theorem proceeds_openRows (hp : BuildsParts L test p) (hs : Here L c s) (he : e.everyNode test = true) (v : String)
    (clause : Clause) (label : String) {f : NodeId → StageId → CompileM β} {post : β → State → Prop}
    (hf : ∀ node stage t, Standing L s t → AddedNode s t node → Added s t stage → Proceeds c t (f node stage) post) :
    Proceeds c s (p.rows e v >>= fun node => openFor clause node label >>= f node) post := by
  refine along_bind (hp.rows e v he hs) fun node t ht => ?_
  refine along_bind (proceeds_openFor hs ht.1 ht.2 clause label) fun stage u hu => ?_
  exact hf node stage u hu.1 (ht.2.mono hu.2.1.2) hu.2.2

/-! ## Attaching -/

/-- A clause is attached to a stage that was there before all stages the clause refers to. -/
theorem proceeds_attach (hs : Here L c s) (ht : Standing L s t) (hu : Standing L t u) (hstage : Added s t stage)
    {f : Stage → Stage}
    (hf : ∀ (stage : Stage) (I : StageId → Prop), (∀ j, Added t u j → I j) → stage.Fits L I → (f stage).Fits L I) :
    Proceeds c u (modifyStage stage f) fun _ v => Standing L s v ∧ Larger t v := by
  have hv := ht.attach hu hstage hf
  have hbound := Nat.lt_of_lt_of_le hstage.2 hu.length
  refine along_mono (proceeds_step (.modifyStage stage f) hs (ht.trans hu) hbound
    (gives_modifyStage.mpr ⟨rfl, rfl⟩) hv) fun _ _ hsame => ?_
  obtain ⟨-, rfl⟩ := hsame
  exact ⟨hv, by simpa using hu.length, hu.nodes.length_le⟩

/-- A clause is attached to a stage of a node, which is given. -/
theorem builds_attach (hs : Here L c s) (ht : Standing L s t) (hu : Standing L t u) (hnode : AddedNode s t node)
    (hstage : Added s t stage) {f : Stage → Stage}
    (hf : ∀ (stage : Stage) (I : StageId → Prop), (∀ j, Added t u j → I j) → stage.Fits L I → (f stage).Fits L I) :
    Proceeds c u (modifyStage stage f >>= fun _ => pure node) fun node v => Standing L s v ∧ AddedNode s v node :=
  along_bind (proceeds_attach hs ht hu hstage hf) fun _ _ hv => along_pure ⟨hv.1, hnode.mono hv.2.2⟩

/-! ## Sources -/

/-- A node of one stage that was added. -/
theorem Standing.pushSingle (h : Standing L b s) (hstage : Added b s stage) (label : String) :
    Standing L b { s with nodes := s.nodes ++ [{ first := ⟨label, stage⟩ }] } := by
  have hselects : ∀ a ∈ ({ first := ⟨label, stage⟩ } : Node).selects, Added b s a.stage :=
    by simpa [Node.selects] using hstage
  exact h.pushNode hselects (by simp)

theorem proceeds_pushNode (hb : Here L c b) (h : Standing L b s) (hstage : Added b s stage) (label : String) :
    Proceeds c s (pushNode { first := ⟨label, stage⟩ }) fun node t => Standing L b t ∧ AddedNode b t node := by
  have hnode := h.pushSingle hstage label
  refine along_mono (proceeds_step (.pushNode _) hb h trivial (gives_pushNode.mpr ⟨rfl, rfl⟩) hnode)
    fun _ _ hsame => ?_
  obtain ⟨rfl, rfl⟩ := hsame
  exact ⟨hnode, h.nodes.length_le, by simp⟩

theorem builds_pushSource (hb : Here L c b) (h : Standing L b s) {source : Source}
    (hsource : source.Fits L (Added b s))
    (name : String) : Proceeds c s (pushSource source name) fun node t => Standing L b t ∧ AddedNode b t node := by
  have hstage := h.pushStage (Stage.fits_ofSource hsource name)
  refine proceeds_step_bind (.pushStage _) hb h trivial (gives_pushStage.mpr ⟨rfl, rfl⟩) hstage ?_
  exact proceeds_pushNode hb hstage ⟨h.length, by simp⟩ name

theorem builds_callRows (hp : BuildsParts L test p) (hL : Permits L test) (hs : Here L c s)
    (h : ∀ e ∈ es, e.everyNode test = true) (f : FunctionRef) (t : DataType) (var : String) :
    BuildsNode L c s (callRows p f es t var) := by
  have hcall := buildsValue_of_steps hs (Comparison.steps_callValue f t (hp.compiles hL s.stages.length h))
  refine proceeds_value_bind hcall fun x u hu hx => ?_
  have hsource : (Source.function x).Fits L (Added s u) := hx
  exact builds_pushSource hs hu hsource var

/-! ## Filters, order and limits -/

theorem builds_filterRows (hp : BuildsParts L test p) (hs : Here L c s) {input : Binding}
    (hinput : input.expr.everyNode test = true) (he : e.everyNode test = true) (var : String) :
    BuildsNode L c s (filterRows p input e var) := by
  refine proceeds_openRows hp hs hinput _ .filter var fun node stage t ht hnode hstage => ?_
  have hscope := (hs.later ht).inScope hstage.2
  refine proceeds_value_bind (along_inScope (hp.value e he hscope)) fun x u hu hx => ?_
  exact builds_attach hs ht hu hnode hstage fun _ I hI hfits => hfits.addCondition (hx.mono hI)

theorem proceeds_orderItems (hp : BuildsParts L test p) (hs : Here L c s) {keys : List SortKey}
    (h : ∀ k ∈ keys, k.expr.everyNode test = true) :
    Proceeds c s (orderItems p keys) fun items t => Standing L s t ∧ ∀ i ∈ items, i.expr.Fits L (Added s t) := by
  induction keys generalizing s with
  | nil => exact along_pure ⟨.refl L s, by simp⟩
  | cons k keys ih =>
    rw [List.forall_mem_cons] at h
    refine proceeds_value_bind (hp.value _ h.1 hs) fun x t ht hx => ?_
    refine along_bind (ih (hs.later ht) h.2) fun items u hu => along_pure ⟨ht.trans hu.1, ?_⟩
    refine List.forall_mem_cons.mpr ⟨hx.mono fun _ => Standing.added_first hu.1.toKept, fun i hi => ?_⟩
    exact (hu.2 i hi).mono fun _ => Standing.added_second ht.toKept

theorem proceeds_orderBy (hp : BuildsParts L test p) (hs : Here L c s) (ht : Standing L s t)
    (hstage : Added s t stage)
    {keys : List SortKey} (h : ∀ k ∈ keys, k.expr.everyNode test = true) :
    Proceeds c t (orderBy p stage keys) fun _ v => Standing L s v ∧ Larger t v := by
  have hscope := (hs.later ht).inScope hstage.2
  refine along_bind (along_inScope (proceeds_orderItems hp hscope h)) fun items u hu => ?_
  refine proceeds_attach hs ht hu.1 hstage fun _ I hI hfits => { hfits with orderBy := fun _ hs i hi => ?_ }
  obtain rfl := Option.some.inj hs
  exact (hu.2 i hi).mono hI

theorem builds_sortRows (hp : BuildsParts L test p) (hs : Here L c s) {input : Binding} {keys : List SortKey}
    (hinput : input.expr.everyNode test = true) (hkeys : ∀ k ∈ keys, k.expr.everyNode test = true) (var : String) :
    BuildsNode L c s (sortRows p input keys var) := by
  refine proceeds_openRows hp hs hinput _ .sort var fun node stage t ht hnode hstage => ?_
  refine along_bind (proceeds_orderBy hp hs ht hstage hkeys) fun _ u hu => ?_
  exact along_pure ⟨hu.1, hnode.mono hu.2.2⟩

theorem builds_skipRows (hp : BuildsParts L test p) (hs : Here L c s) {input : Binding} {keys : List SortKey}
    (hinput : input.expr.everyNode test = true) (hkeys : ∀ k ∈ keys, k.expr.everyNode test = true)
    (he : e.everyNode test = true) (var : String) : BuildsNode L c s (skipRows p input keys e var) := by
  refine proceeds_openRows hp hs hinput _ .skip var fun node stage t ht hnode hstage => ?_
  refine along_bind (proceeds_orderBy hp hs ht hstage hkeys) fun _ u hu => ?_
  refine proceeds_value_bind (hp.value e he (hs.later hu.1)) fun x v hv hx => ?_
  refine builds_attach hs hu.1 hv (hnode.mono hu.2.2) (hstage.mono hu.2.1) fun _ I hI hfits => ?_
  exact { hfits with skip := fun _ h => Option.some.inj h ▸ hx.mono hI }

theorem builds_limitRows (hp : BuildsParts L test p) (hs : Here L c s) (hl : l.everyNode test = true)
    (he : e.everyNode test = true) : BuildsNode L c s (limitRows p l e) := by
  refine proceeds_aliasedRows hp hs hl fun node t ht hnode => ?_
  refine along_bind (proceeds_openStage hs ht hnode) fun last _ hlast => ?_
  obtain ⟨rfl, hlast⟩ := hlast
  refine proceeds_value_bind (hp.value e he (hs.later ht)) fun x u hu hx => ?_
  exact builds_attach hs ht hu hnode hlast fun _ I hI hfits => hfits.addLimit (hx.mono hI)

theorem builds_distinctRows (hp : BuildsParts L test p) (hs : Here L c s) (he : e.everyNode test = true)
    (var : String) :
    BuildsNode L c s (distinctRows p e var) := by
  have hdistinct {stage : Stage} {I : StageId → Prop} (h : stage.Fits L I) :
      ({ stage with distinct := true } : Stage).Fits L I :=
    { h with }
  refine proceeds_aliasedRows hp hs he fun node t ht hnode => ?_
  refine along_bind (proceeds_openStage hs ht hnode) fun last _ hlast => ?_
  obtain ⟨rfl, hlast⟩ := hlast
  refine proceeds_getStage_bind (hs.later ht) hlast.2 ?_
  split
  · exact builds_attach hs ht (.refl L t) hnode hlast fun _ _ _ hfits => hdistinct hfits
  · refine along_bind (proceeds_wrap hs ht hnode var) fun wrapper u hu => ?_
    obtain ⟨rfl, stage, hstage, rfl⟩ := hu
    have hlarger := larger_enclosed t node var stage
    have hnew : Added s (enclosed t node var stage) t.stages.length := ⟨ht.length, by simp [enclosed]⟩
    refine builds_attach hs (ht.enclosed hnode var hstage) (.refl L _)
      (hnode.mono hlarger.2) hnew fun _ _ _ hfits => ?_
    exact hdistinct (hfits.expose _ _)

/-! ## Rows by their columns -/

theorem fits_columnsOf {I : StageId → Prop} (members : List Member) {values : List SqlExpr}
    (h : ∀ v ∈ values, v.Fits L I) :
    ∀ col ∈ columnsOf members values, col.expr.Fits L I :=
  fun col hcol => h col.expr (expr_mem_of_mem_columnsOf hcol)

theorem proceeds_rowColumns (hp : BuildsParts L test p) (hL : Permits L test) (hs : Here L c s)
    (he : e.everyNode test = true) :
    Proceeds c s (rowColumns p e) fun columns t => Standing L s t ∧ ∀ col ∈ columns, col.expr.Fits L (Added s t) := by
  unfold rowColumns
  split
  · rename_i type args
    rw [Expr.everyNode, Bool.and_eq_true] at he
    split
    · exact along_fail _
    · split
      · refine along_bind (proceeds_valuesOf hp hL hs (Expr.everyNodeOfAll_iff.mp he.2)) fun values t ht => ?_
        refine along_pure ⟨ht.1, fits_columnsOf _ fun v hv => ?_⟩
        obtain ⟨x, hx, rfl | rfl⟩ := mem_columnValues hv
        · exact ht.2 _ hx
        · exact SqlExpr.fits_of_same (ht.2 x hx) rfl rfl
      · exact along_fail _
  · exact along_fail _

theorem builds_projectRows (hp : BuildsParts L test p) (hL : Permits L test) (hs : Here L c s) {input : Binding}
    (hinput : input.expr.everyNode test = true) (he : e.everyNode test = true) (var : String) :
    BuildsNode L c s (projectRows p input e var) := by
  refine along_bind (hp.rows _ _ hinput hs) fun child t hchild => ?_
  obtain ⟨ht, hchild⟩ := hchild
  refine along_bind (proceeds_openStage hs ht hchild) fun last _ hlast => ?_
  obtain ⟨rfl, hlast⟩ := hlast
  refine proceeds_getStage_bind (hs.later ht) hlast.2 ?_
  split
  · have hscope := (hs.later ht).inScope hlast.2
    refine along_bind (along_inScope (proceeds_rowColumns hp hL hscope he)) fun columns u hu => ?_
    have hcolumns (stage : Stage) (I : StageId → Prop) (hI : ∀ j, Added t u j → I j) (hfits : stage.Fits L I) :=
      hfits.project fun col hcol => (hu.2 col hcol).mono hI
    refine along_bind (proceeds_attach hs ht hu.1 hlast hcolumns) fun _ v hv => ?_
    exact proceeds_pushNode hs hv.1 (hlast.mono hv.2.1) var
  · refine along_bind (proceeds_rowColumns hp hL (hs.later ht) he) fun columns u hu => ?_
    have hstanding := ht.trans hu.1
    refine along_bind (proceeds_wrap hs hstanding (hchild.mono hu.1.nodes.length_le) var) fun wrapper v hv => ?_
    obtain ⟨rfl, stage, hstage, rfl⟩ := hv
    -- The columns were compiled before the stage that they are put on, so that this stage is as good as new.
    have hprojected := hstage.project fun col hcol => (hu.2 col hcol).mono fun _ => Standing.added_second ht.toKept
    have hchild' := hchild.mono hu.1.nodes.length_le
    have henclosed := hstanding.enclosed hchild' var hprojected
    have hmodify := modify_enclosed u child var stage fun stage => { stage with projection := some columns }
    refine proceeds_step_bind (.modifyStage u.stages.length _) hs (hstanding.enclosed hchild' var hstage)
      (by simp [Step.InRange, enclosed]) (gives_modifyStage.mpr ⟨rfl, hmodify.symm⟩) henclosed ?_
    exact proceeds_pushNode hs henclosed ⟨hstanding.length, by simp [enclosed]⟩ var

/-! ## Constant rows -/

theorem proceeds_constantColumns (hp : BuildsParts L test p) (hL : Permits L test) (hs : Here L c s)
    (he : e.everyNode test = true) :
    Proceeds c s (constantColumns p e) fun columns t =>
      Standing L s t ∧ ∀ col ∈ columns, col.expr.Fits L (Added s t) := by
  unfold constantColumns
  split
  · exact proceeds_rowColumns hp hL hs he
  · refine proceeds_value_bind (hp.value e he hs) fun x t ht hx => along_pure ⟨ht, ?_⟩
    simpa using hx

theorem proceeds_constantSelects (hp : BuildsParts L test p) (hL : Permits L test) (hs : Here L c s)
    (h : ∀ e ∈ es, e.everyNode test = true) :
    Proceeds c s (constantSelects p es) fun selects t =>
      Standing L s t ∧ ∀ parts ∈ selects, ∀ x ∈ parts, x.Fits L (Added s t) := by
  induction es generalizing s with
  | nil => exact along_pure ⟨.refl L s, by simp⟩
  | cons e es ih =>
    rw [List.forall_mem_cons] at h
    refine along_bind (proceeds_constantColumns hp hL hs h.1) fun columns t ht => ?_
    refine along_bind (ih (hs.later ht.1) h.2) fun selects u hu => along_pure ⟨ht.1.trans hu.1, ?_⟩
    have hlist : (SqlExpr.list (columns.map fun col => .column col.expr col.name col.type)).Fits L (Added s t) := by
      refine SqlExpr.fits_list fun x hx => ?_
      obtain ⟨col, hcol, rfl⟩ := List.mem_map.mp hx
      exact SqlExpr.fits_of_same (ht.2 col hcol) rfl rfl
    refine List.forall_mem_cons.mpr ⟨?_, fun parts hparts x hx => ?_⟩
    · refine List.forall_mem_cons.mpr ⟨SqlExpr.fits_verbatim (hL.unmarked (by decide)), ?_⟩
      exact List.forall_mem_singleton.mpr (hlist.mono fun _ => Standing.added_first hu.1.toKept)
    · exact (hu.2 parts hparts x hx).mono fun _ => Standing.added_second ht.1.toKept

theorem fits_constantRows {I : StageId → Prop} (hL : Permits L test) {selects : List (List SqlExpr)}
    (h : ∀ parts ∈ selects, ∀ x ∈ parts, x.Fits L I) :
    (SqlExpr.seq
      ([.verbatim "("] ++ [SqlExpr.verbatim " UNION ALL "].intercalate selects ++ [.verbatim ")"])).Fits L I := by
  have hverbatim {text : String} (htext : Unmarked text) : ∀ x ∈ [SqlExpr.verbatim text], x.Fits L I :=
    List.forall_mem_singleton.mpr (SqlExpr.fits_verbatim (hL.unmarked htext))
  have hunion : Unmarked " UNION ALL " := by decide
  refine SqlExpr.fits_seq (List.forall_mem_append.mpr ⟨List.forall_mem_append.mpr
    ⟨hverbatim (by decide), fun x hx => ?_⟩,
    hverbatim (by decide)⟩)
  rcases mem_intercalate hx with hx | ⟨parts, hparts, hx⟩
  · exact hverbatim hunion x hx
  · exact h parts hparts x hx

theorem builds_constantRows (hp : BuildsParts L test p) (hL : Permits L test) (hs : Here L c s) (type : DataType)
    (h : ∀ e ∈ es, e.everyNode test = true) (var : String) : BuildsNode L c s (constantRows p type es var) := by
  unfold constantRows
  split
  · rename_i input
    have hinput : (Expr.element input).everyNode test = true := h _ (by simp)
    rw [Expr.everyNode, Bool.and_eq_true] at hinput
    refine proceeds_aliasedRows hp hs hinput.2 fun node t ht hnode => ?_
    refine along_bind (proceeds_openStage hs ht hnode) fun last _ hlast => ?_
    obtain ⟨rfl, hlast⟩ := hlast
    exact builds_attach hs ht (.refl L t) hnode hlast fun _ _ _ hfits => hfits.addLimit (SqlExpr.fits_bare rfl rfl)
  · refine along_lift_bind fun rows hrows => ?_
    obtain ⟨text, htext, rfl⟩ := TreeComparison.verbatim_of_emptyRows hrows
    have hsource : (Source.rows (.verbatim text)).Fits L (Added s s) := SqlExpr.fits_verbatim (hL.unmarked htext.1)
    exact builds_pushSource hs (.refl L s) hsource var
  · refine along_bind (proceeds_constantSelects hp hL hs h) fun selects t ht => ?_
    have hsource : (Source.rows _).Fits L (Added s t) := fits_constantRows hL ht.2
    exact builds_pushSource hs ht.1 hsource var

/-! ## Set operations -/

theorem proceeds_pullMembers (hs : Here L c s) (hstage : stage < s.stages.length) (label : String)
    (members : List Member) :
    Proceeds c s (exposeMembers.pullMembers stage label members) fun _ t => Standing L s t := by
  induction members generalizing s with
  | nil => exact along_pure (.refl L s)
  | cons m members ih =>
    refine along_bind (proceeds_pullColumn hs hstage _ _) fun _ t ht => ?_
    exact along_mono (ih (hs.later ht) (Nat.lt_of_lt_of_le hstage ht.length)) fun _ u hu => ht.trans hu

theorem proceeds_exposeMembers (hs : Here L c s) (hstage : stage < s.stages.length) (type : DataType) :
    Proceeds c s (exposeMembers stage type) fun _ t => Standing L s t := by
  refine proceeds_getStage_bind hs hstage ?_
  split
  · exact along_pure (.refl L s)
  · split
    · exact proceeds_pullMembers hs hstage _ _
    · exact along_pure (.refl L s)

theorem proceeds_operandStages (hp : BuildsParts L test p) (hs : Here L c s) (h : ∀ e ∈ es, e.everyNode test = true)
    (var : String) (place : Nat) :
    Proceeds c s (operandStages p var place es) fun ids t => Standing L s t ∧ ∀ id ∈ ids, Added s t id := by
  induction es generalizing s place with
  | nil => exact along_pure ⟨.refl L s, by simp⟩
  | cons e es ih =>
    rw [List.forall_mem_cons] at h
    refine along_bind (hp.rows e _ h.1 hs) fun node t hnode => ?_
    obtain ⟨ht, hnode⟩ := hnode
    refine along_bind (proceeds_openStage hs ht hnode) fun last _ hlast => ?_
    obtain ⟨rfl, hlast⟩ := hlast
    refine along_bind (proceeds_exposeMembers (hs.later ht) hlast.2 _) fun _ u hu => ?_
    refine along_bind (ih (hs.later (ht.trans hu)) h.2 (place + 1)) fun ids v hv => ?_
    refine along_pure ⟨(ht.trans hu).trans hv.1, List.forall_mem_cons.mpr ⟨?_, fun id hid => ?_⟩⟩
    · exact Standing.added_first hv.1.toKept (Standing.added_first hu.toKept hlast)
    · exact Standing.added_second (ht.trans hu).toKept (hv.2 id hid)

theorem builds_setOpRows (hp : BuildsParts L test p) (hs : Here L c s) (kind : SetOpKind)
    (hl : l.everyNode test = true)
    (hr : r.everyNode test = true) (var : String) : BuildsNode L c s (setOpRows p kind l r var) := by
  refine along_bind (proceeds_operandStages hp hs (everyNode_setOpOperands kind hl hr) var 0) fun ids t ht => ?_
  have hsource : (Source.setOp kind ids).Fits L (Added s t) := ht.2
  exact builds_pushSource hs ht.1 hsource var

/-! ## Groups -/

theorem proceeds_aggregateValues (hp : BuildsParts L test p) (hL : Permits L test) (hs : Here L c s)
    {aggregates : List Aggregate}
    (h : ∀ a ∈ aggregates, ∀ e ∈ a.args, e.everyNode test = true) :
    Proceeds c s (aggregateValues p aggregates) fun values t =>
      Standing L s t ∧ ∀ v ∈ values, v.Fits L (Added s t) := by
  induction aggregates generalizing s with
  | nil => exact along_pure ⟨.refl L s, by simp⟩
  | cons a aggregates ih =>
    rw [List.forall_mem_cons] at h
    have hvalue := buildsValue_of_steps hs (Comparison.steps_aggregateValue (hp.compiles hL s.stages.length h.1))
    refine proceeds_value_bind hvalue fun x t ht hx => ?_
    refine along_bind (ih (hs.later ht) h.2) fun values u hu => along_pure ⟨ht.trans hu.1, ?_⟩
    refine List.forall_mem_cons.mpr ⟨hx.mono fun _ => Standing.added_first hu.1.toKept, fun v hv => ?_⟩
    exact (hu.2 v hv).mono fun _ => Standing.added_second ht.toKept

/-- The keys and the aggregates of a grouping. -/
theorem proceeds_groupValues (hp : BuildsParts L test p) (hL : Permits L test) (hs : Here L c s)
    {aggregates : List Aggregate} (hkeys : ∀ e ∈ es, e.everyNode test = true)
    (haggregates : ∀ a ∈ aggregates, ∀ e ∈ a.args, e.everyNode test = true) :
    Proceeds c s
      (do
        let keyValues ← valuesOf p.value es
        return (keyValues, ← aggregateValues p aggregates))
      fun values t => Standing L s t ∧ (∀ v ∈ values.1, v.Fits L (Added s t)) ∧
        ∀ v ∈ values.2, v.Fits L (Added s t) := by
  refine along_bind (proceeds_valuesOf hp hL hs hkeys) fun keyValues t ht => ?_
  refine along_bind (proceeds_aggregateValues hp hL (hs.later ht.1) haggregates) fun values u hu => ?_
  refine along_pure ⟨ht.1.trans hu.1, fun v hv => ?_, fun v hv => ?_⟩
  · exact (ht.2 v hv).mono fun _ => Standing.added_first hu.1.toKept
  · exact (hu.2 v hv).mono fun _ => Standing.added_second ht.1.toKept

theorem builds_groupRows (hp : BuildsParts L test p) (hL : Permits L test) (hs : Here L c s) {input : GroupBinding}
    {aggregates : List Aggregate} (hinput : input.expr.everyNode test = true)
    (hkeys : ∀ e ∈ es, e.everyNode test = true)
    (haggregates : ∀ a ∈ aggregates, ∀ e ∈ a.args, e.everyNode test = true) (type : DataType) (var : String) :
    BuildsNode L c s (groupRows p input es aggregates type var) := by
  refine proceeds_openRows hp hs hinput _ .groupBy var fun node stage t ht hnode hstage => ?_
  have hbound := ht.bindVar input.groupVar hnode
  refine proceeds_step_bind (.bindVar _ _) hs ht trivial (gives_bindVar.mpr ⟨rfl, rfl⟩) hbound ?_
  split
  · exact along_fail _
  · split
    · have hscope := (hs.later hbound).inScope hstage.2
      refine along_bind (along_inScope (proceeds_groupValues hp hL hscope hkeys haggregates))
        fun values u hu => ?_
      obtain ⟨hu, hkeyValues, hvalues⟩ := hu
      refine builds_attach hs hbound hu hnode hstage fun _ I hI hfits => ?_
      refine { hfits with projection := fun _ h => ?_, groupBy := fun _ h v hv => ?_ }
      · obtain rfl := Option.some.inj h
        refine fits_columnsOf _ fun v hv => ?_
        exact (List.mem_append.mp hv).elim (fun hv => (hkeyValues v hv).mono hI) fun hv => (hvalues v hv).mono hI
      · obtain rfl := Option.some.inj h
        exact (hkeyValues v (mem_of_mem_groupKeys hv)).mono hI
    · exact along_fail _

/-! ## Joins -/

theorem proceeds_joinSide (hp : BuildsParts L test p) (hs : Here L c s) (hnode : node < s.nodes.length)
    (he : e.everyNode test = true) (var : String) :
    Proceeds c s (joinSide p node e var) fun item t => Standing L s t ∧ item.source.Fits L (Added s t) := by
  refine along_bind (hp.rows e var he hs) fun child t hchild => ?_
  obtain ⟨ht, hchild⟩ := hchild
  -- The join is older than its side.
  have hparent (n : Node) : ∀ parent ∈ ({ n with joinParent := some node } : Node).joinParent, parent < child := by
    simpa using Nat.lt_of_lt_of_le hnode hchild.1
  have hjoined := ht.modifyNode (f := fun n => { n with joinParent := some node }) hchild.1
      (fun _ hn => hn) fun n _ => hparent n
  refine proceeds_step_bind (.modifyNode child _) hs ht hchild.2 (gives_modifyNode.mpr ⟨rfl, rfl⟩) hjoined ?_
  have hsame : AddedNode s { t with nodes := t.nodes.modify child fun n =>
      { n with joinParent := some node } } child :=
    hchild.mono (by simp)
  refine along_bind (proceeds_openStage hs hjoined hsame) fun last _ hlast => ?_
  obtain ⟨rfl, hlast⟩ := hlast
  exact along_pure ⟨hjoined, hlast⟩

theorem proceeds_joined (hp : BuildsParts L test p) (hb : Here L c b) (h : Standing L b s)
    (hstage : stage < s.stages.length)
    {left right : FromTree} (kind : JoinKind) (hleft : left.Fits L (Added b s)) (hright : right.Fits L (Added b s))
    {condition : Option Expr} (hcondition : ∀ e ∈ condition, e.everyNode test = true) :
    Proceeds c s (joined p stage left kind right condition) fun f t => Standing L b t ∧ f.Fits L (Added b t) := by
  unfold joined
  split
  · have hscope := (hb.later h).inScope hstage
    refine proceeds_value_bind (along_inScope (hp.value _ (hcondition _ rfl) hscope)) fun x t ht hx => ?_
    refine along_pure ⟨h.trans ht, hleft.mono fun _ => Standing.added_first ht.toKept,
      hright.mono fun _ => Standing.added_first ht.toKept, fun y hy => ?_⟩
    obtain rfl := Option.some.inj hy
    exact hx.mono fun _ => Standing.added_second h.toKept
  · exact along_pure ⟨h, hleft, hright, by simp⟩

theorem proceeds_joinTree (hp : BuildsParts L test p) (hs : Here L c s) (hnode : node < s.nodes.length)
    (hstage : stage < s.stages.length) (he : e.everyNode test = true) (var : String) :
    Proceeds c s (joinTree p node stage e var) fun f t => Standing L s t ∧ f.Fits L (Added s t) := by
  induction e, var using joinTree.induct generalizing s with
  | case1 var kind l lv r rv condition ihl ihr =>
    rw [joinTree]
    simp only [Expr.everyNode, Bool.and_eq_true] at he
    obtain ⟨-, ⟨hl, hr⟩, hcondition⟩ := he
    have hcondition := Expr.everyNodeOfOption_iff.mp hcondition
    refine along_bind (ihl hs hnode hstage hl) fun left t hleft => ?_
    obtain ⟨ht, hleft⟩ := hleft
    have hs' := hs.later ht
    have hstage' := Nat.lt_of_lt_of_le hstage ht.length
    have hnode' := Nat.lt_of_lt_of_le hnode ht.nodes.length_le
    have hsides {right : FromTree} {u : State} (hu : Standing L t u) (hright : right.Fits L (Added t u)) :=
      proceeds_joined hp hs (ht.trans hu) (Nat.lt_of_lt_of_le hstage' hu.length) kind
        (hleft.mono fun _ => Standing.added_first hu.toKept)
          (hright.mono fun _ => Standing.added_second ht.toKept) hcondition
    split
    · have hscope := hs'.inScope hstage'
      refine along_bind (along_inScope (proceeds_joinSide hp hscope hnode' hr rv)) fun item u hu => ?_
      have hright : (FromTree.item { item with forceSubquery := true }).Fits L (Added t u) := hu.2
      exact hsides hu.1 hright
    · exact along_bind (ihr hs' hnode' hstage' hr) fun right u hu => hsides hu.1 hu.2
  | case2 var e hjoin =>
    rw [joinTree]
    · exact along_bind (proceeds_joinSide hp hs hnode he var) fun item t ht => along_pure ht
    · exact hjoin

theorem builds_joinRows (hp : BuildsParts L test p) (hs : Here L c s) (he : e.everyNode test = true) (var : String) :
    BuildsNode L c s (joinRows p e var) := by
  have hpushed := (Standing.refl L s).pushStage Stage.fits_empty
  refine proceeds_step_bind (.pushStage _) hs (.refl L s) trivial (gives_pushStage.mpr ⟨rfl, rfl⟩) hpushed ?_
  have hsingle := hpushed.pushSingle ⟨Nat.le_refl s.stages.length, by simp⟩ var
  refine proceeds_step_bind (.pushNode _) hs hpushed trivial (gives_pushNode.mpr ⟨rfl, rfl⟩) hsingle ?_
  refine along_bind (proceeds_joinTree hp (hs.later hsingle) (by simp) (by simp) he var) fun f u hu => ?_
  refine builds_attach hs hsingle hu.1 ⟨Nat.le_refl _, by simp⟩ ⟨Nat.le_refl _, by simp⟩ fun _ I hI hfits => ?_
  refine { hfits with from_ := fun _ h => ?_ }
  obtain rfl := Option.some.inj h
  exact hu.2.mono hI

/-! ## All relational expressions -/

theorem builds_nodeStep (hp : BuildsParts L test p) (hL : Permits L test) (hs : Here L c s)
    (h : e.everyNode test = true)
    (var : String) : BuildsNode L c s (nodeStep p e var) := by
  have hparts := h
  unfold Expr.everyNode at hparts
  obtain ⟨-, hparts⟩ := Bool.and_eq_true_iff.mp hparts
  cases e with
  | scan set =>
    have hsource : (Source.table (tableSql set)).Fits L (Added s s) := trivial
    exact builds_pushSource hs (.refl L s) hsource var
  | filter input predicate =>
    obtain ⟨hinput, hpredicate⟩ := Bool.and_eq_true_iff.mp hparts
    exact builds_filterRows hp hs hinput hpredicate var
  | project input row =>
    obtain ⟨hinput, hrow⟩ := Bool.and_eq_true_iff.mp hparts
    exact builds_projectRows hp hL hs hinput hrow var
  | sort input keys =>
    obtain ⟨hinput, hkeys⟩ := Bool.and_eq_true_iff.mp hparts
    exact builds_sortRows hp hs hinput (Expr.everyNodeOfKeys_iff.mp hkeys) var
  | skip input keys count =>
    obtain ⟨hrows, hcount⟩ := Bool.and_eq_true_iff.mp hparts
    obtain ⟨hinput, hkeys⟩ := Bool.and_eq_true_iff.mp hrows
    exact builds_skipRows hp hs hinput (Expr.everyNodeOfKeys_iff.mp hkeys) hcount var
  | limit input count =>
    obtain ⟨hinput, hcount⟩ := Bool.and_eq_true_iff.mp hparts
    exact builds_limitRows hp hs hinput hcount
  | distinct input => exact builds_distinctRows hp hs (e := input) hparts var
  | groupBy input keys aggregates type =>
    obtain ⟨hrows, haggregates⟩ := Bool.and_eq_true_iff.mp hparts
    obtain ⟨hinput, hkeys⟩ := Bool.and_eq_true_iff.mp hrows
    exact builds_groupRows hp hL hs hinput (Expr.everyNodeOfAll_iff.mp hkeys)
      (Expr.everyNodeOfAggregates_iff.mp haggregates) type var
  | join kind left right condition => exact builds_joinRows hp hs h var
  | setOp kind left right =>
    obtain ⟨hleft, hright⟩ := Bool.and_eq_true_iff.mp hparts
    exact builds_setOpRows hp hs kind hleft hright var
  | newInstance type args => exact builds_constantRows hp hL hs type (Expr.everyNodeOfAll_iff.mp hparts) var
  | call f args type => exact builds_callRows hp hL hs (Expr.everyNodeOfAll_iff.mp hparts) f type var
  | _ => exact along_fail _

theorem builds_rowsStep (hp : BuildsParts L test p) (hL : Permits L test) (hs : Here L c s)
    (h : e.everyNode test = true)
    (var : String) : BuildsNode L c s (rowsStep p e var) := by
  refine along_bind (builds_nodeStep hp hL hs h var) fun node t hnode => ?_
  obtain ⟨ht, hnode⟩ := hnode
  have hbound := ht.bindVar var hnode
  exact proceeds_step_bind (.bindVar _ _) hs ht trivial (gives_bindVar.mpr ⟨rfl, rfl⟩) hbound
    (along_pure ⟨hbound, hnode⟩)

/-! ## Expressions of any depth -/

theorem builds_partsTo (hL : Permits L test) (n : Nat) : BuildsParts L test (partsTo n) := by
  induction n with
  | zero => exact ⟨fun _ _ _ _ _ => along_fail _, fun _ _ _ _ _ _ => along_fail _⟩
  | succ n ih =>
    exact ⟨fun _ h _ _ hs => proceeds_valueStep ih hL hs h, fun _ var h _ _ hs => builds_rowsStep ih hL hs h var⟩

theorem builds_value (hL : Permits L test) (hs : Here L c s) (h : e.everyNode test = true) :
    BuildsValue L c s (value e) :=
  (builds_partsTo hL _).value e h hs

theorem builds_rows (hL : Permits L test) (hs : Here L c s) (h : e.everyNode test = true) (var : String) :
    BuildsNode L c s (rows e var) :=
  (builds_partsTo hL _).rows e var h hs

end TreeSql.Compile
