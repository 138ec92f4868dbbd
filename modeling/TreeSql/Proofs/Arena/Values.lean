import TreeSql.Proofs.Arena.Standing
import TreeSql.Proofs.Compile.Comparison
import TreeSql.Proofs.Expr.Nodes

/-
  TreeSql.Proofs.Arena.Values — values are compiled through well-formed states.

  `BuildsParts` says of the steps for the parts of an expression that they run through well-formed states only, and
  that what they build on stands on its own: the stages in a value are all new. `arena` compares a step with
  itself; its worlds are numbers of stages, of which those from a fixed one on may stand in expressions. So
  what is put together from values by calls, operators and CASE is covered by `Comparison`. Columns, nulls,
  constants and subqueries have a lemma each.

  All texts in expressions are allowed: those that compiling brings along, those of lifted constants and those
  of the parameters that pass a test.
-/
namespace TreeSql.Compile

open Sql

/-- A well-formed state in which the texts of lifted constants are allowed. -/
structure Here (L : String → Prop) (c : Context) (s : State) : Prop extends WellFormed c s where
  lifted : c.liftConstants = true → ∀ place, L (placeholder (liftedName place))

/-- The test is one of parameters: the texts of those that pass it are allowed, and other nodes always pass. -/
structure Permits (L : String → Prop) (test : Expr → Bool) : Prop where
  unmarked {text : String} (h : Unmarked text) : L text
  paramRef (name : String) (t : DataType) (h : test (.paramRef name t) = true) : L (placeholder name)
  other (e : Expr) (h : ∀ name t, e ≠ .paramRef name t) : test e = true

theorem Permits.choices {L : String → Prop} {test : Expr → Bool} (h : Permits L test) : Expr.PassesChoices test where
  caseOf _ _ _ := h.other _ (by simp)
  isNull _ _ := h.other _ (by simp)
  call _ _ _ := h.other _ (by simp)

/-- The step builds on from the state, and its value refers to what it built. -/
def BuildsValue (L : String → Prop) (c : Context) (s : State) (m : CompileM SqlExpr) : Prop :=
  Proceeds c s m fun e t => Standing L s t ∧ e.Fits L (Added s t)

/-- The step builds on from the state, and gives a new node. -/
def BuildsNode (L : String → Prop) (c : Context) (s : State) (m : CompileM NodeId) : Prop :=
  Proceeds c s m fun node t => Standing L s t ∧ AddedNode s t node

/-- From any state, the parts are compiled through well-formed states. -/
structure BuildsParts (L : String → Prop) (test : Expr → Bool) (p : Parts) : Prop where
  value (e : Expr) (h : e.everyNode test = true) {c : Context} {s : State} (hs : Here L c s) :
    BuildsValue L c s (p.value e)
  rows (e : Expr) (var : String) (h : e.everyNode test = true) {c : Context} {s : State} (hs : Here L c s) :
    BuildsNode L c s (p.rows e var)

section

variable {L : String → Prop} {test : Expr → Bool} {b s t u : State} {c : Context} {α β : Type} {p : Parts} {e : Expr}
  {es : List Expr}

theorem Here.later (hs : Here L c s) (h : Standing L s t) : Here L c t := ⟨hs.toWellFormed.later h, hs.lifted⟩

theorem Here.inScope (hs : Here L c s) {id : StageId} (hid : id < s.stages.length) :
    Here L { c with scopes := id :: c.scopes } s := ⟨hs.toWellFormed.inScope hid, hs.lifted⟩

/-! ## Primitive steps -/

/-- A primitive step between states that stand on a well-formed one. -/
theorem proceeds_step (x : Step) {a : x.Answer} (hb : Here L c b) (hs : Standing L b s) (hx : x.InRange s)
    (hrun : Gives (.step x .pure) c s a t) (ht : Standing L b t) :
    Proceeds c s (.step x .pure) fun a' t' => a' = a ∧ t' = t :=
  along_step (hb.toWellFormed.later hs) hx hrun (hb.toWellFormed.later ht) ⟨rfl, rfl⟩

/-- The same with what is done afterwards. -/
theorem proceeds_step_bind (x : Step) {f : x.Answer → CompileM β} {a : x.Answer} {post : β → State → Prop}
    (hb : Here L c b) (hs : Standing L b s) (hx : x.InRange s) (hrun : Gives (.step x .pure) c s a t)
    (ht : Standing L b t) (hf : Proceeds c t (f a) post) : Proceeds c s (.step x .pure >>= f) post := by
  refine along_bind (proceeds_step x hb hs hx hrun ht) fun _ _ hsame => ?_
  obtain ⟨rfl, rfl⟩ := hsame
  exact hf

theorem proceeds_nextAlias (hs : Here L c s) : Proceeds c s nextAlias fun _ t => Standing L s t := by
  have ht := (Standing.refl L s).other (t := { s with aliases := s.aliases + 1 }) rfl rfl rfl (List.prefix_refl _)
    (Nat.le_succ _)
  refine along_mono (proceeds_step .nextAlias hs (.refl L s) trivial (gives_nextAlias.mpr ⟨rfl, rfl⟩) ht)
    fun _ _ hsame => ?_
  exact hsame.2 ▸ ht

theorem proceeds_pullColumn (hs : Here L c s) {id : StageId} (hid : id < s.stages.length) (source column : String) :
    Proceeds c s (pullColumn id source column) fun _ t => Standing L s t := by
  have ht := (Standing.refl L s).pullColumn id source column
  refine along_mono (proceeds_step (.pullColumn id source column) hs (.refl L s) hid
    (gives_pullColumn.mpr ⟨rfl, rfl⟩) ht) fun _ _ hsame => ?_
  exact hsame.2 ▸ ht

theorem proceeds_getStage_bind (hs : Here L c s) {id : StageId} (hid : id < s.stages.length) {f : Stage → CompileM β}
    {post : β → State → Prop} (hf : Proceeds c s (f (s.stages.get id)) post) :
    Proceeds c s (getStage id >>= f) post :=
  proceeds_step_bind (.getStage id) hs (.refl L s) hid (gives_getStage.mpr ⟨rfl, rfl⟩) (.refl L s) hf

/-- A node by its number, which is in range. -/
theorem proceeds_getNode (hs : Here L c s) {id : NodeId} (hid : id < s.nodes.length) :
    Proceeds c s (getNode id) fun n t => s = t ∧ s.nodes[id]? = some n := by
  have hnode : s.nodes[id]? = some s.nodes[id] := List.getElem?_eq_getElem hid
  refine along_mono (proceeds_step (.getNode id) hs (.refl L s) hid (gives_getNode.mpr ⟨rfl, rfl⟩)
    (.refl L s)) fun n t hsame => ?_
  obtain ⟨rfl, rfl⟩ := hsame
  rw [hnode, Option.getD_some]
  exact ⟨rfl, rfl⟩

/-- A node that was added: its stages were added too. -/
theorem proceeds_addedNode (hb : Here L c b) (h : Standing L b s) {id : NodeId} (hid : AddedNode b s id) :
    Proceeds c s (getNode id) fun n t => s = t ∧ ∀ a ∈ n.selects, Added b s a.stage :=
  along_mono (proceeds_getNode (hb.later h) hid.2) fun n _ hn => ⟨hn.1, h.fresh id n hid.1 hn.2⟩

theorem proceeds_openStage (hb : Here L c b) (h : Standing L b s) {id : NodeId} (hid : AddedNode b s id) :
    Proceeds c s (openStage id) fun a t => s = t ∧ Added b s a.stage := by
  refine along_bind (proceeds_addedNode hb h hid) fun n t hn => ?_
  obtain ⟨rfl, hadded⟩ := hn
  exact along_pure ⟨rfl, hadded _ (TreeComparison.last_mem_selects n)⟩

/-! ## Steps put together -/

/-- A value, and what is done with it. -/
theorem proceeds_value_bind {m : CompileM SqlExpr} {f : SqlExpr → CompileM β} {post : β → State → Prop}
    (hm : BuildsValue L c s m) (hf : ∀ a t, Standing L s t → a.Fits L (Added s t) → Proceeds c t (f a) post) :
    Proceeds c s (m >>= f) post := along_bind hm fun a t h => hf a t h.1 h.2

/-! ## Values by comparison -/

/-- Expressions whose stages are new since a number of stages. -/
def arena (hL : ∀ {text : String}, Unmarked text → L text) (first : Nat) : Comparison where
  World := Nat
  Le := (· ≤ ·)
  Alike w a _ := a.Fits L fun j => first ≤ j ∧ j < w
  Steps w m _ R := ∀ c s, Here L c s → first ≤ s.stages.length → w ≤ s.stages.length →
    Proceeds c s m fun a t => Standing L s t ∧ ∃ a', R t.stages.length a a'
  refl := Nat.le_refl
  trans := Nat.le_trans
  later h ha := ha.mono fun _ hj => ⟨hj.1, Nat.lt_of_lt_of_le hj.2 h⟩
  congruence _ := congruence_fits hL _
  pure h _ _ _ _ hw := along_pure ⟨.refl L _, _, h _ hw⟩
  bind hm hf c s hs hfirst hw := by
    refine along_bind (hm c s hs hfirst hw) fun a t ha => ?_
    obtain ⟨ht, a', hR⟩ := ha
    refine along_mono (hf (Nat.le_trans hw ht.length) hR c t (hs.later ht) (Nat.le_trans hfirst ht.length)
      (Nat.le_refl _)) fun _ _ hb => ?_
    exact ⟨ht.trans hb.1, hb.2⟩
  fail e _ _ _ _ _ _ := along_fail e

/-- Values of which the test says that they may be compiled. -/
theorem BuildsParts.compiles (hp : BuildsParts L test p) (hL : Permits L test) (first : Nat)
    (h : ∀ e ∈ es, e.everyNode test = true) : (arena hL.unmarked first).Compiles p.value p.value es := by
  intro e he w c s hs hfirst _
  refine along_mono (hp.value e (h e he) hs) fun a t ha => ⟨ha.1, a, ha.2.mono fun j hj => ?_⟩
  exact ⟨Nat.le_trans hfirst hj.1, hj.2⟩

theorem buildsValue_of_steps {hL : ∀ {text : String}, Unmarked text → L text} (hs : Here L c s) {m : CompileM SqlExpr}
    (h : (arena hL s.stages.length).Steps s.stages.length m m (arena hL s.stages.length).Alike) :
    BuildsValue L c s m :=
  along_mono (h c s hs (Nat.le_refl _) (Nat.le_refl _)) fun _ _ ha => ⟨ha.1, ha.2.elim fun _ ha => ha⟩

/-- Values one after the other. -/
theorem proceeds_valuesOf (hp : BuildsParts L test p) (hL : Permits L test) (hs : Here L c s)
    (h : ∀ e ∈ es, e.everyNode test = true) :
    Proceeds c s (valuesOf p.value es) fun as t => Standing L s t ∧ ∀ a ∈ as, a.Fits L (Added s t) := by
  have hsteps (w : Nat) := Comparison.steps_valuesOf (w := w) (hp.compiles hL s.stages.length h)
  refine along_mono (hsteps 0 c s hs (Nat.le_refl _) (Nat.zero_le _)) fun as t has => ⟨has.1, ?_⟩
  obtain ⟨-, as', has⟩ := has
  induction has with
  | nil => simp
  | cons ha _ ih => exact List.forall_mem_cons.mpr ⟨ha, ih⟩

/-! ## Columns -/

theorem proceeds_pullThrough (hs : Here L c s) (path : ColumnPath) {stage : AliasedStage}
    (hstage : stage.stage < s.stages.length) :
    Proceeds c s (pullThrough path stage) fun _ t => Standing L s t :=
  along_bind (proceeds_pullColumn hs hstage _ _) fun _ _ ht => along_pure ht

theorem proceeds_pullToScope (hs : Here L c s) (path : ColumnPath) {stages : List AliasedStage}
    (h : ∀ a ∈ stages, a.stage < s.stages.length) :
    Proceeds c s (pullToScope path stages) fun _ t => Standing L s t := by
  induction stages generalizing s path with
  | nil => exact along_pure (.refl L s)
  | cons stage rest ih =>
    rw [List.forall_mem_cons] at h
    refine along_read_bind ?_
    split
    · exact along_pure (.refl L s)
    · refine along_bind (proceeds_pullThrough hs path h.1) fun path' t ht => ?_
      refine along_mono (ih (hs.later ht) path' fun a ha => Nat.lt_of_lt_of_le
        (h.2 a ha) ht.length) fun _ u hu => ?_
      exact ht.trans hu

theorem proceeds_pullFrom (hs : Here L c s) {node : NodeId} (hnode : node < s.nodes.length) (path : ColumnPath) :
    Proceeds c s (pullFrom node path) fun _ t => Standing L s t := by
  induction node using Nat.strongRecOn generalizing s path with
  | ind node ih =>
    unfold pullFrom
    refine along_bind (proceeds_getNode hs hnode) fun n _ hn => ?_
    obtain ⟨rfl, hn⟩ := hn
    refine along_bind (proceeds_pullToScope hs path (hs.selects n (List.mem_of_getElem? hn)).2) fun r t ht => ?_
    obtain ⟨path', found⟩ := r
    dsimp only
    split
    · exact along_pure ht
    · split
      · split
        · rename_i parent _ hparent
          have hbound := Nat.lt_of_lt_of_le (Nat.lt_trans hparent hnode) ht.nodes.length_le
          exact along_mono (ih parent hparent (hs.later ht) hbound path') fun _ u hu => ht.trans hu
        · exact along_pure ht
      · exact along_pure ht

theorem proceeds_boundColumn (hs : Here L c s) (base : Expr) (name : String) :
    BuildsValue L c s (boundColumn base name) := by
  refine along_lift_bind fun owner _ => ?_
  refine proceeds_step_bind (.boundNode owner) hs (.refl L s) trivial (gives_boundNode.mpr ⟨rfl, rfl⟩) (.refl L s) ?_
  split
  · exact along_fail _
  · rename_i node hnode
    obtain ⟨l, l', hl, -⟩ := List.lookup_eq_some_iff.mp hnode
    have hbound : node < s.nodes.length := hs.bindings (owner, node) (by simp [hl])
    refine along_bind (proceeds_getNode hs hbound) fun n _ hn => ?_
    obtain ⟨rfl, -⟩ := hn
    refine along_bind (proceeds_pullFrom hs hbound _) fun path t ht => along_pure ⟨ht, ?_⟩
    exact SqlExpr.fits_bare rfl rfl

theorem proceeds_propertyValue (hs : Here L c s) (base : Expr) (name : String) :
    BuildsValue L c s (propertyValue base name) := by
  refine along_read_bind ?_
  split
  · exact proceeds_boundColumn hs base name
  · split
    · split
      · exact along_pure ⟨.refl L s, SqlExpr.fits_bare rfl rfl⟩
      · exact along_fail _
    · exact along_fail _

/-! ## Constants and nulls -/

theorem proceeds_constantValue (hs : Here L c s) (v : Value) : BuildsValue L c s (constantValue v) := by
  refine along_read_bind ?_
  split
  · rename_i hlift
    have ht := (Standing.refl L s).other (t := { s with lifted := s.lifted ++ [v] }) rfl rfl rfl
      (List.prefix_append _ _) (Nat.le_refl _)
    refine proceeds_step_bind (.liftConstant v) hs (.refl L s) trivial (gives_liftConstant.mpr ⟨rfl, rfl⟩) ht ?_
    exact along_pure ⟨ht, SqlExpr.fits_verbatim (hs.lifted hlift _)⟩
  · exact along_pure ⟨.refl L s, SqlExpr.fits_bare rfl rfl⟩

theorem proceeds_nullValue (hL : Permits L test) (t : DataType) : BuildsValue L c s (nullValue t) := by
  have hnull {I : StageId → Prop} : (SqlExpr.verbatim "NULL").Fits L I :=
    SqlExpr.fits_verbatim (hL.unmarked (by decide))
  refine along_read_bind ?_
  split
  · exact along_lift_bind fun type _ => along_pure ⟨.refl L _, SqlExpr.fits_of_same hnull rfl rfl⟩
  · exact along_pure ⟨.refl L s, hnull⟩

/-! ## Subqueries -/

/-- What is done with rows that have an alias of their own. -/
theorem proceeds_aliasedRows (hp : BuildsParts L test p) (hs : Here L c s) (h : e.everyNode test = true)
    {f : NodeId → CompileM β} {post : β → State → Prop}
    (hf : ∀ node t, Standing L s t → AddedNode s t node → Proceeds c t (f node) post) :
    Proceeds c s (nextAlias >>= fun label => p.rows e label >>= f) post := by
  refine along_bind (proceeds_nextAlias hs) fun label t ht => ?_
  refine along_bind (hp.rows e label h (hs.later ht)) fun node u hu => ?_
  exact hf node u (ht.trans hu.1) ⟨Nat.le_trans ht.nodes.length_le hu.2.1, hu.2.2⟩

theorem proceeds_subqueryValue (hp : BuildsParts L test p) (hs : Here L c s) (h : e.everyNode test = true) :
    BuildsValue L c s (subqueryValue p e) := by
  refine proceeds_aliasedRows hp hs h fun node t ht hnode => ?_
  refine along_bind (proceeds_openStage hs ht hnode) fun last _ hlast => ?_
  obtain ⟨rfl, hlast⟩ := hlast
  exact along_pure ⟨ht, SqlExpr.fits_stage hlast⟩

theorem proceeds_pullAll (hs : Here L c s) (path : ColumnPath) {stages : List AliasedStage}
    (h : ∀ a ∈ stages, a.stage < s.stages.length) :
    Proceeds c s (pullAll path stages) fun _ t => Standing L s t := by
  induction stages generalizing s path with
  | nil => exact along_pure (.refl L s)
  | cons stage rest ih =>
    rw [List.forall_mem_cons] at h
    refine along_bind (proceeds_pullThrough hs path h.1) fun path' t ht => ?_
    refine along_mono (ih (hs.later ht) path' fun a ha => Nat.lt_of_lt_of_le (h.2 a ha) ht.length) fun _ u hu => ?_
    exact ht.trans hu

theorem proceeds_limitValue (hp : BuildsParts L test p) (hs : Here L c s) (h : e.everyNode test = true) :
    BuildsValue L c s (limitValue p e) := by
  refine proceeds_aliasedRows hp hs h fun node t ht hnode => ?_
  refine along_bind (proceeds_addedNode hs ht hnode) fun n _ hn => ?_
  obtain ⟨rfl, hn⟩ := hn
  have hlast : Added s t n.last.stage := hn _ (TreeComparison.last_mem_selects n)
  have hwrappers : ∀ a ∈ n.wrappers, a.stage < t.stages.length := fun a ha => (hn a (.tail _ ha)).2
  refine proceeds_getStage_bind (hs.later ht) (hn _ (.head _)).2 ?_
  split
  · refine along_bind (proceeds_pullAll (hs.later ht) _ hwrappers) fun _ u hu => ?_
    exact along_pure ⟨ht.trans hu, SqlExpr.fits_stage (Standing.added_first hu.toKept hlast)⟩
  · exact along_pure ⟨ht, SqlExpr.fits_stage hlast⟩

/-! ## All scalar expressions -/

theorem proceeds_valueStep (hp : BuildsParts L test p) (hL : Permits L test) (hs : Here L c s)
    (h : e.everyNode test = true) :
    BuildsValue L c s (valueStep p e) := by
  have hparts := h
  unfold Expr.everyNode at hparts
  obtain ⟨hnode, hparts⟩ := Bool.and_eq_true_iff.mp hparts
  let C := arena hL.unmarked s.stages.length
  have hR (w : Nat) : Congruence (C.Alike w) := C.congruence w
  have hall {es : List Expr} (hes : Expr.everyNodeOfAll test es = true) : C.Compiles p.value p.value es :=
    hp.compiles hL _ (Expr.everyNodeOfAll_iff.mp hes)
  have hone {x : Expr} (hx : x.everyNode test = true) : C.Compiles p.value p.value [x] :=
    hp.compiles hL _ (by simpa using hx)
  have htwo {x y : Expr} (hxy : (x.everyNode test && y.everyNode test) = true) : C.Compiles p.value p.value [x, y] :=
    hp.compiles hL _ (by simpa using hxy)
  cases e with
  | constant v => exact proceeds_constantValue hs v
  | null t => exact proceeds_nullValue hL t
  | paramRef name t => exact along_pure ⟨.refl L s, SqlExpr.fits_verbatim (hL.paramRef name t hnode)⟩
  | varRef name t => exact along_fail _
  | property base name t => exact proceeds_propertyValue hs base name
  | comparison op l r | and l r | or l r | like l r =>
    exact buildsValue_of_steps hs (Comparison.steps_binaryValue _ (htwo hparts))
  | arithmetic op args => exact buildsValue_of_steps hs (Comparison.steps_arithmeticValue op (hall hparts))
  | not e => exact buildsValue_of_steps hs (Comparison.steps_one (hone hparts) fun hx => (hR _).negate hx)
  | isNull e => exact buildsValue_of_steps hs (Comparison.steps_one (hone hparts) fun hx => (hR _).trailing _ hx)
  | isEmpty e =>
    exact buildsValue_of_steps hs (Comparison.steps_one (hone hparts) fun hx => (hR _).negate ((hR _).exists_ hx))
  | isIn item list =>
    obtain ⟨hitem, hlist⟩ := Bool.and_eq_true_iff.mp hparts
    have hboth : C.Compiles p.value p.value (item :: list) :=
      hp.compiles hL _ (List.forall_mem_cons.mpr ⟨hitem, Expr.everyNodeOfAll_iff.mp hlist⟩)
    exact buildsValue_of_steps hs (Comparison.steps_isInValue hboth)
  | cast e t =>
    refine proceeds_value_bind (hp.value e hparts hs) fun x u hu hx => ?_
    exact along_lift_bind fun type _ => along_pure ⟨hu, SqlExpr.fits_of_same hx rfl rfl⟩
  | caseOf ws ts o =>
    have hreduced := Expr.everyNode_reduce hL.choices h
    show BuildsValue L c s (reducedCaseValue p (Expr.reduce (.caseOf ws ts o)))
    cases hcase : Expr.reduce (.caseOf ws ts o) with
    | caseOf ws ts o =>
      rw [hcase] at hreduced
      obtain ⟨hw, ht, ho⟩ := Expr.everyNode_caseOf hreduced
      exact buildsValue_of_steps hs (Comparison.steps_caseValue (hp.compiles hL _ hw) (hp.compiles hL _ ht) (hone ho))
    | _ => exact hp.value _ (hcase ▸ hreduced) hs
  | call f args t => exact buildsValue_of_steps hs (Comparison.steps_callValue f t (hall hparts))
  | element e =>
    exact buildsValue_of_steps hs (Comparison.steps_one (hone hparts) fun hx => SqlExpr.fits_of_same hx rfl rfl)
  | limit e n => exact proceeds_limitValue hp hs h
  | newInstance t args =>
    show BuildsValue L c s
      (if t.element?.isSome then subqueryValue p (.newInstance t args) else .fail .rowOutsideProjection)
    split
    · exact proceeds_subqueryValue hp hs h
    · exact along_fail _
  | scan | filter | project | sort | skip | distinct | groupBy | join | setOp => exact proceeds_subqueryValue hp hs h

end

end TreeSql.Compile
