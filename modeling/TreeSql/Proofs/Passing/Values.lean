import TreeSql.Proofs.Arena.Runs
import TreeSql.Proofs.Compile.Comparison
import TreeSql.Proofs.Passing.States

/-
  TreeSql.Proofs.Passing.Values — values are compiled through transparent states.

  `Preserves` says of a step that it runs from a transparent state through transparent states only, and that
  what there was before stays on its routes. Columns are where that matters: one is pulled from its node outwards,
  and each stage on the way takes it (`preserves_pullFrom`). What is put together from values by calls, operators
  and CASE is covered by `Comparison`, since nothing has to be known of the values themselves (`unwatched`).
-/
namespace TreeSql.Compile

open Sql

variable {α β : Type} {c : Context} {s t : State} {R : α → State → Prop} {R' : β → State → Prop}

/-- From a transparent state the step runs through transparent states, and all that there is stays on its routes. -/
def Preserves (c : Context) (s : State) (m : CompileM α) (R : α → State → Prop) : Prop :=
  Transparent s → Along (fun _ s => Transparent s) c s m fun a t => Transparent t ∧ Onward s t ∧ R a t

/-! ## Steps put together -/

theorem preserves_pure {a : α} (h : R a s) : Preserves c s (pure a) R := fun hs => along_pure ⟨hs, .refl s, h⟩

theorem preserves_fail (e : Error) : Preserves c s (.fail e) R := fun _ => along_fail e

theorem preserves_bind {m : CompileM α} {f : α → CompileM β} (hm : Preserves c s m R)
    (hf : ∀ a t, Onward s t → R a t → Preserves c t (f a) R') : Preserves c s (m >>= f) R' := by
  intro hs
  refine along_bind (hm hs) fun a t ha => ?_
  obtain ⟨ht, hst, ha⟩ := ha
  refine along_mono (hf a t hst ha ht) fun b u hb => ?_
  exact ⟨hb.1, hst.trans hb.2.1, hb.2.2⟩

theorem preserves_lift_bind {x : Except Error α} {f : α → CompileM β} (h : ∀ a, Preserves c s (f a) R') :
    Preserves c s (liftM x >>= f) R' := fun hs => along_lift_bind fun a _ => h a hs

theorem preserves_read_bind {f : Context → CompileM β} (h : Preserves c s (f c) R') :
    Preserves c s (read >>= f) R' := fun hs => along_read_bind (h hs)

theorem preserves_inScope {m : CompileM α} {id : StageId} (h : Preserves { c with scopes := id :: c.scopes } s m R) :
    Preserves c s (inScope id m) R := fun hs => along_inScope (h hs)

theorem preserves_mono {m : CompileM α} {Q : α → State → Prop} (h : Preserves c s m R)
    (hR : ∀ a t, Onward s t → R a t → Q a t) : Preserves c s m Q :=
  fun hs => along_mono (h hs) fun a t ha => ⟨ha.1, ha.2.1, hR a t ha.2.1 ha.2.2⟩

/-- What the step gives is what it computes. -/
theorem preserves_gives {m : CompileM α} (h : Preserves c s m R) :
    Preserves c s m fun a t => Gives m c s a t ∧ R a t := by
  intro hs
  obtain ⟨hevents, hresult⟩ := h hs
  refine ⟨hevents, fun a t hrun => ?_⟩
  obtain ⟨ht, hst, ha⟩ := hresult a t hrun
  exact ⟨ht, hst, hrun, ha⟩

/-- What the transparent state that the step starts from says is known. -/
theorem preserves_of_transparent {m : CompileM α} (h : Transparent s → Preserves c s m R) : Preserves c s m R :=
  fun hs => h hs hs

/-! ## Primitive steps -/

theorem preserves_step (x : Step) {a : x.Answer} {R : x.Answer → State → Prop} (hx : x.InRange s)
    (hrun : Gives (.step x .pure) c s a t) (ht : Transparent s → Transparent t ∧ Onward s t) (hR : R a t) :
    Preserves c s (.step x .pure) R :=
  fun hs => along_step hs hx hrun (ht hs).1 ⟨(ht hs).1, (ht hs).2, hR⟩

theorem preserves_nextAlias : Preserves c s nextAlias fun _ _ => True :=
  preserves_step .nextAlias trivial (gives_nextAlias.mpr ⟨rfl, rfl⟩) (fun hs => hs.other rfl rfl rfl) trivial

theorem preserves_liftConstant (v : Value) : Preserves c s (liftConstant v) fun _ _ => True :=
  preserves_step (.liftConstant v) trivial (gives_liftConstant.mpr ⟨rfl, rfl⟩) (fun hs => hs.other rfl rfl rfl) trivial

theorem preserves_getStage {id : StageId} (hid : id < s.stages.length) :
    Preserves c s (getStage id) fun g t => s = t ∧ g = s.stages.get id :=
  preserves_step (.getStage id) hid (gives_getStage.mpr ⟨rfl, rfl⟩) (fun hs => ⟨hs, .refl s⟩) ⟨rfl, rfl⟩

theorem preserves_getNode {id : NodeId} (hid : id < s.nodes.length) :
    Preserves c s (getNode id) fun n t => s = t ∧ s.nodes[id]? = some n := by
  have hnode : s.nodes[id]? = some s.nodes[id] := List.getElem?_eq_getElem hid
  refine preserves_step (.getNode id) hid (gives_getNode.mpr ⟨rfl, rfl⟩) (fun hs => ⟨hs, .refl s⟩) ⟨rfl, ?_⟩
  rw [hnode]
  rfl

theorem preserves_boundNode (var : String) :
    Preserves c s (boundNode var) fun bound t => s = t ∧ bound = s.bindings.lookup var :=
  preserves_step (.boundNode var) trivial (gives_boundNode.mpr ⟨rfl, rfl⟩) (fun hs => ⟨hs, .refl s⟩) ⟨rfl, rfl⟩

/-- The open stage of a node. -/
theorem preserves_openStage {id : NodeId} (hid : id < s.nodes.length) :
    Preserves c s (openStage id) fun a t =>
      s = t ∧ a.stage < s.stages.length ∧ ∃ n, s.nodes[id]? = some n ∧ n.last = a := by
  refine preserves_of_transparent fun hs => ?_
  refine preserves_bind (preserves_getNode hid) fun n _ _ hn => ?_
  obtain ⟨rfl, hn⟩ := hn
  exact preserves_pure ⟨rfl, hs.bound hn _ (TreeComparison.last_mem_selects n), n, hn, rfl⟩

theorem preserves_pullColumn {id : StageId} (hid : id < s.stages.length) {qualifier : String}
    (htakes : Takes qualifier (s.stages.get id)) (column : String) :
    Preserves c s (pullColumn id qualifier column) fun _ _ => True :=
  preserves_step (.pullColumn id qualifier column) hid (gives_pullColumn.mpr ⟨rfl, rfl⟩)
    (fun hs => hs.pullColumn htakes column _ _) trivial

/-! ## Columns -/

theorem preserves_pullThrough (path : ColumnPath) {a : AliasedStage} (hid : a.stage < s.stages.length)
    (htakes : Takes path.qualifier (s.stages.get a.stage)) :
    Preserves c s (pullThrough path a) fun path' _ => path'.qualifier = a.name :=
  preserves_bind (preserves_pullColumn hid htakes _) fun _ _ _ _ => preserves_pure rfl

theorem preserves_pullToScope (path : ColumnPath) {stages : List AliasedStage}
    (h : Chained s.stages path.qualifier stages) : Preserves c s (pullToScope path stages) fun _ _ => True := by
  induction stages generalizing s path with
  | nil => exact preserves_pure trivial
  | cons a rest ih =>
    refine preserves_read_bind ?_
    split
    · exact preserves_pure trivial
    · refine preserves_bind (preserves_pullThrough path h.1.1 h.1.2) fun path' t ht hpath => ?_
      exact ih path' (hpath ▸ h.2.onward ht)

/-- From a node whose first stage takes the column, the way leads along the stages of the node. The join that it
    is a side of takes the column under any alias that it has got by then. -/
theorem preserves_pullFrom {node : NodeId} (path : ColumnPath) {n : Node} (hn : s.nodes[node]? = some n)
    (htakes : Takes path.qualifier (s.stages.get n.first.stage)) :
    Preserves c s (pullFrom node path) fun _ _ => True := by
  induction node using Nat.strongRecOn generalizing s path n with
  | ind node ih =>
    refine preserves_of_transparent fun hs => ?_
    have hroute := hs.routed hn
    have hchained : Chained s.stages path.qualifier n.selects := ⟨⟨hroute.chained.1.1, htakes⟩, hroute.chained.2⟩
    unfold pullFrom
    refine preserves_bind (preserves_getNode (List.getElem?_eq_some_iff.mp hn).1) fun n' _ _ hn' => ?_
    obtain ⟨rfl, hn'⟩ := hn'
    obtain rfl : n = n' := Option.some.inj (hn.symm.trans hn')
    refine preserves_bind (preserves_pullToScope path hchained) fun r t ht _ => ?_
    obtain ⟨path', found⟩ := r
    dsimp only
    split
    · exact preserves_pure trivial
    · split
      · rename_i parent hparent
        split
        · rename_i hlt
          obtain ⟨m, hm, hall⟩ := (hroute.parent parent hparent).onward hs ht
          exact ih parent hlt path' hm (hall _)
        · exact preserves_pure trivial
      · exact preserves_pure trivial

theorem preserves_boundColumn (base : Expr) (name : String) :
    Preserves c s (boundColumn base name) fun _ _ => True := by
  refine preserves_lift_bind fun owner => ?_
  refine preserves_bind (preserves_boundNode owner) fun bound _ _ hbound => ?_
  obtain ⟨rfl, rfl⟩ := hbound
  split
  · exact preserves_fail _
  · rename_i node hnode
    refine preserves_of_transparent fun hs => ?_
    obtain ⟨l, l', hl, -⟩ := List.lookup_eq_some_iff.mp hnode
    have hbound : node < s.nodes.length := hs.bindings (owner, node) (by simp [hl])
    refine preserves_bind (preserves_getNode hbound) fun n _ _ hn => ?_
    obtain ⟨rfl, hn⟩ := hn
    have htakes : Takes n.first.name (s.stages.get n.first.stage) := (hs.routed hn).chained.1.2
    exact preserves_bind (preserves_pullFrom _ hn htakes) fun _ _ _ _ => preserves_pure trivial

theorem preserves_propertyValue (base : Expr) (name : String) :
    Preserves c s (propertyValue base name) fun _ _ => True := by
  refine preserves_read_bind ?_
  split
  · exact preserves_boundColumn base name
  · split
    · split
      · exact preserves_pure trivial
      · exact preserves_fail _
    · exact preserves_fail _

/-! ## Constants and nulls -/

theorem preserves_constantValue (v : Value) : Preserves c s (constantValue v) fun _ _ => True := by
  refine preserves_read_bind ?_
  split
  · exact preserves_bind (preserves_liftConstant v) fun _ _ _ _ => preserves_pure trivial
  · exact preserves_pure trivial

theorem preserves_nullValue (t : DataType) : Preserves c s (nullValue t) fun _ _ => True := by
  refine preserves_read_bind ?_
  split
  · exact preserves_lift_bind fun _ => preserves_pure trivial
  · exact preserves_pure trivial

/-! ## Values by comparison -/

/-- All expressions are alike: only the states that steps run through count. -/
def unwatched : Comparison where
  World := Unit
  Le _ _ := True
  Alike _ _ _ := True
  Steps _ m _ R := ∀ c s, Preserves c s m fun a _ => ∃ a', R () a a'
  refl _ := trivial
  trans _ _ := trivial
  later _ h := h
  congruence _ := by constructor <;> intros <;> trivial
  pure h _ _ := preserves_pure ⟨_, h () trivial⟩
  bind hm hf c s := preserves_bind (hm c s) fun _ t _ ⟨_, ha⟩ => hf trivial ha c t
  fail e _ _ _ := preserves_fail e

/-- From any transparent state, the parts of expressions are compiled through transparent states. -/
structure PreservesParts (p : Parts) : Prop where
  value (e : Expr) (c : Context) (s : State) : Preserves c s (p.value e) fun _ _ => True
  rows (e : Expr) (var : String) (c : Context) (s : State) :
    Preserves c s (p.rows e var) fun node t => node < t.nodes.length

section

variable {p : Parts} (hp : PreservesParts p)

include hp

theorem PreservesParts.compiles (es : List Expr) : unwatched.Compiles p.value p.value es :=
  fun e _ _ c s => preserves_mono (hp.value e c s) fun a _ _ _ => ⟨a, trivial⟩

omit hp in
theorem preserves_of_steps {m : CompileM α} {R : Unit → α → α → Prop} (h : unwatched.Steps () m m R) :
    Preserves c s m fun _ _ => True := preserves_mono (h c s) fun _ _ _ _ => trivial

theorem preserves_valuesOf (es : List Expr) : Preserves c s (valuesOf p.value es) fun _ _ => True :=
  preserves_of_steps (Comparison.steps_valuesOf (hp.compiles es))

/-! ## Subqueries -/

/-- What is done with rows that have an alias of their own. -/
theorem preserves_aliasedRows (e : Expr) {f : NodeId → CompileM β}
    (hf : ∀ node t, node < t.nodes.length → Preserves c t (f node) R') :
    Preserves c s (nextAlias >>= fun label => p.rows e label >>= f) R' := by
  refine preserves_bind preserves_nextAlias fun label t _ _ => ?_
  exact preserves_bind (hp.rows e label c t) fun node u _ hnode => hf node u hnode

theorem preserves_subqueryValue (e : Expr) : Preserves c s (subqueryValue p e) fun _ _ => True := by
  refine preserves_aliasedRows hp e fun node t hnode => ?_
  exact preserves_bind (preserves_openStage hnode) fun _ _ _ _ => preserves_pure trivial

omit hp in
theorem preserves_pullAll (path : ColumnPath) {stages : List AliasedStage}
    (h : Chained s.stages path.qualifier stages) : Preserves c s (pullAll path stages) fun _ _ => True := by
  induction stages generalizing s path with
  | nil => exact preserves_pure trivial
  | cons a rest ih =>
    refine preserves_bind (preserves_pullThrough path h.1.1 h.1.2) fun path' t ht hpath => ?_
    exact ih path' (hpath ▸ h.2.onward ht)

/-- The column of a limited relation is pulled from its innermost stage through those around it. -/
theorem preserves_limitValue (e : Expr) : Preserves c s (limitValue p e) fun _ _ => True := by
  refine preserves_aliasedRows hp e fun node t hnode => ?_
  refine preserves_of_transparent fun ht => ?_
  refine preserves_bind (preserves_getNode hnode) fun n _ _ hn => ?_
  obtain ⟨rfl, hn⟩ := hn
  obtain ⟨⟨hbound, -⟩, hwrappers⟩ := (ht.routed hn).chained
  refine preserves_bind (preserves_getStage hbound) fun g _ _ hg => ?_
  obtain ⟨rfl, rfl⟩ := hg
  split
  · exact preserves_bind (preserves_pullAll _ hwrappers) fun _ _ _ _ => preserves_pure trivial
  · exact preserves_pure trivial

/-! ## All scalar expressions -/

theorem preserves_valueStep (e : Expr) : Preserves c s (valueStep p e) fun _ _ => True := by
  cases e with
  | constant v => exact preserves_constantValue v
  | null t => exact preserves_nullValue t
  | paramRef name t => exact preserves_pure trivial
  | varRef name t => exact preserves_fail _
  | property base name t => exact preserves_propertyValue base name
  | comparison op l r | and l r | or l r | like l r =>
    exact preserves_of_steps (Comparison.steps_binaryValue _ (hp.compiles _))
  | arithmetic op args => exact preserves_of_steps (Comparison.steps_arithmeticValue op (hp.compiles args))
  | not e | isNull e | isEmpty e | element e =>
    exact preserves_bind (hp.value e c s) fun _ _ _ _ => preserves_pure trivial
  | isIn item list => exact preserves_of_steps (Comparison.steps_isInValue (hp.compiles _))
  | cast e t =>
    exact preserves_bind (hp.value e c s) fun _ _ _ _ => preserves_lift_bind fun _ => preserves_pure trivial
  | caseOf ws ts o =>
    show Preserves c s (reducedCaseValue p (Expr.reduce (.caseOf ws ts o))) _
    cases Expr.reduce (.caseOf ws ts o) with
    | caseOf ws ts o =>
      exact preserves_of_steps (Comparison.steps_caseValue (hp.compiles ws) (hp.compiles ts) (hp.compiles [o]))
    | _ => exact hp.value _ c s
  | call f args t => exact preserves_of_steps (Comparison.steps_callValue f t (hp.compiles args))
  | limit e n => exact preserves_limitValue hp _
  | newInstance t args =>
    show Preserves c s
      (if t.element?.isSome then subqueryValue p (.newInstance t args) else .fail .rowOutsideProjection) _
    split
    · exact preserves_subqueryValue hp _
    · exact preserves_fail _
  | scan | filter | project | sort | skip | distinct | groupBy | join | setOp => exact preserves_subqueryValue hp _

end

end TreeSql.Compile
