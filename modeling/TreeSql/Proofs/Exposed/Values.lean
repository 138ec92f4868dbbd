import TreeSql.Proofs.Compile.Comparison
import TreeSql.Proofs.Compile.Gathered
import TreeSql.Proofs.Exposed.Vicinity
import TreeSql.Proofs.References.Values

/-
  TreeSql.Proofs.Exposed.Values — scalar expressions change nothing but what they can.

  Compiling a scalar expression pulls the columns of its properties through stages that are open for that,
  and compiles the relations in it, which only add stages. So it leads to a state that is later in its vicinity,
  and the stages in the value are new. The elements among them show their columns (`found_valueStep`).
-/
namespace TreeSql.Compile.Vicinity

open Sql Postgres

variable {α β : Type} {V : Vicinity} {s t u w : State} {p : Parts} {e : Expr}

/-! ## Steps -/

variable (V) in
/-- After the state `w`, the step leads to later states and gives what is said. -/
def Yields (w : State) (m : CompileM α) (R : State → α → Prop) : Prop :=
  ∀ s a t, V.After w s → V.Ok s → Gives m V.context s a t → V.After s t ∧ R t a

theorem yields_pure {a : α} {R : State → α → Prop} (h : ∀ t, V.After w t → R t a) : V.Yields w (pure a) R := by
  intro s b t hw _ hrun
  obtain ⟨rfl, rfl⟩ := gives_pure.mp hrun
  exact ⟨.refl _, h _ hw⟩

theorem yields_bind {m : CompileM α} {f : α → CompileM β} {R : State → α → Prop} {R' : State → β → Prop}
    (hm : V.Yields w m R) (hf : ∀ {u a}, V.After w u → R u a → V.Yields u (f a) R') : V.Yields w (m >>= f) R' := by
  intro s b t hw hok hrun
  obtain ⟨a, u, hfirst, hrest⟩ := gives_bind.mp hrun
  obtain ⟨hsu, hR⟩ := hm _ _ _ hw hok hfirst
  obtain ⟨hut, hR'⟩ := hf (hw.trans hsu) hR _ _ _ (.refl u) (hok.after hsu) hrest
  exact ⟨hsu.trans hut, hR'⟩

theorem yields_fail {e : Error} {R : State → α → Prop} : V.Yields w (.fail e) R :=
  fun _ _ _ _ _ hrun => (not_gives_fail hrun).elim

theorem yields_mono {m : CompileM α} {R R' : State → α → Prop} (h : V.Yields w m R) (hR : ∀ t a, R t a → R' t a) :
    V.Yields w m R' := by
  intro s a t hw hok hrun
  obtain ⟨hafter, ha⟩ := h s a t hw hok hrun
  exact ⟨hafter, hR t a ha⟩

/-! ## Settled values -/

variable (V) in
/-- The stages in a value are new, and columns are not pulled through them. Its elements show their columns. -/
def Settled (floor : Nat) (t : State) (a : SqlExpr) : Prop :=
  a.Fits (fun _ => True) (fun id => floor ≤ id ∧ id < t.stages.length ∧ ¬V.can id) ∧
    ∀ id ∈ a.elements, ShowsElement V.test t.stages id

section

variable {floor : Nat} {a : SqlExpr}

theorem Settled.later (h : V.Settled floor t a) (hafter : V.After t u) : V.Settled floor u a := by
  refine ⟨h.1.mono fun id ⟨hfloor, hbound, hcan⟩ => ⟨hfloor, Nat.lt_of_lt_of_le hbound hafter.length, hcan⟩,
    fun id hid => ?_⟩
  obtain ⟨-, hbound, hcan⟩ := h.1.subqueries id (a.elements_subset hid)
  exact (h.2 id hid).congr (by rw [hafter.same id hbound hcan])

theorem Settled.mono {floor' : Nat} (h : V.Settled floor t a) (hfloor : floor' ≤ floor) : V.Settled floor' t a :=
  ⟨h.1.mono fun _ hid => ⟨Nat.le_trans hfloor hid.1, hid.2⟩, h.2⟩

theorem Settled.kept (h : V.Settled floor t a) : ∀ id ∈ a.elements, Kept V.test floor t id := fun id hid =>
  have hfits := h.1.subqueries id (a.elements_subset hid)
  ⟨hfits.1, hfits.2.1, h.2 id hid⟩

/-- There are no stages in the value. -/
theorem settled_bare (hbare : a.subqueries = []) : V.Settled floor t a :=
  ⟨⟨by simp [hbare], fun _ _ => trivial⟩, fun id hid => by
    have hid := a.elements_subset hid
    rw [hbare] at hid
    cases hid⟩

theorem Settled.cast (h : V.Settled floor t a) (type : String) : V.Settled floor t (.cast a type) :=
  ⟨SqlExpr.fits_of_same h.1 rfl rfl, h.2⟩

theorem congruence_settled (floor : Nat) (t : State) : Congruence fun a _ => V.Settled floor t a :=
  (congruence_fits (fun _ => trivial) _).and (congruence_elements _)

end

variable (V) in
/-- The step gives a value that is settled. -/
abbrev Settles (w : State) (m : CompileM SqlExpr) : Prop := V.Yields w m (V.Settled w.stages.length)

variable (V) in
/-- One compilation, beside itself. -/
def comparison (floor : Nat) : Comparison where
  World := State
  Le := V.After
  Alike t a _ := V.Settled floor t a
  Steps w m _ R := floor ≤ w.stages.length → V.Yields w m fun t a => ∃ a', R t a a'
  refl := .refl
  trans := .trans
  later hafter h := h.later hafter
  congruence := congruence_settled floor
  pure h _ := yields_pure fun u hu => ⟨_, h u hu⟩
  bind hm hf hfloor := yields_bind (hm hfloor) fun hu ⟨_, ha⟩ => hf hu ha (Nat.le_trans hfloor hu.length)
  fail _ := fun _ => yields_fail

theorem settles_of_steps {m m' : CompileM SqlExpr}
    (h : (V.comparison w.stages.length).Steps w m m' (V.comparison w.stages.length).Alike) : V.Settles w m :=
  yields_mono (h (Nat.le_refl _)) fun _ _ ⟨_, ha⟩ => ha

theorem settled_of_alike {floor : Nat} {as as' : List SqlExpr} (h : (V.comparison floor).AlikeAll t as as') :
    ∀ a ∈ as, V.Settled floor t a := by
  induction h with
  | nil => simp
  | cons h _ ih => exact List.forall_mem_cons.mpr ⟨h, ih⟩

/-! ## Expressions that can be compiled here -/

variable (V) in
/-- The variables may be bound here. -/
structure Free (binders : List String) : Prop where
  nodup : binders.Nodup
  given : ∀ x ∈ binders, ¬Generated x
  apart : ∀ x ∈ binders, x ∉ V.names
  names : ∀ x ∈ V.names, ¬Generated x

theorem Free.subperm {xs ys : List String} (h : V.Free ys) (hsub : xs.Subperm ys) : V.Free xs where
  nodup := by
    obtain ⟨l, hl, hsub⟩ := hsub
    exact hl.nodup_iff.mp (h.nodup.sublist hsub)
  given x hx := h.given x (hsub.subset hx)
  apart x hx := h.apart x (hsub.subset hx)
  names := h.names

theorem Free.left {xs ys : List String} (h : V.Free (xs ++ ys)) : V.Free xs :=
  h.subperm (List.sublist_append_left _ _).subperm

theorem Free.right {xs ys : List String} (h : V.Free (xs ++ ys)) : V.Free ys :=
  h.subperm (List.sublist_append_right _ _).subperm

/-- Names that are used have to stay bound. -/
theorem Free.enter {used rest : List String} (h : V.Free (used ++ rest)) {scopes : List StageId} {scope : Scope}
    {can : StageId → Prop} : (V.enter scopes scope used can).Free rest where
  nodup := h.right.nodup
  given := h.right.given
  apart x hx hname := by
    rcases List.mem_append.mp hname with hname | hname
    · exact (List.nodup_append.mp h.nodup).2.2 x hname x hx rfl
    · exact h.right.apart x hx hname
  names x hx := (List.mem_append.mp hx).elim (h.left.given x) (h.names x)

variable (V) in
/-- The expression can be compiled to a value here. -/
structure Suits (e : Expr) : Prop where
  valued : Expr.Valued none V.scope e
  free : V.Free e.binders
  nodes : e.everyNode V.test = true

theorem everyNode_of_subset {test : Expr → Bool} {e e' : Expr} (h : e.everyNode test = true) (hsub : e'.nodes ⊆ e.nodes) :
    e'.everyNode test = true := by
  rw [Expr.everyNode_iff] at h ⊢
  exact fun x hx => h x (hsub hx)

theorem nodes_subset_all {es : List Expr} (he : e ∈ es) : e.nodes ⊆ Expr.nodesOfAll es := by
  induction es with
  | nil => cases he
  | cons e' es ih =>
    rcases List.mem_cons.mp he with rfl | he
    · exact List.subset_append_left _ _
    · exact List.subset_append_of_subset_right _ (ih he)

/-- Parts of an expression, with the same variables in scope. -/
theorem Suits.parts (h : V.Suits e) {es : List Expr} (hes : Expr.resolvesAll none V.scope es = true)
    (hbinders : (Expr.bindersOfAll es).Sublist e.binders) (hnodes : Expr.nodesOfAll es ⊆ e.nodes) :
    ∀ e' ∈ es, V.Suits e' := fun e' he' =>
  ⟨Expr.resolvesAll_iff.mp hes e' he',
    h.free.subperm ((Site.sublist_bindersOfAll he').trans hbinders).subperm,
    everyNode_of_subset h.nodes (List.Subset.trans (nodes_subset_all he') hnodes)⟩

/-! ## All scalar expressions -/

variable (V) in
/-- A value is settled, and a relation in its place is a subquery that shows its columns. -/
structure Found (floor : Nat) (e : Expr) (t : State) (a : SqlExpr) : Prop where
  settled : V.Settled floor t a
  shown : e.Subquery → ∀ id, a = .stage id → (t.stages.get id).outputNames = e.shown

/-- What is no subquery has no columns to show. -/
theorem found_of_settles {m : CompileM SqlExpr} (h : V.Settles w m) (hno : ¬e.Subquery) :
    V.Yields w m (V.Found w.stages.length e) :=
  yields_mono h fun _ _ ha => ⟨ha, fun he => (hno he).elim⟩

variable (V) in
def Values (p : Parts) : Prop := ∀ e, V.Suits e → ∀ w, V.Yields w (p.value e) (V.Found w.stages.length e)

theorem Values.settles (hp : V.Values p) (he : V.Suits e) (w : State) : V.Settles w (p.value e) :=
  yields_mono (hp e he w) fun _ _ ha => ha.settled

/-- The elements of a value show their columns. -/
theorem Values.keeps (hp : V.Values p) (he : V.Suits e) (w : State) :
    V.Yields w (p.value e) fun t a => ∀ id ∈ a.elements, Kept V.test w.stages.length t id :=
  yields_mono (hp e he w) fun _ _ ha => ha.settled.kept

theorem Values.compiles (hp : V.Values p) {es : List Expr} (hes : ∀ e ∈ es, V.Suits e) (floor : Nat) :
    (V.comparison floor).Compiles p.value p.value es :=
  fun e he w hfloor => yields_mono (hp.settles (hes e he) w) fun _ a ha => ⟨a, ha.mono hfloor⟩

theorem Values.compiles_all (hp : V.Values p) {es : List Expr} (hes : ∀ e ∈ es, Expr.Valued none V.scope e)
    (hfree : V.Free (Expr.bindersOfAll es)) (hnodes : ∀ e ∈ es, e.everyNode V.test = true) (floor : Nat) :
    (V.comparison floor).Compiles p.value p.value es :=
  hp.compiles (fun e he => ⟨hes e he, hfree.subperm (Site.sublist_bindersOfAll he).subperm, hnodes e he⟩) floor

theorem settles_constantValue (v : Value) : V.Settles w (constantValue v) := by
  intro s a t hw hok hrun
  rw [constantValue, gives_read_bind] at hrun
  split at hrun
  · obtain ⟨name, u, hlift, hlast⟩ := gives_bind.mp hrun
    obtain ⟨-, rfl⟩ := gives_liftConstant.mp hlift
    obtain ⟨rfl, rfl⟩ := gives_pure.mp hlast
    exact ⟨(After.refl s).change changes_counters, settled_bare rfl⟩
  · obtain ⟨rfl, rfl⟩ := gives_pure.mp hrun
    exact ⟨.refl _, settled_bare rfl⟩

theorem settles_nullValue (t : DataType) : V.Settles w (nullValue t) := by
  intro s a t' hw hok hrun
  rw [nullValue, gives_read_bind, V.query] at hrun
  obtain ⟨type, u, hcast, hlast⟩ := gives_bind.mp hrun
  obtain ⟨-, rfl⟩ := gives_lift.mp hcast
  obtain ⟨rfl, rfl⟩ := gives_pure.mp hlast
  exact ⟨.refl _, settled_bare rfl⟩

theorem settles_propertyValue {base : Expr} {name : String} (h : Expr.inScope V.scope base name = true) :
    V.Settles w (propertyValue base name) := by
  intro s e t hw hok hrun
  rw [propertyValue, gives_read_bind, V.query] at hrun
  obtain ⟨hafter, path, rfl⟩ := after_boundColumn hok h hrun
  exact ⟨hafter, settled_bare rfl⟩

theorem settles_reducedCaseValue (hp : V.Values p) (h : V.Suits e) : V.Settles w (reducedCaseValue p e) := by
  cases e with
  | caseOf ws ts o =>
    obtain ⟨hw, ht, ho⟩ := Expr.resolves_caseOf.mp h.valued.1
    have hfree : V.Free (Expr.bindersOfAll ws ++ Expr.bindersOfAll ts ++ o.binders) := h.free
    obtain ⟨hws, hts, hos⟩ := Expr.everyNode_caseOf h.nodes
    refine settles_of_steps (Comparison.steps_caseValue (hp.compiles_all hw hfree.left.left hws _)
      (hp.compiles_all ht hfree.left.right hts _) (hp.compiles (fun e he => ?_) _))
    obtain rfl := List.mem_singleton.mp he
    exact ⟨ho, hfree.right, hos⟩
  | _ => exact hp.settles h w

/-- What reducing a CASE puts together passes the test. -/
theorem Suits.reduce (h : V.Suits e) : V.Suits (Expr.reduce e) :=
  ⟨Expr.valued_reduce h.valued, h.free.subperm (Expr.binders_reduce e), Expr.everyNode_reduce V.passes h.nodes⟩

/-- The input of an element, and what it says of the element. -/
theorem Suits.element (h : V.Suits (.element e)) : V.Suits e ∧ V.test (.element e) = true :=
  ⟨⟨Bool.and_eq_true_iff.mp h.valued.1, h.free, everyNode_of_subset h.nodes (List.subset_cons_self _ _)⟩,
    (Bool.and_eq_true_iff.mp h.nodes).1⟩

/-- A subquery in parentheses shows the columns of its relation. -/
theorem Found.element {floor : Nat} {a : SqlExpr} (h : V.Found floor e t a) (htest : V.test (.element e) = true) :
    V.Settled floor t (.paren a) := by
  refine ⟨SqlExpr.fits_of_same h.settled.1 rfl rfl, List.forall_mem_append.mpr ⟨fun id hid => ?_, h.settled.2⟩⟩
  cases a with
  | stage j =>
    obtain rfl := List.mem_singleton.mp hid
    exact ⟨e, htest, fun he => h.shown he id rfl⟩
  | _ => cases hid

/-- One level: a value is found, if its parts are. -/
theorem found_valueStep (hp : V.Values p) (h : V.Suits e)
    (hquery : e.isRelational = true → (∀ input count, e ≠ .limit input count) →
      V.Yields w (subqueryValue p e) (V.Found w.stages.length e))
    (hlimit : ∀ input count, e = .limit input count → V.Yields w (limitValue p e) (V.Found w.stages.length e)) :
    V.Yields w (valueStep p e) (V.Found w.stages.length e) := by
  have hall {es : List Expr} (hes : Expr.resolvesAll none V.scope es = true)
      (hbinders : (Expr.bindersOfAll es).Sublist e.binders) (hnodes : Expr.nodesOfAll es ⊆ e.nodes) :
      (V.comparison w.stages.length).Compiles p.value p.value es := hp.compiles (h.parts hes hbinders hnodes) _
  have hone {e' : Expr} (hres : e.resolves none V.scope = (e'.resolves none V.scope && e'.carried none))
      (hbinders : e'.binders = e.binders) (hnodes : e'.nodes ⊆ e.nodes) :
      (V.comparison w.stages.length).Compiles p.value p.value [e'] :=
    hall (by simpa [Expr.resolvesAll, hres] using h.valued.1) (by simp [Expr.bindersOfAll, hbinders])
      (by simpa [Expr.nodesOfAll] using hnodes)
  have htwo {l r : Expr} (hres : e.resolves none V.scope =
      ((l.resolves none V.scope && l.carried none) && (r.resolves none V.scope && r.carried none)))
      (hbinders : l.binders ++ r.binders = e.binders) (hnodes : l.nodes ++ r.nodes ⊆ e.nodes) :
      (V.comparison w.stages.length).Compiles p.value p.value [l, r] :=
    hall (by simpa [Expr.resolvesAll, hres] using h.valued.1) (by simp [Expr.bindersOfAll, hbinders])
      (by simpa [Expr.nodesOfAll] using hnodes)
  have hR := (V.comparison w.stages.length).congruence
  have hscalar {m : CompileM SqlExpr} (hm : V.Settles w m) (hno : e.isRelational = false) :
      V.Yields w m (V.Found w.stages.length e) :=
    found_of_settles hm fun he => Bool.eq_false_iff.mp hno he.relational
  cases e with
  | constant v => exact hscalar (settles_constantValue v) rfl
  | null t => exact hscalar (settles_nullValue t) rfl
  | paramRef name t => exact hscalar (yields_pure fun _ _ => settled_bare rfl) rfl
  | varRef name t => exact yields_fail
  | property base name t => exact hscalar (settles_propertyValue h.valued.1) rfl
  | comparison op l r | and l r | or l r | like l r =>
    exact hscalar (settles_of_steps (Comparison.steps_binaryValue _ (htwo rfl rfl (List.subset_cons_self _ _)))) rfl
  | arithmetic op args =>
    exact hscalar (settles_of_steps
      (Comparison.steps_arithmeticValue op (hall h.valued.1 (.refl _) (List.subset_cons_self _ _)))) rfl
  | not e =>
    exact hscalar (settles_of_steps
      (Comparison.steps_one (hone rfl rfl (List.subset_cons_self _ _)) fun hx => (hR _).negate hx)) rfl
  | isNull e =>
    exact hscalar (settles_of_steps
      (Comparison.steps_one (hone rfl rfl (List.subset_cons_self _ _)) fun hx => (hR _).trailing _ hx)) rfl
  | isEmpty e =>
    exact hscalar (settles_of_steps (Comparison.steps_one (hone rfl rfl (List.subset_cons_self _ _))
      fun hx => (hR _).negate ((hR _).exists_ hx))) rfl
  | isIn item list =>
    refine hscalar (settles_of_steps (Comparison.steps_isInValue (hall ?_ (.refl _) (List.subset_cons_self _ _)))) rfl
    simpa [Expr.resolves, Expr.resolvesAll] using h.valued.1
  | cast e t =>
    refine hscalar
      (yields_bind (settles_of_steps (hone rfl rfl (List.subset_cons_self _ _) e (by simp) w)) fun _ ha => ?_) rfl
    refine yields_bind (Comparison.steps_lift (C := V.comparison 0) _ (Nat.zero_le _)) fun hu _ => ?_
    exact yields_pure fun t ht => (ha.later (hu.trans ht)).cast _
  | caseOf ws ts o => exact hscalar (settles_reducedCaseValue hp h.reduce) rfl
  | call f args t =>
    refine found_of_settles (settles_of_steps
      (Comparison.steps_callValue f t (hall h.valued.1 (.refl _) (List.subset_cons_self _ _)))) fun he => ?_
    cases he.notCall
  | element e =>
    obtain ⟨he, htest⟩ := h.element
    refine hscalar (yields_bind (hp e he w) fun hu ha => yields_pure fun t ht => ?_) rfl
    exact (ha.element htest).later ht
  | limit input count => exact hlimit input count rfl
  | newInstance t args =>
    rw [valueStep]
    split
    · rename_i hrow
      exact hquery hrow (by simp)
    · exact yields_fail
  | _ => exact hquery rfl (by simp)

/-! ## Lists of expressions -/

theorem settles_orderItems (hp : V.Values p) {keys : List SortKey} (hkeys : Expr.resolvesKeys none V.scope keys = true)
    (hfree : V.Free (Expr.bindersOfKeys keys)) (hnodes : Expr.everyNodeOfKeys V.test keys = true) :
    V.Yields w (orderItems p keys) fun t items => ∀ i ∈ items, V.Settled w.stages.length t i.expr := by
  induction keys generalizing w with
  | nil => exact yields_pure fun _ _ => by simp
  | cons key keys ih =>
    obtain ⟨e, ascending⟩ := key
    simp only [Expr.resolvesKeys, Bool.and_eq_true] at hkeys
    simp only [Expr.everyNodeOfKeys, Bool.and_eq_true] at hnodes
    refine yields_bind (hp.settles ⟨hkeys.1, hfree.left, hnodes.1⟩ w) fun hu ha => ?_
    refine yields_bind (ih hkeys.2 hfree.right hnodes.2) fun hv hitems => yields_pure fun t ht => ?_
    exact List.forall_mem_cons.mpr ⟨ha.later (hv.trans ht), fun i hi => ((hitems i hi).later ht).mono hu.length⟩

theorem settles_valuesOf {es : List Expr} (hes : (V.comparison w.stages.length).Compiles p.value p.value es) :
    V.Yields w (valuesOf p.value es) fun t values => ∀ a ∈ values, V.Settled w.stages.length t a :=
  yields_mono (Comparison.steps_valuesOf hes (Nat.le_refl _)) fun _ _ ⟨_, h⟩ => settled_of_alike h

theorem settles_aggregateValues (hp : V.Values p) {aggregates : List Aggregate}
    (h : Expr.resolvesAggregates none V.scope aggregates = true) (hfree : V.Free (Expr.bindersOfAggregates aggregates))
    (hnodes : Expr.everyNodeOfAggregates V.test aggregates = true) :
    V.Yields w (aggregateValues p aggregates) fun t values => ∀ a ∈ values, V.Settled w.stages.length t a := by
  induction aggregates generalizing w with
  | nil => exact yields_pure fun _ _ => by simp
  | cons a aggregates ih =>
    obtain ⟨f, args, distinct, t⟩ := a
    simp only [Expr.resolvesAggregates, Bool.and_eq_true] at h
    simp only [Expr.everyNodeOfAggregates, Bool.and_eq_true] at hnodes
    have hargs := hp.compiles_all (Expr.resolvesAll_iff.mp h.1) hfree.left (Expr.everyNodeOfAll_iff.mp hnodes.1)
      w.stages.length
    refine yields_bind (settles_of_steps (Comparison.steps_aggregateValue hargs)) fun hu ha => ?_
    refine yields_bind (ih h.2 hfree.right hnodes.2) fun hv hvalues => yields_pure fun t ht => ?_
    exact List.forall_mem_cons.mpr ⟨ha.later (hv.trans ht), fun i hi => ((hvalues i hi).later ht).mono hu.length⟩

/-- The columns of a row constructor have the names of the row type. -/
theorem yields_rowColumns {row : Expr}
    (hargs : ∀ t args, row = .newInstance t args → (V.comparison w.stages.length).Compiles p.value p.value args) :
    V.Yields w (rowColumns p row) fun t columns => columns.map (·.name) = row.rowNames ∧
      ∀ c ∈ columns, V.Settled w.stages.length t c.expr := by
  intro s columns u hw hok hrun
  have hnames := Site.names_rowColumns hrun
  obtain ⟨type, args, members, values, rfl, -, -, hvalues, rfl⟩ := rowColumns_inv hrun
  obtain ⟨hafter, hsettled⟩ := settles_valuesOf (hargs type args rfl) _ _ _ hw hok hvalues
  refine ⟨hafter, hnames, fun c hc => ?_⟩
  obtain ⟨a, ha, hexpr | hexpr⟩ := mem_columnValues (expr_mem_of_mem_columnsOf hc)
  · exact hexpr ▸ hsettled a ha
  · exact hexpr ▸ (hsettled a ha).cast _

end TreeSql.Compile.Vicinity
