import TreeSql.Proofs.Compile.Comparison
import TreeSql.Proofs.Compile.Operators
import TreeSql.Proofs.References.Site

/-
  TreeSql.Proofs.References.Values — the references of scalar expressions.

  A scalar expression refers to the columns that its properties become, and to the subqueries that the
  relations in it become; all else only puts these together (`yields_valueStep`). `Yields` says of a step
  that it leads to a later state and gives what it should, from every state in which the site is in order.
-/
namespace TreeSql.Compile

open Sql Postgres

namespace Site

variable {α β : Type} {S : Site} {s t u w : State}

/-! ## Steps -/

variable (S) in
/-- The references are visible here, and the subqueries closed. -/
def Fine (s : State) (e : SqlExpr) : Prop := Sql.Fine S.schema (S.floor ≤ ·) s.stages S.env e

variable (S) in
def FineAll (s : State) (es : List SqlExpr) : Prop := ∀ e ∈ es, S.Fine s e

variable (S) in
/-- After the state `w`, the step leads to later states and gives what is said. -/
def Yields (w : State) (m : CompileM α) (R : State → α → Prop) : Prop :=
  ∀ s a t, S.After w s → S.Ok s → Gives m S.context s a t → S.After s t ∧ R t a

theorem Fine.later {e : SqlExpr} (h : S.Fine s e) (ht : S.After s t) : S.Fine t e :=
  Sql.Fine.later h ht.grown

theorem FineAll.later {es : List SqlExpr} (h : S.FineAll s es) (ht : S.After s t) : S.FineAll t es :=
  fun e he => (h e he).later ht

theorem yields_pure {a : α} {R : State → α → Prop} (h : ∀ t, S.After w t → R t a) :
    S.Yields w (pure a) R := by
  intro s b t hw _ hrun
  obtain ⟨rfl, rfl⟩ := gives_pure.mp hrun
  exact ⟨.refl _, h _ hw⟩

theorem yields_bind {m : CompileM α} {f : α → CompileM β} {R : State → α → Prop} {R' : State → β → Prop}
    (hm : S.Yields w m R) (hf : ∀ {u a}, S.After w u → R u a → S.Yields u (f a) R') :
    S.Yields w (m >>= f) R' := by
  intro s b t hw hok hrun
  obtain ⟨a, u, hfirst, hrest⟩ := gives_bind.mp hrun
  obtain ⟨hsu, hR⟩ := hm _ _ _ hw hok hfirst
  obtain ⟨hut, hR'⟩ := hf (hw.trans hsu) hR _ _ _ (.refl u) (hok.after hsu) hrest
  exact ⟨hsu.trans hut, hR'⟩

theorem yields_fail {e : Error} {R : State → α → Prop} : S.Yields w (.fail e) R :=
  fun _ _ _ _ _ hrun => (not_gives_fail hrun).elim

theorem yields_mono {m : CompileM α} {R R' : State → α → Prop} (h : S.Yields w m R)
    (hR : ∀ t a, R t a → R' t a) : S.Yields w m R' := by
  intro s a t hw hok hrun
  obtain ⟨hafter, ha⟩ := h s a t hw hok hrun
  exact ⟨hafter, hR t a ha⟩

variable (S) in
/-- What is said of one compilation is that it has a counterpart. -/
def comparison : Comparison where
  World := State
  Le := S.After
  Alike w a _ := S.Fine w a
  Steps w m _ R := S.Yields w m fun t a => ∃ a', R t a a'
  refl := .refl
  trans := .trans
  later h ha := ha.later h
  congruence w := congruence_fine w.stages S.env
  pure h := yields_pure fun u hu => ⟨_, h u hu⟩
  bind hm hf := yields_bind hm fun hu ⟨_, ha⟩ => hf hu ha
  fail _ := yields_fail

theorem yields_fine {m m' : CompileM SqlExpr} (h : S.comparison.Steps w m m' S.comparison.Alike) :
    S.Yields w m S.Fine := yields_mono h fun _ _ ⟨_, ha⟩ => ha

theorem steps_fine {m m' : CompileM SqlExpr} (h : S.Yields w m S.Fine) :
    S.comparison.Steps w m m' S.comparison.Alike := yields_mono h fun _ a ha => ⟨a, ha⟩

theorem yields_fineAll {m m' : CompileM (List SqlExpr)} (h : S.comparison.Steps w m m' S.comparison.AlikeAll) :
    S.Yields w m S.FineAll := by
  refine yields_mono h fun t as ⟨bs, has⟩ a ha => ?_
  obtain ⟨i, hi, rfl⟩ := List.mem_iff_getElem.mp ha
  exact (List.forall₂_iff_get.mp has).2 i hi ((List.Forall₂.length_eq has) ▸ hi)

/-! ## Free names -/

variable (S) in
/-- The variables bound in an expression may be bound here. -/
structure Free (binders : List String) : Prop where
  fresh : Fresh S.taken S.drawn binders
  given : Given binders

theorem Free.subperm {xs ys : List String} (h : S.Free ys) (hsub : xs.Subperm ys) : S.Free xs :=
  ⟨h.fresh.subperm hsub, fun r hr => h.given r (hsub.subset hr)⟩

theorem Free.sublist {xs ys : List String} (h : S.Free ys) (hsub : xs.Sublist ys) : S.Free xs :=
  h.subperm hsub.subperm

theorem Free.left {xs ys : List String} (h : S.Free (xs ++ ys)) : S.Free xs :=
  h.sublist (List.sublist_append_left _ _)

theorem Free.right {xs ys : List String} (h : S.Free (xs ++ ys)) : S.Free ys :=
  h.sublist (List.sublist_append_right _ _)

theorem sublist_bindersOfAll {es : List Expr} {e : Expr} (h : e ∈ es) :
    e.binders.Sublist (Expr.bindersOfAll es) := by
  rw [Expr.bindersOfAll_eq_flatMap]
  exact List.sublist_flatten_of_mem (List.mem_map_of_mem h)

/-! ## All scalar expressions -/

section Steps

variable {p : Parts}

theorem yields_constantValue (v : Value) : S.Yields w (constantValue v) S.Fine := by
  intro s a t hw hok hrun
  rw [constantValue, gives_read_bind] at hrun
  split at hrun
  · obtain ⟨name, u, hlift, hlast⟩ := gives_bind.mp hrun
    obtain ⟨-, rfl⟩ := gives_liftConstant.mp hlift
    obtain ⟨rfl, rfl⟩ := gives_pure.mp hlast
    exact ⟨After.touch (.refl s) (touches_counters (Nat.le_refl _)), fine_of_no_leaves rfl⟩
  · obtain ⟨rfl, rfl⟩ := gives_pure.mp hrun
    exact ⟨.refl _, fine_of_no_leaves rfl⟩

theorem yields_nullValue (t : DataType) : S.Yields w (nullValue t) S.Fine := by
  intro s a t' hw hok hrun
  rw [nullValue, gives_read_bind, S.query] at hrun
  obtain ⟨type, u, hcast, hlast⟩ := gives_bind.mp hrun
  obtain ⟨-, rfl⟩ := gives_lift.mp hcast
  obtain ⟨rfl, rfl⟩ := gives_pure.mp hlast
  exact ⟨.refl _, fine_of_no_leaves rfl⟩

theorem yields_propertyValue {base : Expr} {name : String} (h : Expr.inScope S.scope base name = true) :
    S.Yields w (propertyValue base name) S.Fine := by
  intro s e t hw hok hrun
  rw [propertyValue, gives_read_bind, S.query] at hrun
  obtain ⟨hafter, qualifier, column, rfl, hvisible⟩ := gives_boundColumn hok h hrun
  refine ⟨hafter, fun r hr => ?_, fun id hid => by cases hid⟩
  obtain rfl : r = (qualifier, column) := by simpa [references_columnRef] using hr
  exact hvisible

variable (S) in
/-- Expressions that resolve here become values whose references are visible. -/
def Values (p : Parts) : Prop :=
  ∀ e, Expr.Valued S.schema S.scope e → S.Free e.binders → ∀ w, S.Yields w (p.value e) S.Fine

theorem Values.compiles (hp : S.Values p) {es : List Expr} (hes : ∀ e ∈ es, Expr.Valued S.schema S.scope e)
    (hfree : S.Free (Expr.bindersOfAll es)) : S.comparison.Compiles p.value p.value es :=
  fun e he w => steps_fine (hp e (hes e he) (hfree.sublist (sublist_bindersOfAll he)) w)

theorem Values.compiles_one (hp : S.Values p) {e : Expr} (he : Expr.Valued S.schema S.scope e)
    (hfree : S.Free e.binders) : S.comparison.Compiles p.value p.value [e] := fun e' he' w => by
  obtain rfl := List.mem_singleton.mp he'
  exact steps_fine (hp e' he hfree w)

theorem Values.compiles_two (hp : S.Values p) {l r : Expr} (hl : Expr.Valued S.schema S.scope l)
    (hr : Expr.Valued S.schema S.scope r) (hfree : S.Free (l.binders ++ r.binders)) :
    S.comparison.Compiles p.value p.value [l, r] := by
  refine hp.compiles (by simpa using ⟨hl, hr⟩) ?_
  simpa [Expr.bindersOfAll] using hfree

theorem yields_reducedCaseValue (hp : S.Values p) {e : Expr} (he : Expr.Valued S.schema S.scope e)
    (hfree : S.Free e.binders) : S.Yields w (reducedCaseValue p e) S.Fine := by
  cases e with
  | caseOf ws ts o =>
    obtain ⟨hw, ht, ho⟩ := Expr.resolves_caseOf.mp he.1
    have hfree' : S.Free (Expr.bindersOfAll ws ++ Expr.bindersOfAll ts ++ o.binders) := hfree
    exact yields_fine (Comparison.steps_caseValue (hp.compiles hw hfree'.left.left)
      (hp.compiles ht hfree'.left.right) (hp.compiles_one ho hfree'.right))
  | _ => exact hp _ he hfree w

/-- One level: the references of a value are visible if those of its parts are. -/
theorem yields_valueStep (hp : S.Values p) {e : Expr} (he : Expr.Valued S.schema S.scope e)
    (hfree : S.Free e.binders)
    (hquery : e.isRelational = true → S.Yields w (subqueryValue p e) S.Fine)
    (hlimit : ∀ input count, e = .limit input count → S.Yields w (limitValue p e) S.Fine) :
    S.Yields w (valueStep p e) S.Fine := by
  have hvalued {e' : Expr} (h : (e'.resolves S.schema S.scope && e'.carried S.schema) = true) :
      Expr.Valued S.schema S.scope e' := by simpa [Expr.Valued] using h
  have hboth {l r : Expr} (h : ((l.resolves S.schema S.scope && l.carried S.schema) &&
      (r.resolves S.schema S.scope && r.carried S.schema)) = true) :
      Expr.Valued S.schema S.scope l ∧ Expr.Valued S.schema S.scope r := by simpa [Expr.Valued] using h
  have hone {e' : Expr} (h : (e'.resolves S.schema S.scope && e'.carried S.schema) = true)
      (hbinders : e'.binders = e.binders) : S.comparison.Compiles p.value p.value [e'] :=
    hp.compiles_one (hvalued h) (hbinders ▸ hfree)
  have htwo {l r : Expr} (h : ((l.resolves S.schema S.scope && l.carried S.schema) &&
      (r.resolves S.schema S.scope && r.carried S.schema)) = true)
      (hbinders : l.binders ++ r.binders = e.binders) : S.comparison.Compiles p.value p.value [l, r] :=
    hp.compiles_two (hboth h).1 (hboth h).2 (hbinders ▸ hfree)
  have hall {es : List Expr} (hes : Expr.resolvesAll S.schema S.scope es = true)
      (hbinders : Expr.bindersOfAll es = e.binders) : S.comparison.Compiles p.value p.value es :=
    hp.compiles (Expr.resolvesAll_iff.mp hes) (hbinders ▸ hfree)
  have hR := S.comparison.congruence
  cases e with
  | constant v => exact yields_constantValue v
  | null t => exact yields_nullValue t
  | paramRef name t => exact yields_pure fun _ _ => fine_of_no_leaves rfl
  | varRef name t => exact yields_fail
  | property base name t => exact yields_propertyValue he.1
  | comparison op l r => exact yields_fine (Comparison.steps_binaryValue _ (htwo he.1 rfl))
  | and l r => exact yields_fine (Comparison.steps_binaryValue _ (htwo he.1 rfl))
  | or l r => exact yields_fine (Comparison.steps_binaryValue _ (htwo he.1 rfl))
  | like l r => exact yields_fine (Comparison.steps_binaryValue _ (htwo he.1 rfl))
  | arithmetic op args => exact yields_fine (Comparison.steps_arithmeticValue op (hall he.1 rfl))
  | not e => exact yields_fine (Comparison.steps_one (hone he.1 rfl) fun hx => (hR _).negate hx)
  | isNull e => exact yields_fine (Comparison.steps_one (hone he.1 rfl) fun hx => (hR _).trailing _ hx)
  | isEmpty e =>
    exact yields_fine (Comparison.steps_one (hone he.1 rfl) fun hx => (hR _).negate ((hR _).exists_ hx))
  | isIn item list =>
    refine yields_fine (Comparison.steps_isInValue (hall ?_ rfl))
    simpa [Expr.resolves, Expr.resolvesAll] using he.1
  | cast e t =>
    refine yields_bind (yields_fine (hone he.1 rfl e (by simp) w)) fun _ hx => ?_
    refine yields_bind (Comparison.steps_lift (C := S.comparison) _) fun hu _ => ?_
    exact yields_pure fun t ht => (hR t).cast (a := _) (b := .verbatim "") (hx.later (hu.trans ht)) _
  | caseOf ws ts o =>
    exact yields_reducedCaseValue hp (Expr.valued_reduce he) (hfree.subperm (Expr.binders_reduce _))
  | call f args t => exact yields_fine (Comparison.steps_callValue f t (hall he.1 rfl))
  | element e =>
    exact yields_fine
      (Comparison.steps_one (hone he.1 rfl) fun hx => fine_iff_leaves.mpr fun x => fine_iff_leaves.mp hx x)
  | limit input count => exact hlimit input count rfl
  | newInstance t args =>
    rw [valueStep]
    split
    · rename_i hrow
      exact hquery hrow
    · exact yields_fail
  | _ => exact hquery rfl

end Steps

/-! ## Clauses -/

section Clauses

variable {p : Parts}

variable (S) in
def FineColumns (s : State) (columns : List Column) : Prop := ∀ c ∈ columns, S.Fine s c.expr

variable (S) in
def FineItems (s : State) (items : List OrderItem) : Prop := ∀ i ∈ items, S.Fine s i.expr

theorem yields_orderItems (hp : S.Values p) {keys : List SortKey}
    (hkeys : Expr.resolvesKeys S.schema S.scope keys = true)
    (hfree : S.Free (Expr.bindersOfKeys keys)) :
    S.Yields w (orderItems p keys) S.FineItems := by
  induction keys generalizing w with
  | nil => exact yields_pure fun _ _ _ h => by cases h
  | cons key keys ih =>
    obtain ⟨e, ascending⟩ := key
    simp only [Expr.resolvesKeys, Bool.and_eq_true] at hkeys
    obtain ⟨he, hkeys⟩ := hkeys
    have he : Expr.Valued S.schema S.scope e := by simpa [Expr.Valued] using he
    refine yields_bind (hp e he hfree.left w) fun _ hx => ?_
    refine yields_bind (ih hkeys hfree.right) fun hu hitems => ?_
    refine yields_pure fun _ ht i hi => ?_
    rcases List.mem_cons.mp hi with rfl | hi
    · exact hx.later (hu.trans ht)
    · exact (hitems i hi).later ht

theorem yields_aggregateValues (hp : S.Values p) {aggregates : List Aggregate}
    (h : Expr.resolvesAggregates S.schema S.scope aggregates = true)
    (hfree : S.Free (Expr.bindersOfAggregates aggregates)) :
    S.Yields w (aggregateValues p aggregates) S.FineAll := by
  induction aggregates generalizing w with
  | nil => exact yields_pure fun _ _ _ h => by cases h
  | cons a aggregates ih =>
    obtain ⟨f, args, distinct, t⟩ := a
    simp only [Expr.resolvesAggregates, Bool.and_eq_true] at h
    obtain ⟨hargs, haggregates⟩ := h
    have hcompiles := hp.compiles (Expr.resolvesAll_iff.mp hargs) hfree.left
    refine yields_bind (yields_fine (Comparison.steps_aggregateValue hcompiles)) fun _ ha => ?_
    refine yields_bind (ih haggregates hfree.right) fun hu has => ?_
    refine yields_pure fun _ ht e he => ?_
    rcases List.mem_cons.mp he with rfl | he
    · exact ha.later (hu.trans ht)
    · exact (has e he).later ht

theorem fine_columnValue (arg : Expr) {e : SqlExpr} (h : S.Fine s e) : S.Fine s (columnValue arg e) := by
  unfold columnValue
  split
  · exact @Congruence.cast _ (congruence_fine _ _) e e h _
  · exact h

theorem fine_columnsOf (members : List Member) {values : List SqlExpr} (h : S.FineAll s values) :
    S.FineColumns s (columnsOf members values) := by
  intro c hc
  obtain ⟨i, hi, rfl⟩ := List.mem_iff_getElem.mp hc
  simp only [columnsOf, List.getElem_zipWith]
  exact h _ (List.getElem_mem _)

theorem fine_columnValues (args : List Expr) {values : List SqlExpr} (h : S.FineAll s values) :
    S.FineAll s (args.zipWith columnValue values) := by
  intro e he
  obtain ⟨i, hi, rfl⟩ := List.mem_iff_getElem.mp he
  rw [List.getElem_zipWith]
  exact fine_columnValue _ (h _ (List.getElem_mem _))

/-- The columns of a row constructor have the names of the row type. -/
theorem names_rowColumns {c : Context} {row : Expr} {columns : List Column}
    (h : Gives (rowColumns p row) c s columns t) : columns.map (·.name) = row.rowNames := by
  obtain ⟨type, args, members, values, rfl, hmembers, hlength, hvalues, rfl⟩ := rowColumns_inv h
  rw [names_columnsOf (hlength.trans (length_columnValues hvalues).symm), Expr.rowNames, DataType.memberNames, hmembers]
  rfl

theorem yields_rowColumns (hp : S.Values p) {row : Expr} (he : row.resolves S.schema S.scope = true)
    (hfree : S.Free row.binders) :
    S.Yields w (rowColumns p row) fun t columns =>
      S.FineColumns t columns ∧ columns.map (·.name) = row.rowNames := by
  intro s columns t hw hok hrun
  have hnames := names_rowColumns hrun
  obtain ⟨type, args, members, values, rfl, -, -, hvalues, rfl⟩ := rowColumns_inv hrun
  have hcompiles := hp.compiles (Expr.resolvesAll_iff.mp he) hfree
  obtain ⟨hafter, hfine⟩ := yields_fineAll (Comparison.steps_valuesOf hcompiles) _ _ _ hw hok hvalues
  exact ⟨hafter, fine_columnsOf members (fine_columnValues args hfine), hnames⟩

end Clauses

end Site

end TreeSql.Compile
