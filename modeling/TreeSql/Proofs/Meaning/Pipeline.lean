import TreeSql.Proofs.Compile.Operators
import TreeSql.Proofs.Meaning.Opening

/-
  TreeSql.Proofs.Meaning.Pipeline — chains of filters, projections, orders and limits over one table.

  `Functions.applied` applies the operators of a chain one after another to whole rows. The stages
  that are built for a chain give the same rows when they are read over whole rows (`gives_pipeline`):
  each clause goes to a stage that can take it, and a stage put around it changes nothing.
-/
namespace TreeSql

open Sql Compile

/-! ## Chains -/

/-- A chain of operators over one table. Predicates, keys and values are scalar, and counts do not see
    the rows. -/
def Expr.isPipeline : Expr → Bool
  | scan _ => true
  | filter ⟨e, x⟩ p => e.isPipeline && p.readsOnly [x]
  | project ⟨e, x⟩ (newInstance _ args) => e.isPipeline && readsOnlyAll [x] args
  | sort ⟨e, x⟩ keys => e.isPipeline && keys.all fun k => k.expr.readsOnly [x]
  | skip ⟨e, x⟩ keys n => e.isPipeline && (keys.all fun k => k.expr.readsOnly [x]) && n.readsOnly []
  | limit e n => e.isPipeline && n.readsOnly []
  | distinct e => e.isPipeline
  | _ => false
termination_by structural e => e

namespace Sql.Functions

variable {V : Type} [DecidableEq V] (F : Functions V) (lifted : List Value) (table : List (Row V))

/-- The rows that the operators of a chain make of the rows of its table. -/
def applied : Expr → Except Error (List (Row V))
  | .scan _ => return table
  | .filter ⟨e, x⟩ p => do
    let rows ← applied e
    let condition ← direct [x] (value p)
    return (F.meaning lifted).apply (.filter condition) rows
  | .project ⟨e, x⟩ row => do
    let rows ← applied e
    let columns ← direct [x] (rowColumns allParts row)
    return (F.meaning lifted).apply (.project columns) rows
  | .sort ⟨e, x⟩ keys => do
    let rows ← applied e
    let items ← direct [x] (orderItems allParts keys)
    return (F.meaning lifted).apply (.sort items) rows
  | .skip ⟨e, x⟩ keys n => do
    let rows ← applied e
    let items ← direct [x] (orderItems allParts keys)
    let count ← direct [] (value n)
    return (F.meaning lifted).apply (.skip items count) rows
  | .limit e n => do
    let rows ← applied e
    let count ← direct [] (value n)
    return (F.meaning lifted).apply (.limit count) rows
  | .distinct e => do
    let rows ← applied e
    return (F.meaning lifted).apply .distinct rows
  | e => throw (.notAnInput e.kind)
termination_by structural e => e

/-- Skipping is sorting and then leaving out the first rows. -/
theorem applied_skip (e : Expr) (x : String) (keys : List SortKey) (n : Expr) :
    F.applied lifted table (.skip ⟨e, x⟩ keys n) = (do
      let rows ← F.applied lifted table (.sort ⟨e, x⟩ keys)
      let count ← direct [] (value n)
      return rows.drop (((F.meaning lifted).count count).getD 0)) := by
  show (F.applied lifted table e).bind _ = ((F.applied lifted table e).bind _).bind _
  cases F.applied lifted table e with
  | error _ => rfl
  | ok rows =>
    show (direct [x] (orderItems allParts keys)).bind _ =
      ((direct [x] (orderItems allParts keys)).bind _).bind _
    cases direct [x] (orderItems allParts keys) with
    | error _ => rfl
    | ok items => rfl

/-- Sort keys tell apart the rows that they sort. -/
def KeysTell : Except Error (List (Row V)) → Except Error (List OrderItem) → Prop
  | .ok rows, .ok items => (F.meaning lifted).Strict items rows
  | _, _ => True

instance (rows : Except Error (List (Row V))) (items : Except Error (List OrderItem)) :
    Decidable (F.KeysTell lifted rows items) :=
  match rows, items with
  | .ok rows, .ok items => inferInstanceAs (Decidable ((F.meaning lifted).Strict items rows))
  | .ok _, .error _ | .error _, _ => isTrue trivial

/-- All sort keys of a chain tell apart the rows that they sort. -/
def StrictOrders : Expr → Prop
  | .filter ⟨e, _⟩ _ | .project ⟨e, _⟩ _ | .limit e _ | .distinct e => StrictOrders e
  | .sort ⟨e, x⟩ keys | .skip ⟨e, x⟩ keys _ =>
    StrictOrders e ∧ F.KeysTell lifted (F.applied lifted table e) (direct [x] (orderItems allParts keys))
  | _ => True
termination_by structural e => e

end Sql.Functions

namespace Compile

variable {V : Type} [DecidableEq V] (F : Functions V) (table : List (Row V))

/-- Over whole rows, the open stage of a node gives the rows of a chain. -/
structure Realizes (s : State) (e : Expr) (node : NodeId) (n : Node) : Prop where
  held : Held s node n
  rows : ∀ lifted, s.lifted <+: lifted → F.StrictOrders lifted table e →
    F.applied lifted table e = .ok (s.stages.rows (F.meaning lifted) table whole n.last.stage)

/-- A chain was built: from the first state on, constants were lifted and the node was made. -/
def Builds (s : State) (e : Expr) (node : NodeId) (t : State) : Prop :=
  ∃ n, Realizes F table t e node n ∧ Unpulled t n ∧ s.lifted <+: t.lifted

variable {F table}

namespace Realizes

variable {s t : State} {e e' : Expr} {node : NodeId} {n n' : Node}

/-- Bindings and aliases do not count. -/
theorem congr (h : Realizes F table s e node n) (hnodes : t.nodes = s.nodes)
    (hstages : t.stages = s.stages) (hlifted : s.lifted <+: t.lifted) : Realizes F table t e node n where
  held := ⟨hnodes ▸ h.held.node, hstages ▸ h.held.stacked, hstages ▸ h.held.layered⟩
  rows lifted hl hstrict := by
    rw [hstages]
    exact h.rows lifted (hlifted.trans hl) hstrict

theorem opened (h : Realizes F table s e node n) (ht : Opened s t node n n') :
    Realizes F table t e node n' where
  held := ht.held
  rows lifted hl hstrict := by
    rw [ht.rows]
    exact h.rows lifted (ht.lifted ▸ hl) hstrict

theorem later {ids : List Nat} (h : Realizes F table s e node n) (ht : Later ids s t)
    (hheld : Held t node n) : Realizes F table t e node n where
  held := hheld
  rows lifted hl hstrict := by
    rw [rows_later h.held ht]
    exact h.rows lifted (ht.lifted.trans hl) hstrict

/-- A clause of the open stage makes the next operator of the chain. -/
theorem attach (h : Realizes F table s e node n) {f : Stage → Stage}
    (hf : Attaches s.stages n (s.stages.get n.last.stage) (f (s.stages.get n.last.stage)))
    (hstep : ∀ lifted, s.lifted <+: lifted → F.StrictOrders lifted table e' →
      F.StrictOrders lifted table e ∧ ∀ rows,
        F.applied lifted table e = .ok ((F.meaning lifted).select (s.stages.get n.last.stage) rows) →
          F.applied lifted table e' = .ok ((F.meaning lifted).select (f (s.stages.get n.last.stage)) rows)) :
    Realizes F table (attaching s n f) e' node n where
  held := h.held.attach hf
  rows lifted hl hstrict := by
    obtain ⟨hstrict', hrows⟩ := hstep lifted hl hstrict
    obtain ⟨rows, hold, hnew⟩ := rows_attach (F.meaning lifted) table h.held hf
    rw [hnew]
    refine hrows rows ?_
    rw [← hold]
    exact h.rows lifted hl hstrict'

end Realizes

/-! ## Scalar steps in between -/

section Scalars

variable {c : Context} {s t : State} {e : Expr} {x : String} {node : NodeId} {n : Node}

/-- The columns of a node in the scope of its open stage. -/
def openWorld (hquery : c.mode = .query) (hscopes : c.scopes = []) (x : String) (h : Held s node n) :
    World :=
  pullWorld { c with scopes := n.last.stage :: c.scopes } x node n (belowLast n) [n.last] hquery
    (by simp [InScope])
    (fun a ha => by
      have hne : a.stage ≠ n.last.stage := Nat.ne_of_lt (h.stacked.below_lt a ha)
      simp [hscopes, hne])
    (selects_eq n)

/-- A scalar step in the scope of the open stage. -/
theorem Realizes.inOpen {α : Type} {m m₀ : CompileM α} {a : α} {R : State → α → α → Prop}
    (hquery : c.mode = .query) (hscopes : c.scopes = []) (h : Realizes F table s e node n)
    (hopen : Unpulled s n) (hx : s.bindings.lookup x = some node)
    (hm : (openWorld hquery hscopes x h.held).Follows s m m₀ R)
    (hrun : Gives (inScope n.last.stage m) c s a t) :
    Realizes F table t e node n ∧ Unpulled t n ∧ t.stages.get n.last.stage = s.stages.get n.last.stage ∧
      s.lifted <+: t.lifted ∧ ∃ a₀, direct [x] m₀ = .ok a₀ ∧ R t a a₀ := by
  obtain ⟨hok, hlater, ha⟩ := hm.direct ⟨hx, h.held.node, h.held.stacked, h.held.layered⟩
    (gives_inScope.mp hrun)
  have hst := get_later h.held hlater
  refine ⟨h.later hlater ⟨hok.node, hok.stacked, hok.layered⟩, ?_, hst, hlater.lifted, ha⟩
  unfold Unpulled
  rw [hst]
  exact hopen

theorem PulledIn.eq_of_nil {A B : Stages} (h : PulledIn [] A B) : B = A := by
  refine List.ext_getElem h.length fun i hi hi' => ?_
  have := h.same i (by simp)
  simpa [Stages.get, List.getElem?_eq_getElem hi, List.getElem?_eq_getElem hi'] using this

/-- A row count sees no columns. -/
theorem gives_count {k : Nat} {a : SqlExpr} (hquery : c.mode = .query) (he : e.readsOnly [] = true)
    (hrun : Gives ((partsTo k).value e) c s a t) :
    t.nodes = s.nodes ∧ t.stages = s.stages ∧ t.bindings = s.bindings ∧ s.lifted <+: t.lifted ∧
      ∃ a₀, direct [] (value e) = .ok a₀ ∧
        ∀ lifted, t.lifted <+: lifted → a.unqualified lifted = a₀.unqualified lifted := by
  have hfollows : (closedWorld c hquery).Follows s ((partsTo k).value e) (value e) _ :=
    World.follows_value he
  obtain ⟨-, hlater, a₀, ha₀, hreads⟩ := hfollows.direct trivial hrun
  exact ⟨hlater.nodes, hlater.stages.eq_of_nil, hlater.bindings, hlater.lifted, a₀, ha₀, hreads.same⟩

end Scalars

/-! ## What the clauses refer to -/

section Reads

variable {s : Stage} {r : String}

theorem mem_reads_addCondition {p : SqlExpr} (h : r ∈ (addCondition p s).reads) :
    r ∈ s.reads ∨ r ∈ p.columns := by
  simp only [Stage.reads, addCondition, Option.elim_some, List.mem_append] at h ⊢
  cases hw : s.where_ with
  | none =>
    simp only [hw] at h
    tauto
  | some q =>
    simp only [hw, SqlExpr.columns, List.mem_append] at h
    simp only [Option.elim_some]
    tauto

theorem mem_reads_orderBy {items : List OrderItem} (h : r ∈ { s with orderBy := some items }.reads) :
    r ∈ s.reads ∨ r ∈ items.flatMap fun i => i.expr.columns := by
  simp only [Stage.reads, Option.elim_some, List.mem_append] at h ⊢
  tauto

theorem mem_reads_projection {columns : List Column} (h : r ∈ { s with projection := some columns }.reads) :
    r ∈ s.reads ∨ r ∈ Stage.listReads columns := by
  simp only [Stage.reads, Option.getD_some, List.mem_append] at h ⊢
  tauto

theorem mem_reads_expose {source : String} {names : List String} (h : r ∈ (s.expose source names).reads) :
    r ∈ s.reads ∨ r ∈ names := by
  induction names generalizing s with
  | nil => exact .inl h
  | cons name names ih =>
    rw [expose_cons] at h
    rcases ih h with h | h
    · rcases reads_expose h with h | ⟨rfl, -⟩
      · exact .inl h
      · exact .inr (.head _)
    · exact .inr (.tail _ h)

end Reads

section Lists

variable {W : World} {s : State}

theorem World.ReadsItems.shown {is js : List OrderItem} (h : W.ReadsItems s is js) :
    ∀ name ∈ is.flatMap (fun i => i.expr.columns), W.Shown s name := by
  induction h with
  | nil =>
    intro name hname
    cases hname
  | cons hij _ ih =>
    intro name hname
    rcases List.mem_append.mp hname with hname | hname
    · exact hij.1.shown name hname
    · exact ih name hname

theorem World.ReadsItems.same {is js : List OrderItem} (h : W.ReadsItems s is js) {lifted : List Value}
    (hl : s.lifted <+: lifted) : Functions.SameItems lifted is js :=
  List.Forall₂.imp (fun _ _ hij => ⟨hij.1.same lifted hl, hij.2⟩) h

theorem World.ReadsColumns.shown {cs ds : List Column} (h : W.ReadsColumns s cs ds) :
    ∀ name ∈ Stage.listReads cs, W.Shown s name := by
  induction h with
  | nil =>
    intro name hname
    cases hname
  | cons hcd _ ih =>
    intro name hname
    rcases List.mem_append.mp hname with hname | hname
    · exact hcd.1.shown name hname
    · exact ih name hname

theorem World.ReadsColumns.same {cs ds : List Column} (h : W.ReadsColumns s cs ds) {lifted : List Value}
    (hl : s.lifted <+: lifted) : Functions.SameColumns lifted cs ds :=
  List.Forall₂.imp (fun _ _ hcd => ⟨hcd.1.same lifted hl, hcd.2⟩) h

end Lists

/-! ## The operators of a chain -/

section Operators

variable {c : Context} {s t : State} {k : Nat} {e : Expr} {x var : String} {node : NodeId} {n : Node}
  (hquery : c.mode = .query) (hscopes : c.scopes = [])

variable (F table) in
/-- What is known about the input of an operator, one level below. -/
def InputBuilds (c : Context) (k : Nat) (e : Expr) : Prop :=
  ∀ s t node var, Layered s.stages → Gives ((partsTo k).rows e var) c s node t →
    Builds F table s e node t ∧ t.bindings.lookup var = some node

/-- A stage that can take a filter or an order works on whole rows and has no window. -/
theorem bare_of_compatible {st : Stage} (h : Clause.filter.compatible st = true ∨
    Clause.sort.compatible st = true ∨ (Clause.skip.compatible st = true ∧ st.groupBy = none)) :
    st.projection = none ∧ st.groupBy = none ∧ st.skip = none ∧ st.limit = none := by
  rcases h with h | h | ⟨h, hgroup⟩
  · simpa [Clause.compatible, and_assoc] using h
  · simpa [Clause.compatible, and_assoc] using h
  · simp only [Clause.compatible, Bool.and_eq_true, Option.isNone_iff_eq_none] at h
    exact ⟨h.1.1, hgroup, h.1.2, h.2⟩

include hquery hscopes in
theorem gives_filterRows {p : Expr} (ih : InputBuilds F table c k e) (hp : p.readsOnly [x] = true)
    (hs : Layered s.stages) (hrun : Gives (filterRows (partsTo k) ⟨e, x⟩ p var) c s node t) :
    Builds F table s (.filter ⟨e, x⟩ p) node t := by
  obtain ⟨s₁, stage, s₂, condition, s₃, hrows, hopens, hscalar, rfl⟩ := filterRows_inv hrun
  obtain ⟨⟨n, hn, hopen, hl₁⟩, hx⟩ := ih _ _ _ _ hs hrows
  obtain ⟨n', rfl, hopened, hc⟩ := gives_openFor hn.held hopen hopens
  obtain ⟨hn₃, hopen₃, hst, hl₃, p₀, hp₀, hreads⟩ := (hn.opened hopened).inOpen hquery hscopes
    hopened.unpulled (hopened.bindings ▸ hx) (World.follows_value hp) hscalar
  rw [← hst] at hc
  obtain ⟨hnone, hgroup, hskip, hlimit⟩ := bare_of_compatible (.inl hc)
  have hf : Attaches s₃.stages n' (s₃.stages.get n'.last.stage)
      (addCondition condition (s₃.stages.get n'.last.stage)) :=
    hn₃.held.attaches hopen₃ rfl rfl (fun h => h) rfl (fun h => h) fun r hr =>
      (mem_reads_addCondition hr).imp_right fun hr => ⟨hnone, fun a ha => hreads.shown r hr a ha⟩
  refine ⟨n', hn₃.attach hf fun lifted hl hstrict => ⟨hstrict, fun rows hrows => ?_⟩,
    unpulled_attaching hn₃.held hf, ?_⟩
  · rw [Functions.applied, hrows, hp₀]
    show Except.ok _ = Except.ok _
    rw [Meaning.select_addCondition _ _ hnone hskip hlimit]
    congr 1
    exact List.filter_congr fun r _ => (F.holds_congr (hreads.same lifted hl) r).symm
  · exact (hl₁.trans (hopened.lifted ▸ List.prefix_refl _)).trans hl₃

/-- The open stage takes an order. -/
theorem gives_orderBy {keys : List SortKey} {u : Unit} (hquery : c.mode = .query)
    (hscopes : c.scopes = []) (h : Realizes F table s e node n) (hopen : Unpulled s n)
    (hx : s.bindings.lookup x = some node) (hkeys : ∀ key ∈ keys, key.expr.readsOnly [x] = true)
    (hnone : (s.stages.get n.last.stage).projection = none)
    (hskip : (s.stages.get n.last.stage).skip = none)
    (hlimit : (s.stages.get n.last.stage).limit = none)
    (hrun : Gives (orderBy (partsTo k) n.last.stage keys) c s u t) :
    Realizes F table t (.sort ⟨e, x⟩ keys) node n ∧ Unpulled t n ∧ s.lifted <+: t.lifted ∧
      ∃ items, t.stages.get n.last.stage = { s.stages.get n.last.stage with orderBy := some items } := by
  obtain ⟨items, s₁, hscalar, rfl⟩ := orderBy_inv hrun
  obtain ⟨hn₁, hopen₁, hst, hl₁, items₀, hitems₀, hreads⟩ := h.inOpen hquery hscopes hopen hx
    (World.follows_orderItems hkeys) hscalar
  have hf : Attaches s₁.stages n (s₁.stages.get n.last.stage)
      { s₁.stages.get n.last.stage with orderBy := some items } := by
    refine hn₁.held.attaches hopen₁ rfl rfl (fun h => h) rfl (fun h => h) fun r hr => ?_
    exact (mem_reads_orderBy hr).imp_right fun hr => ⟨hst ▸ hnone, fun a ha => hreads.shown r hr a ha⟩
  refine ⟨hn₁.attach hf fun lifted hl hstrict => ⟨hstrict.1, fun rows hrows => ?_⟩,
    unpulled_attaching hn₁.held hf, hl₁, items, ?_⟩
  · have hsame := hreads.same hl
    have hstrict' := hstrict.2
    rw [hrows, hitems₀] at hstrict'
    rw [hst] at hstrict' hrows ⊢
    rw [Functions.applied, hrows, hitems₀]
    show Except.ok _ = Except.ok _
    rw [Meaning.select_orderBy _ hnone hskip hlimit, F.ordered_congr hsame]
    · rfl
    · intro a ha b hb
      rw [F.before_congr hsame, F.before_congr hsame]
      exact hstrict' a ha b hb
  · exact (get_attaching hn₁.held _).trans (by rw [if_pos rfl, hst])

include hquery hscopes in
theorem gives_sortRows {keys : List SortKey} (ih : InputBuilds F table c k e)
    (hkeys : ∀ key ∈ keys, key.expr.readsOnly [x] = true) (hs : Layered s.stages)
    (hrun : Gives (sortRows (partsTo k) ⟨e, x⟩ keys var) c s node t) :
    Builds F table s (.sort ⟨e, x⟩ keys) node t := by
  obtain ⟨s₁, stage, s₂, hrows, hopens, horder⟩ := sortRows_inv hrun
  obtain ⟨⟨n, hn, hopen, hl₁⟩, hx⟩ := ih _ _ _ _ hs hrows
  obtain ⟨n', rfl, hopened, hc⟩ := gives_openFor hn.held hopen hopens
  obtain ⟨hnone, -, hskip, hlimit⟩ := bare_of_compatible (.inr (.inl hc))
  obtain ⟨hn₃, hopen₃, hl₃, -⟩ := gives_orderBy hquery hscopes (hn.opened hopened) hopened.unpulled
    (hopened.bindings ▸ hx) hkeys hnone hskip hlimit horder
  exact ⟨n', hn₃, hopen₃, (hl₁.trans (hopened.lifted ▸ List.prefix_refl _)).trans hl₃⟩

omit [DecidableEq V] in
theorem select_offset {ρ : Type} [DecidableEq ρ] (I : Meaning ρ V) {st : Stage} (count : SqlExpr)
    (hnone : st.projection = none) (hskip : st.skip = none) (hlimit : st.limit = none) (rows : List ρ) :
    I.select { st with skip := some count } rows = (I.select st rows).drop ((I.count count).getD 0) := by
  rw [I.select_whole (s := { st with skip := some count }) hnone, I.select_whole hnone,
    I.window_none hskip hlimit]
  unfold Meaning.window
  show takeTo (st.limit.bind I.count) _ = _
  rw [hlimit]
  rfl

include hquery hscopes in
theorem gives_skipRows {keys : List SortKey} {m : Expr} (ih : InputBuilds F table c k e)
    (hkeys : ∀ key ∈ keys, key.expr.readsOnly [x] = true) (hm : m.readsOnly [] = true)
    (hs : Layered s.stages) (hrun : Gives (skipRows (partsTo k) ⟨e, x⟩ keys m var) c s node t) :
    Builds F table s (.skip ⟨e, x⟩ keys m) node t := by
  obtain ⟨s₁, stage, s₂, s₃, count, s₄, hrows, hopens, horder, hscalar, rfl⟩ := skipRows_inv hrun
  obtain ⟨⟨n, hn, hopen, hl₁⟩, hx⟩ := ih _ _ _ _ hs hrows
  obtain ⟨n', rfl, hopened, hc⟩ := gives_openFor hn.held hopen hopens
  have hgroup := (hopened.held.layered _ hopened.held.stacked.bound_last).ungrouped
  obtain ⟨hnone, -, hskip, hlimit⟩ := bare_of_compatible (.inr (.inr ⟨hc, hgroup⟩))
  obtain ⟨hn₃, hopen₃, hl₃, items, hst⟩ := gives_orderBy hquery hscopes (hn.opened hopened)
    hopened.unpulled (hopened.bindings ▸ hx) hkeys hnone hskip hlimit horder
  obtain ⟨hnodes, hstages, -, hl₄, m₀, hm₀, hsame⟩ := gives_count hquery hm hscalar
  have hn₄ := hn₃.congr hnodes hstages hl₄
  have hopen₄ : Unpulled s₄ n' := by
    unfold Unpulled
    rw [hstages]
    exact hopen₃
  rw [← hstages] at hst
  have hf : Attaches s₄.stages n' (s₄.stages.get n'.last.stage)
      { s₄.stages.get n'.last.stage with skip := some count } :=
    hn₄.held.attaches hopen₄ rfl rfl (fun h => h) rfl (fun h => h) fun r hr => .inl hr
  refine ⟨n', hn₄.attach hf fun lifted hl hstrict => ⟨hstrict, fun rows hrows => ?_⟩,
    unpulled_attaching hn₄.held hf, ?_⟩
  · rw [select_offset _ _ (hst ▸ hnone) (hst ▸ hskip) (hst ▸ hlimit), F.count_congr (hsame lifted hl)]
    rw [F.applied_skip, hrows, hm₀]
    rfl
  · exact ((hl₁.trans (hopened.lifted ▸ List.prefix_refl _)).trans hl₃).trans hl₄

include hquery in
theorem gives_limitRows {m : Expr} (ih : InputBuilds F table c k e) (hm : m.readsOnly [] = true)
    (hs : Layered s.stages) (hrun : Gives (limitRows (partsTo k) e m) c s node t) :
    Builds F table s (.limit e m) node t := by
  obtain ⟨label, s₀, _, last, s₁, count, s₂, hlabel, hrows, hlast, hscalar, rfl⟩ := limitRows_inv hrun
  obtain ⟨-, rfl⟩ := gives_nextAlias.mp hlabel
  obtain ⟨⟨n, hn, hopen, hl₁⟩, -⟩ := ih { s with aliases := s.aliases + 1 } _ _ _ hs hrows
  obtain ⟨rfl, rfl⟩ := hn.held.openStage_eq hlast
  obtain ⟨hnodes, hstages, -, hl₂, m₀, hm₀, hsame⟩ := gives_count hquery hm hscalar
  have hn₂ := hn.congr hnodes hstages hl₂
  have hopen₂ : Unpulled s₂ n := by
    unfold Unpulled
    rw [hstages]
    exact hopen
  have hf : Attaches s₂.stages n (s₂.stages.get n.last.stage)
      (addLimit count (s₂.stages.get n.last.stage)) :=
    hn₂.held.attaches hopen₂ rfl rfl (fun h => h) rfl (fun h => h) fun r hr => .inl hr
  refine ⟨n, hn₂.attach hf fun lifted hl hstrict => ⟨hstrict, fun rows hrows => ?_⟩,
    unpulled_attaching hn₂.held hf, hl₁.trans hl₂⟩
  rw [Meaning.select_addLimit, F.count_congr (hsame lifted hl), Functions.applied, hrows, hm₀]
  rfl

/-! ### DISTINCT -/

omit [DecidableEq V] in
/-- Pulling columns does not count for what a stage selects. -/
theorem select_distinct_expose {ρ : Type} [DecidableEq ρ] (I : Meaning ρ V) {st : Stage}
    (source : String) (names : List String) (rows : List ρ) :
    I.select { st.expose source names with distinct := true } rows =
      I.select { st with distinct := true } rows := by
  rw [(wider_expose st source names).rest]
  rfl

theorem Realizes.distinct (h : Realizes F table s e node n) {f : Stage → Stage}
    (hf : Attaches s.stages n (s.stages.get n.last.stage) (f (s.stages.get n.last.stage)))
    (hselect : ∀ lifted rows, (F.meaning lifted).select (f (s.stages.get n.last.stage)) rows =
      distinctBy id ((F.meaning lifted).select (s.stages.get n.last.stage) rows)) :
    Realizes F table (attaching s n f) (.distinct e) node n := by
  refine h.attach hf fun lifted _ hstrict => ⟨hstrict, fun rows hrows => ?_⟩
  rw [Functions.applied, hrows, hselect]
  rfl

/-- A stage around a node selects distinct rows of the columns that the closed one shows. -/
theorem Wrapped.attaches_distinct {n' : Node} (h : Wrapped s t node n n') (hs : Held s node n) :
    Attaches t.stages n' (t.stages.get n'.last.stage)
      { (t.stages.get n'.last.stage).expose n.last.name (s.stages.get n.last.stage).outputNames with
        distinct := true } := by
  have hwider := wider_expose (t.stages.get n'.last.stage) n.last.name (s.stages.get n.last.stage).outputNames
  have hplain : Plain n.last.name (t.stages.get n'.last.stage) := by
    rw [h.fresh]
    exact plain_of_pulled rfl
  refine h.attaches hs ?_ ?_ (plain_expose hplain _) (fun _ => rfl) fun r hr hp name hname => ?_
  · exact hwider.from_eq.trans (by rw [h.fresh])
  · show ((t.stages.get n'.last.stage).expose _ _).groupBy = none
    rw [hwider.rest, h.fresh]
    rfl
  · obtain rfl : name = r := by simpa using hname
    rcases mem_reads_expose hr with hr | hr
    · rw [h.fresh] at hr
      cases hr
    · rw [Stage.outputNames, hp] at hr
      exact hr

theorem gives_distinctRows (ih : InputBuilds F table c k e) (hs : Layered s.stages)
    (hrun : Gives (distinctRows (partsTo k) e var) c s node t) :
    Builds F table s (.distinct e) node t := by
  obtain ⟨label, s₀, _, last, s₁, hlabel, hrows, hlast, htaken⟩ := distinctRows_inv hrun
  obtain ⟨-, rfl⟩ := gives_nextAlias.mp hlabel
  obtain ⟨⟨n, hn, hopen, hl₁⟩, -⟩ := ih { s with aliases := s.aliases + 1 } _ _ _ hs hrows
  obtain ⟨rfl, rfl⟩ := hn.held.openStage_eq hlast
  rcases htaken with ⟨hc, rfl⟩ | ⟨-, _, s₂, hwrap, rfl⟩
  · obtain ⟨⟨horder, hskip⟩, hlimit⟩ : (_ ∧ _) ∧ _ := by
      simpa [Clause.compatible] using hc
    have hf : Attaches s₁.stages n (s₁.stages.get n.last.stage)
        { s₁.stages.get n.last.stage with distinct := true } :=
      hn.held.attaches hopen rfl rfl (fun h => h) rfl (fun _ => rfl) fun r hr => .inl hr
    exact ⟨n, hn.distinct hf fun lifted rows => Meaning.select_distinct _ horder hskip hlimit rows,
      unpulled_attaching hn.held hf, hl₁⟩
  · obtain ⟨rfl, n', hwrapped⟩ := gives_wrap hn.held hwrap
    rw [← hwrapped.last]
    have hn₂ := hn.opened (hwrapped.opened hn.held)
    have hf := hwrapped.attaches_distinct hn.held
    refine ⟨n', hn₂.distinct hf fun lifted rows => ?_, unpulled_attaching hn₂.held hf, ?_⟩
    · rw [select_distinct_expose, hwrapped.fresh]
      exact Meaning.select_distinct _ rfl rfl rfl rows
    · rw [hwrapped.lifted]
      exact hl₁

/-! ### Projections -/

/-- A stage around a node takes a select list that reads what the closed one shows. -/
theorem Wrapped.attaches_projection {n' : Node} {columns : List Column} (h : Wrapped s t node n n')
    (hs : Held s node n)
    (hreads : ∀ r ∈ Stage.listReads columns, Shows s.stages n.last.stage [r]) :
    Attaches t.stages n' (t.stages.get n'.last.stage)
      { t.stages.get n'.last.stage with projection := some columns } := by
  have hpulled : (t.stages.get n'.last.stage).pulled = [] := by
    rw [h.fresh]
    rfl
  refine h.attaches hs (by rw [h.fresh]) (by rw [h.fresh]; rfl) (plain_of_pulled hpulled)
    (fun hne => (hne hpulled).elim) fun r hr => ?_
  rcases mem_reads_projection hr with hr | hr
  · rw [h.fresh] at hr
    cases hr
  · exact hreads r hr

/-- The open stage takes a select list. -/
theorem Realizes.project {row : Expr} {columns columns₀ : List Column} (h : Realizes F table s e node n)
    (hf : Attaches s.stages n (s.stages.get n.last.stage)
      { s.stages.get n.last.stage with projection := some columns })
    (hnone : (s.stages.get n.last.stage).projection = none)
    (hdistinct : (s.stages.get n.last.stage).distinct = false)
    (hcolumns : direct [x] (rowColumns allParts row) = .ok columns₀)
    (hsame : ∀ lifted, s.lifted <+: lifted → Functions.SameColumns lifted columns columns₀) :
    Realizes F table (attaching s n fun st => { st with projection := some columns })
      (.project ⟨e, x⟩ row) node n := by
  have hgroup := (h.held.layered _ h.held.stacked.bound_last).ungrouped
  refine h.attach hf fun lifted hl hstrict => ⟨hstrict, fun rows hrows => ?_⟩
  rw [Functions.applied, hrows, hcolumns]
  show Except.ok _ = Except.ok _
  rw [Meaning.select_projection _ columns hnone hgroup (by simp [hdistinct])]
  congr 1
  exact List.map_congr_left fun r _ => (F.values_congr (hsame lifted hl) [r]).symm

/-- A new node starts at a stage with a select list. -/
theorem Realizes.reopened (h : Realizes F table s e node n)
    (hprojection : (s.stages.get n.last.stage).projection.isSome)
    (hpulled : (s.stages.get n.last.stage).pulled = []) (hl : t.lifted <+: s.lifted) (var : String) :
    Builds F table t e s.nodes.length
      { s with nodes := s.nodes ++ [{ first := ⟨var, n.last.stage⟩ }] } := by
  refine ⟨{ first := ⟨var, n.last.stage⟩ }, ⟨⟨by simp, ?_, h.held.layered⟩, h.rows⟩, ?_, hl⟩
  · exact ⟨rfl, h.held.stacked.bound_last, plain_of_pulled hpulled, .inr hprojection, trivial⟩
  · intro hp
    exact (hp hpulled).elim

include hquery hscopes in
theorem gives_projectRows {type : DataType} {args : List Expr} (ih : InputBuilds F table c k e)
    (hargs : Expr.readsOnlyAll [x] args = true) (hs : Layered s.stages)
    (hrun : Gives (projectRows (partsTo k) ⟨e, x⟩ (.newInstance type args) var) c s node t) :
    Builds F table s (.project ⟨e, x⟩ (.newInstance type args)) node t := by
  obtain ⟨child, _, last, s₁, columns, s₂, hrows, hlast, htaken⟩ := projectRows_inv hrun
  obtain ⟨⟨n, hn, hopen, hl₁⟩, hx⟩ := ih _ _ _ _ hs hrows
  obtain ⟨rfl, rfl⟩ := hn.held.openStage_eq hlast
  rcases htaken with ⟨hc, hscalar, rfl, rfl⟩ | ⟨-, hscalar, _, s₃, hwrap, rfl, rfl⟩
  · obtain ⟨hnone, hdistinct⟩ : _ ∧ _ := by
      simpa [Clause.compatible] using hc
    have hpulled : (s₁.stages.get n.last.stage).pulled = [] := by
      by_contra hne
      rw [hopen hne] at hdistinct
      cases hdistinct
    obtain ⟨hn₂, hopen₂, hst, hl₂, columns₀, hcolumns₀, hreads⟩ := hn.inOpen hquery hscopes hopen hx
      (World.follows_rowColumns hargs) hscalar
    rw [← hst] at hnone hdistinct hpulled
    have hf : Attaches s₂.stages n (s₂.stages.get n.last.stage)
        { s₂.stages.get n.last.stage with projection := some columns } := by
      refine hn₂.held.attaches hopen₂ rfl rfl (fun h => by cases h) rfl (fun h => h) fun r hr => ?_
      exact (mem_reads_projection hr).imp_right fun hr => ⟨hnone, fun a ha => hreads.shown r hr a ha⟩
    have hn₃ := hn₂.project hf hnone hdistinct hcolumns₀ fun lifted hl => hreads.same hl
    refine hn₃.reopened ?_ ?_ (hl₁.trans hl₂) var
    · rw [get_attaching hn₂.held, if_pos rfl]
      rfl
    · rw [get_attaching hn₂.held, if_pos rfl]
      exact hpulled
  · -- no stage is in scope, so the columns are pulled through all of them
    let W := pullWorld c x child n n.selects [] hquery trivial (by simp [hscopes]) (by simp)
    have hfollows : W.Follows s₁ _ _ _ := World.follows_rowColumns (t := type) (n := k) hargs
    obtain ⟨hok, hlater, columns₀, hcolumns₀, hreads⟩ :=
      hfollows.direct ⟨hx, hn.held.node, hn.held.stacked, hn.held.layered⟩ hscalar
    have hn₂ := hn.later hlater ⟨hok.node, hok.stacked, hok.layered⟩
    obtain ⟨rfl, n', hwrapped⟩ := gives_wrap hn₂.held hwrap
    rw [← hwrapped.last]
    have hf := hwrapped.attaches_projection hn₂.held fun r hr => hreads.shown r hr n.last (by
      rw [selects_eq]
      exact List.getLast?_concat ..)
    have hn₃ := (hn₂.opened (hwrapped.opened hn₂.held)).project hf (by rw [hwrapped.fresh]; rfl)
      (by rw [hwrapped.fresh]; rfl) hcolumns₀ fun lifted hl => hreads.same (hwrapped.lifted ▸ hl)
    refine hn₃.reopened ?_ ?_ ?_ var
    · rw [get_attaching hwrapped.held, if_pos rfl]
      rfl
    · rw [get_attaching hwrapped.held, if_pos rfl, hwrapped.fresh]
      rfl
    · show s.lifted <+: s₃.lifted
      rw [hwrapped.lifted]
      exact hl₁.trans hlater.lifted

theorem gives_scan {set : EntitySet} (hs : Layered s.stages)
    (hrun : Gives (pushSource (.table (tableSql set)) var) c s node t) :
    Builds F table s (.scan set) node t := by
  obtain ⟨rfl, rfl⟩ := gives_pushSource.mp hrun
  have hget : Stages.get (s.stages ++ [.ofSource (.table (tableSql set)) var]) s.stages.length =
      .ofSource (.table (tableSql set)) var := by
    rw [Stages.get_append, if_pos rfl]
  have hheld : Held { s with
      stages := s.stages ++ [.ofSource (.table (tableSql set)) var]
      nodes := s.nodes ++ [{ first := ⟨var, s.stages.length⟩ }] } s.nodes.length
      { first := ⟨var, s.stages.length⟩ } := by
    refine ⟨by simp, ⟨rfl, by simp, ?_, .inl ?_, trivial⟩, hs.append (layer_ofTable _ _ _)⟩
    · show Plain var (Stages.get (s.stages ++ _) s.stages.length)
      rw [hget]
      exact plain_of_pulled rfl
    · show OverTable (Stages.get (s.stages ++ _) s.stages.length)
      rw [hget]
      exact ⟨_, _, rfl⟩
  refine ⟨_, ⟨hheld, fun lifted _ _ => ?_⟩, ?_, List.prefix_refl _⟩
  · rw [Functions.applied, rows_eq hheld.layered hheld.stacked.bound_last]
    show Except.ok table = Except.ok ((F.meaning lifted).select (Stages.get (s.stages ++ _) s.stages.length)
      (sourceRows table _ (Stages.get (s.stages ++ _) s.stages.length).from_))
    rw [hget, select_ofSource]
    rfl
  · intro hp
    change (Stages.get (s.stages ++ _) s.stages.length).pulled ≠ [] at hp
    rw [hget] at hp
    exact (hp rfl).elim

include hquery hscopes in
/-- The stages of a chain, read over whole rows, give the rows of its operators. -/
theorem gives_pipeline (he : e.isPipeline = true) (hs : Layered s.stages)
    (hrun : Gives ((partsTo k).rows e var) c s node t) :
    Builds F table s e node t ∧ t.bindings.lookup var = some node := by
  induction k generalizing e var s node t with
  | zero => exact (not_gives_fail hrun).elim
  | succ k ih =>
    have hinput (e' : Expr) (he' : e'.isPipeline = true) : InputBuilds F table c k e' :=
      fun s t node var hs hrun => ih he' hs hrun
    obtain ⟨u, hnode, rfl⟩ := rowsStep_inv hrun
    have hbuilds : Builds F table s e node u := by
      cases e with
      | scan set => exact gives_scan hs hnode
      | filter input p =>
        simp only [Expr.isPipeline, Bool.and_eq_true] at he
        exact gives_filterRows hquery hscopes (hinput _ he.1) he.2 hs hnode
      | project input row =>
        cases row with
        | newInstance type args =>
          simp only [Expr.isPipeline, Bool.and_eq_true] at he
          exact gives_projectRows hquery hscopes (hinput _ he.1) he.2 hs hnode
        | _ => cases he
      | sort input keys =>
        simp only [Expr.isPipeline, Bool.and_eq_true, List.all_eq_true] at he
        exact gives_sortRows hquery hscopes (hinput _ he.1) he.2 hs hnode
      | skip input keys m =>
        simp only [Expr.isPipeline, Bool.and_eq_true, List.all_eq_true] at he
        exact gives_skipRows hquery hscopes (hinput _ he.1.1) he.1.2 he.2 hs hnode
      | limit e m =>
        simp only [Expr.isPipeline, Bool.and_eq_true] at he
        exact gives_limitRows hquery (hinput _ he.1) he.2 hs hnode
      | distinct e => exact gives_distinctRows (hinput _ he) hs hnode
      | _ => cases he
    obtain ⟨n, hn, hopen, hl⟩ := hbuilds
    refine ⟨⟨n, hn.congr rfl rfl (List.prefix_refl _), hopen, hl⟩, ?_⟩
    show ((var, node) :: u.bindings).lookup var = some node
    rw [List.lookup_cons, beq_self_eq_true]

end Operators

end Compile

end TreeSql
