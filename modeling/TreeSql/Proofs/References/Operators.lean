import TreeSql.Compile.Relation
import TreeSql.Proofs.References.Clauses

/-
  TreeSql.Proofs.References.Operators — operators on one input.

  If the parts of an operator are compiled as their faces say (`Sound`), the operator leaves a node as its own
  face says: one theorem for each operator.
-/
namespace TreeSql.Compile

open Sql

/-! ## Parts -/

/-- Values refer to visible columns, and nodes are as their faces say, wherever they are compiled. -/
structure Sound (p : Parts) : Prop where
  values (S : Site) : S.Values p
  rows (S : Site) {e : Expr} {var : String} (he : e.resolves S.schema S.scope = true)
    (hfresh : Fresh S.taken S.drawn (var :: e.binders)) (hgiven : Given e.binders) {s t : State} {node : NodeId}
    (hok : S.Ok s) (hrun : Gives (p.rows e var) S.context s node t) :
    Ready S s t (var :: e.binders) ((e.face S.schema).bind var) node

variable {S : Site} {p : Parts} {s t u : State} {e : Expr} {node : NodeId} {v var : String}

/-- A node, not bound yet. -/
structure NodeReady (S : Site) (s t : State) (var : String) (e : Expr) (node : NodeId) : Prop where
  ready : Ready S s t (var :: e.binders) (e.face S.schema) node
  vars : ∀ x columns, (x, columns) ∈ (e.face S.schema).sides → x ≠ var

/-- The input of an operator, whose rows another variable will stand for. -/
theorem Sound.input (hp : Sound p) {rest : List String} (he : e.resolves S.schema S.scope = true)
    (hfresh : Fresh S.taken S.drawn (var :: v :: (e.binders ++ rest))) (hgiven : Given (v :: (e.binders ++ rest)))
    (hok : S.Ok s) (hrun : Gives (p.rows e v) S.context s node t) :
    Ready S s t (var :: v :: e.binders) ((e.face S.schema).bind v) node ∧
      ∀ x columns, (x, columns) ∈ ((e.face S.schema).bind v).sides → x ≠ var := by
  have hfresh' : Fresh S.taken S.drawn (var :: v :: e.binders) :=
    hfresh.sublist (((List.sublist_append_left _ _).cons_cons _).cons_cons _)
  have hgiven' : Given e.binders := fun r hr => hgiven r (.tail _ (List.mem_append_left _ hr))
  have hready := hp.rows S he (hfresh'.sublist (List.sublist_cons_self _ _)) hgiven' hok hrun
  refine ⟨hready.mono (List.subset_cons_self _ _), fun x columns hx => ?_⟩
  exact hfresh'.ne_of_from ((hready.built.vars x columns hx).mono (List.Subset.refl _) hok.drawn (Nat.le_refl _))

/-! ## Filters -/

theorem valued_of_and {schema : Option Schema} {scope : Scope}
    (h : (e.resolves schema scope && e.carried schema) = true) : Expr.Valued schema scope e := by
  simpa [Expr.Valued] using h

theorem filterRows_ready (hp : Sound p) {q : Expr}
    (he : (Expr.filter ⟨e, v⟩ q).resolves S.schema S.scope = true)
    (hfresh : Fresh S.taken S.drawn (var :: (Expr.filter ⟨e, v⟩ q).binders))
    (hgiven : Given (Expr.filter ⟨e, v⟩ q).binders) (hok : S.Ok s)
    (hrun : Gives (filterRows p ⟨e, v⟩ q var) S.context s node t) :
    NodeReady S s t var (.filter ⟨e, v⟩ q) node := by
  obtain ⟨hinput, hq⟩ := Bool.and_eq_true_iff.mp he
  obtain ⟨t₁, stage, t₂, condition, t₃, hrows, hopen, hcondition, rfl⟩ := filterRows_inv hrun
  obtain ⟨hready, hvars⟩ := hp.input hinput hfresh hgiven hok hrows
  obtain ⟨hready, rfl⟩ := hready.openFor hok (.head _) hopen
  rw [← Face.sides_openFor .filter] at hq
  obtain ⟨hready', hnode, hafter, hfine⟩ := hready.inside q.binders hok hfresh
    (fun r hr => hgiven r (.tail _ (List.mem_append_right _ hr))) (hready.selects_all (by simp))
    (fun hfree => hp.values _ q (valued_of_and hq) hfree t₂) hcondition
  have hfine' := hready.built.fine_inside hafter hfine
  rw [← hnode] at hfine' ⊢
  refine ⟨(hready'.attach (clausal_where condition) (fine_addCondition hready'.built.open_.fine hfine')).mono ?_, ?_⟩
  · exact List.cons_subset_cons _ (List.cons_subset_cons _ (List.subset_append_left _ _))
  · show ∀ x columns, (x, columns) ∈ (Face.openFor _ _).sides → _
    rw [Face.sides_openFor]
    exact hvars

/-! ## Order -/

/-- Sort keys on the open stage. -/
theorem orderBy_ready (hp : Sound p) {f : Face} {roots : List String} {keys : List SortKey}
    (h : Ready S s t roots f node) (hok : S.Ok s) (hfresh : Fresh S.taken S.drawn (roots ++ Expr.bindersOfKeys keys))
    (hgiven : Given (Expr.bindersOfKeys keys))
    (hnone : (t.stages.get (nodeAt t.nodes node).last.stage).projection = none)
    (hkeys : Expr.resolvesKeys S.schema (f.sides ++ S.scope) keys = true) {r : Unit}
    (hrun : Gives (orderBy p (nodeAt t.nodes node).last.stage keys) S.context t r u) :
    Ready S s u roots (f.attach fun s => { s with orderBy := some [] }) node ∧
      nodeAt u.nodes node = nodeAt t.nodes node := by
  obtain ⟨items, v, hitems, rfl⟩ := orderBy_inv hrun
  obtain ⟨hready, hnode, hafter, hfine⟩ := h.inside _ hok hfresh hgiven hnone
    (fun hfree => Site.yields_orderItems (hp.values _) hkeys hfree) hitems
  have hfine' : ∀ i ∈ items, _ := fun i hi => h.built.fine_inside hafter (hfine i hi)
  rw [← hnode] at hfine' ⊢
  exact ⟨hready.attach (clausal_orderBy items) (fine_orderBy hready.built.open_.fine hfine'), rfl⟩

theorem sortRows_ready (hp : Sound p) {keys : List SortKey}
    (he : (Expr.sort ⟨e, v⟩ keys).resolves S.schema S.scope = true)
    (hfresh : Fresh S.taken S.drawn (var :: (Expr.sort ⟨e, v⟩ keys).binders))
    (hgiven : Given (Expr.sort ⟨e, v⟩ keys).binders) (hok : S.Ok s)
    (hrun : Gives (sortRows p ⟨e, v⟩ keys var) S.context s node t) :
    NodeReady S s t var (.sort ⟨e, v⟩ keys) node := by
  obtain ⟨hinput, hkeys⟩ := Bool.and_eq_true_iff.mp he
  obtain ⟨t₁, stage, t₂, hrows, hopen, horder⟩ := sortRows_inv hrun
  obtain ⟨hready, hvars⟩ := hp.input hinput hfresh hgiven hok hrows
  obtain ⟨hready, rfl⟩ := hready.openFor hok (.head _) hopen
  rw [← Face.sides_openFor .sort] at hkeys
  obtain ⟨hready, -⟩ := orderBy_ready hp hready hok hfresh
    (fun r hr => hgiven r (.tail _ (List.mem_append_right _ hr))) (hready.selects_all (by simp)) hkeys horder
  refine ⟨hready.mono ?_, ?_⟩
  · exact List.cons_subset_cons _ (List.cons_subset_cons _ (List.subset_append_left _ _))
  · show ∀ x columns, (x, columns) ∈ (Face.openFor _ _).sides → _
    rw [Face.sides_openFor]
    exact hvars

/-! ## Numbers of rows -/

/-- A number of rows is compiled beside the rows. -/
theorem count_ready (hp : Sound p) {f : Face} {roots : List String} {count : Expr} {a : SqlExpr}
    (h : Ready S s t roots f node) (hok : S.Ok s) (hfresh : Fresh S.taken S.drawn (roots ++ count.binders))
    (hgiven : Given count.binders) (hcount : Expr.Valued S.schema S.scope count)
    (hrun : Gives (p.value count) S.context t a u) :
    Ready S s u roots f node ∧ nodeAt u.nodes node = nodeAt t.nodes node ∧
      Sql.Fine S.schema (fun id => s.stages.length ≤ id ∧ id ≠ (nodeAt u.nodes node).last.stage) u.stages S.env
        a := by
  obtain ⟨hready, hnode, hfine⟩ := h.beside _ hok hfresh hgiven
    (fun hfree => hp.values (besideSite S s t roots) count hcount hfree t) hrun
  exact ⟨hready, hnode, hnode ▸ h.built.fine_beside hfine⟩

theorem skipRows_ready (hp : Sound p) {keys : List SortKey} {count : Expr}
    (he : (Expr.skip ⟨e, v⟩ keys count).resolves S.schema S.scope = true)
    (hfresh : Fresh S.taken S.drawn (var :: (Expr.skip ⟨e, v⟩ keys count).binders))
    (hgiven : Given (Expr.skip ⟨e, v⟩ keys count).binders) (hok : S.Ok s)
    (hrun : Gives (skipRows p ⟨e, v⟩ keys count var) S.context s node t) :
    NodeReady S s t var (.skip ⟨e, v⟩ keys count) node := by
  obtain ⟨hboth, hcount⟩ := Bool.and_eq_true_iff.mp he
  obtain ⟨hinput, hkeys⟩ := Bool.and_eq_true_iff.mp hboth
  obtain ⟨t₁, stage, t₂, t₃, a, t₄, hrows, hopen, horder, hvalue, rfl⟩ := skipRows_inv hrun
  rw [Expr.binders_skip] at hfresh hgiven
  obtain ⟨hready, hvars⟩ := hp.input hinput hfresh hgiven hok hrows
  obtain ⟨hready, rfl⟩ := hready.openFor hok (.head _) hopen
  have hrest (r : String) (hr : r ∈ Expr.bindersOfKeys keys ++ count.binders) :=
    hgiven r (.tail _ (List.mem_append_right _ hr))
  rw [← Face.sides_openFor .skip] at hkeys
  obtain ⟨hready, hnode⟩ := orderBy_ready hp hready hok
    (hfresh.sublist (((List.sublist_append_left _ _).append_left _).cons_cons _ |>.cons_cons _))
    (fun r hr => hrest r (List.mem_append_left _ hr)) (hready.selects_all (by simp)) hkeys horder
  obtain ⟨hready, hnode', hfine⟩ := count_ready hp hready hok
    (hfresh.sublist (((List.sublist_append_right _ _).append_left _).cons_cons _ |>.cons_cons _))
    (fun r hr => hrest r (List.mem_append_right _ hr)) (valued_of_and hcount) hvalue
  rw [← hnode, ← hnode']
  refine ⟨(hready.attach (clausal_skip a) (fine_skip hready.built.open_.fine hfine)).mono ?_, ?_⟩
  · rw [Expr.binders_skip]
    exact List.cons_subset_cons _ (List.cons_subset_cons _ (List.subset_append_left _ _))
  · show ∀ x columns, (x, columns) ∈ (Face.openFor _ _).sides → _
    rw [Face.sides_openFor]
    exact hvars

/-! ## New aliases -/

/-- The site after aliases were drawn. -/
def Site.drawing (S : Site) (drawn : Nat) : Site := { S with drawn }

theorem Site.ok_drawing {drawn : Nat} (hok : S.Ok s) (hdrawn : drawn ≤ s.aliases) : (S.drawing drawn).Ok s := by
  refine ⟨hok.floor, hdrawn, hok.reach, hok.scopes, hok.nodes, hok.items, hok.vars, fun x columns hx => ?_⟩
  obtain ⟨id, hlookup, hid, hleads⟩ := hok.bound x columns hx
  refine ⟨id, hlookup, hid, fun name hname => ?_⟩
  have hl := hleads name hname
  generalize track s.nodes id = l at hl ⊢
  cases hl with
  | here hscope hvisible => exact .here hscope hvisible
  | through hcan hrest hstarts hclimbs hcarries hstands =>
    exact .through hcan hrest hstarts hclimbs hcarries hstands

/-- The variable of the rows is not used further. -/
theorem Built.forget {roots : List String} {f : Face} (h : Built S s t roots (f.bind v) node) :
    Built S s t roots f node :=
  { h with
    open_ := ⟨h.open_.clauses, h.open_.fine, h.open_.named, h.open_.items, h.open_.unlisted, h.open_.listed,
      h.open_.source⟩
    inside := { h.inside with }
    vars := fun x columns hx => h.vars x columns (.tail _ hx)
    sides := fun x columns hx => h.sides x columns (.tail _ hx) }

/-- Rows under a new alias. -/
theorem Sound.aliased (hp : Sound p) {s₁ : State} {label : String} (he : e.resolves S.schema S.scope = true)
    (hfree : S.Free e.binders) (hok : S.Ok s) (halias : Gives nextAlias S.context s label s₁)
    (hrun : Gives (p.rows e label) S.context s₁ node t) : Ready S s t e.binders (e.face S.schema) node := by
  obtain ⟨rfl, rfl⟩ := gives_nextAlias.mp halias
  have hdrawn : S.After s { s with aliases := s.aliases + 1 } :=
    After.touch (.refl s) (touches_counters (Nat.le_succ _))
  obtain ⟨hbuilt, hquiet⟩ := hp.rows (S.drawing (s.aliases + 1)) he (hfree.fresh.later hok.drawn).draw hfree.given
    (Site.ok_drawing (hok.after hdrawn) (Nat.le_refl _)) hrun
  have hbuilt := hbuilt.forget
  have hnames {x : String} (hx : From (aliasName (s.aliases + 1) :: e.binders) (s.aliases + 1) t.aliases x) :
      From e.binders s.aliases t.aliases x := hx.undraw hbuilt.after.aliases
  have hopen := hbuilt.open_
  refine ⟨⟨hdrawn.trans hbuilt.after, hbuilt.added, hbuilt.alone, ?_, hbuilt.inside, hbuilt.columns, ?_,
    hbuilt.sides⟩, hquiet⟩
  · exact ⟨hopen.clauses, hopen.fine, hnames hopen.named, fun i hi => hnames (hopen.items i hi), hopen.unlisted,
      hopen.listed, hopen.source⟩
  · exact fun x columns hx => hnames (hbuilt.vars x columns hx)

theorem gives_openStage_iff {c : Context} {a : AliasedStage} :
    Gives (openStage node) c s a t ↔ a = (nodeAt s.nodes node).last ∧ t = s := gives_openStage

/-- The variables of a node that was built under an alias have other names than the rows. -/
theorem Ready.named_apart {f : Face} {roots rest : List String} (h : Ready S s t roots f node) (hok : S.Ok s)
    (hfresh : Fresh S.taken S.drawn (var :: (roots ++ rest))) :
    ∀ x columns, (x, columns) ∈ f.sides → x ≠ var := fun x columns hx =>
  hfresh.ne_of_from ((h.built.vars x columns hx).mono (List.subset_append_left _ _) hok.drawn (Nat.le_refl _))

theorem limitRows_ready (hp : Sound p) {count : Expr}
    (he : (Expr.limit e count).resolves S.schema S.scope = true)
    (hfresh : Fresh S.taken S.drawn (var :: (Expr.limit e count).binders))
    (hgiven : Given (Expr.limit e count).binders) (hok : S.Ok s)
    (hrun : Gives (limitRows p e count) S.context s node t) : NodeReady S s t var (.limit e count) node := by
  obtain ⟨hinput, hcount⟩ := Bool.and_eq_true_iff.mp he
  obtain ⟨label, t₁, t₂, _, t₃, a, t₄, halias, hrows, hopen, hvalue, rfl⟩ := limitRows_inv hrun
  obtain ⟨rfl, rfl⟩ := gives_openStage_iff.mp hopen
  have hfree : S.Free (e.binders ++ count.binders) := ⟨hfresh.sublist (List.sublist_cons_self _ _), hgiven⟩
  have hready := hp.aliased hinput hfree.left hok halias hrows
  have hvars := hready.named_apart hok hfresh
  obtain ⟨hready, hnode, hfine⟩ := count_ready hp hready hok hfree.fresh hfree.right.given (valued_of_and hcount)
    hvalue
  rw [← hnode]
  refine ⟨(hready.attach (clausal_limit a) (fine_addLimit hready.built.open_.fine hfine)).mono ?_, hvars⟩
  exact List.subset_cons_of_subset _ (List.subset_append_left _ _)

end TreeSql.Compile
