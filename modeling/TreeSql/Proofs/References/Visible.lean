import TreeSql.Proofs.References.Joins
import TreeSql.Proofs.References.Statement

/-
  TreeSql.Proofs.References.Visible — all references of a query are visible.

  By induction on the levels of an expression, its values refer to visible columns and its nodes are as their
  faces say (`sound_partsTo`). So the last stage of a query that resolves is closed (`visible_of_resolves`).
-/
namespace TreeSql.Compile

open Sql

variable {S : Site} {p : Parts} {s t u w : State} {e : Expr} {node : NodeId} {v var : String}

/-! ## Relations -/

theorem nodeStep_ready (hp : Sound p) (he : e.resolves S.schema S.scope = true)
    (hfresh : Fresh S.taken S.drawn (var :: e.binders)) (hgiven : Given e.binders) (hok : S.Ok s)
    (hrun : Gives (nodeStep p e var) S.context s node t) : NodeReady S s t var e node := by
  have hfree : S.Free e.binders := ⟨hfresh.sublist (List.sublist_cons_self _ _), hgiven⟩
  cases e with
  | scan set => exact scan_ready he hrun
  | filter input predicate => exact filterRows_ready hp he hfresh hgiven hok hrun
  | project input row => exact projectRows_ready hp he hfresh hgiven hok hrun
  | sort input keys => exact sortRows_ready hp he hfresh hgiven hok hrun
  | skip input keys count => exact skipRows_ready hp he hfresh hgiven hok hrun
  | limit input count => exact limitRows_ready hp he hfresh hgiven hok hrun
  | distinct input => exact distinctRows_ready hp he hfresh hgiven hok hrun
  | groupBy input keys aggregates t => exact groupRows_ready hp he hfresh hgiven hok hrun
  | join kind l r c => exact joinRows_ready hp he hfresh hgiven hok hrun
  | setOp kind l r => exact setOpRows_ready hp he hfresh hgiven hok hrun
  | newInstance t args => exact constantRows_ready hp he hfresh hgiven hok hrun
  | call f args t => exact callRows_ready hp he hfree hok hrun
  | _ => exact (not_gives_fail hrun).elim

/-! ## Subqueries -/

theorem fine_subquery {roots : List String} {f : Face} (hok : S.Ok s) (h : Built S s t roots f node) :
    S.Fine t (.stage (nodeAt t.nodes node).last.stage) := by
  refine ⟨fun r hr => (by cases hr), fun id hid => ?_⟩
  obtain rfl : id = (nodeAt t.nodes node).last.stage := by simpa [SqlExpr.subqueries, SqlExpr.leaves] using hid
  exact h.closed.mono fun _ hid => Nat.le_trans hok.floor hid

theorem yields_subqueryValue (hp : Sound p) (he : e.resolves S.schema S.scope = true) (hfree : S.Free e.binders) :
    S.Yields w (subqueryValue p e) S.Fine := by
  intro s a t hw hok hrun
  obtain ⟨label, t₁, child, t₂, _, halias, hrows, hopen, rfl⟩ := subqueryValue_inv hrun
  obtain ⟨rfl, rfl⟩ := gives_openStage_iff.mp hopen
  have hready := hp.aliased he hfree hok halias hrows
  exact ⟨hready.built.after, fine_subquery hok hready.built⟩

/-- Pulling a column through all stages of a list is pulling it where none of them is in scope. -/
theorem gives_pullAll {c : Context} {path : ColumnPath} {l : List AliasedStage} {r : Unit}
    (h : Gives (pullAll path l) c s r t) :
    ∃ path', Gives (pullToScope path l) { c with scopes := [] } s (path', false) t := by
  induction l generalizing path s with
  | nil =>
    obtain ⟨-, rfl⟩ := gives_pure.mp h
    exact ⟨path, gives_pure.mpr ⟨rfl, rfl⟩⟩
  | cons a l ih =>
    obtain ⟨path₁, u, hpull, hrest⟩ := gives_bind.mp h
    obtain ⟨path', hrest⟩ := ih hrest
    refine ⟨path', ?_⟩
    rw [pullToScope, gives_read_bind, if_neg (by simp)]
    exact gives_bind.mpr ⟨path₁, u, hpull, hrest⟩

theorem yields_limitValue (hp : Sound p) {count : Expr} (he : Expr.Valued S.schema S.scope (.limit e count))
    (hfree : S.Free (Expr.limit e count).binders) : S.Yields w (limitValue p (.limit e count)) S.Fine := by
  intro s a t hw hok hrun
  obtain ⟨label, t₁, child, _, _, t₂, halias, hrows, hnode, rfl, hcarried⟩ := limitValue_inv hrun
  obtain ⟨rfl, rfl⟩ := gives_getNode_iff.mp hnode
  have hready := (hp.aliased he.1 hfree hok halias hrows).built
  rcases hcarried with ⟨column, columns, hcolumns, hpull⟩ | ⟨-, rfl⟩
  · obtain ⟨path, hpull⟩ := gives_pullAll hpull
    -- the first column can be pulled through all stages
    have hinner := hready.inside.inner _ hcolumns
    have hcarried : ((e.face S.schema).inner.head?.all (e.face S.schema).passing.has) = true := he.2
    rw [show (e.face S.schema).inner = _ from hinner.symm] at hcarried
    obtain ⟨hstarts, hclimbs⟩ := hready.passing hcarried
    have hbound {b : AliasedStage} (hb : b ∈ (nodeAt t₂.nodes child).wrappers) := (hready.bound (.tail _ hb)).1
    have hrest : InScope { S.context with scopes := [] } [] := trivial
    obtain ⟨hafter, -⟩ := gives_pullToScope_climbs S.schema (s.stages.length ≤ ·) (fun _ => True) hclimbs
      hstarts.bound (fun _ hx => (Option.some.inj hx).symm) (fun b hb => ⟨hbound hb, rfl⟩) hrest (fun hnone => by
        rw [hcolumns] at hnone
        cases hnone) (by rw [List.append_nil]; exact hpull)
    have hall : S.After s t := hready.after.trans_of hafter (fun id hid hcan => absurd hcan (Nat.not_le_of_lt hid))
      fun _ _ => trivial
    have hbuilt := hready.later hafter hall fun _ _ => trivial
    exact ⟨hall, hready.node_eq hafter ▸ fine_subquery hok hbuilt⟩
  · exact ⟨hready.after, fine_subquery hok hready⟩

/-! ## All expressions -/

theorem sound_step (hp : Sound p) : Sound { value := valueStep p, rows := rowsStep p } where
  values S e he hfree w := Site.yields_valueStep (hp.values S) he hfree (fun _ => yields_subqueryValue hp he.1 hfree)
    fun input count hlimit => by
      subst hlimit
      exact yields_limitValue hp he hfree
  rows S e var he hfresh hgiven s t node hok hrun := by
    obtain ⟨t₁, hnode, rfl⟩ := rowsStep_inv hrun
    obtain ⟨hready, hvars⟩ := nodeStep_ready hp he hfresh hgiven hok hnode
    exact hready.bind (hfresh.not_taken (show From _ S.drawn S.drawn var from from_root (.head _))) (.head _) hvars

theorem sound_partsTo (n : Nat) : Sound (partsTo n) := by
  induction n with
  | zero => exact ⟨fun _ _ _ _ _ => Site.yields_fail, fun _ _ _ _ _ _ _ _ _ _ hrun => (not_gives_fail hrun).elim⟩
  | succ n ih => exact sound_step ih

/-! ## Queries -/

/-- What is compiled for a query: the query, or a projection to its declared columns under the same variable. -/
theorem declaredColumns_cases (query : Expr) (var : String) : (declaredColumns? query var).getD query = query ∨
    ∃ row, (declaredColumns? query var).getD query = .project ⟨query, var⟩ row ∧ row.binders = [] := by
  cases hroot : declaredColumns? query var with
  | none => exact .inl rfl
  | some root =>
    obtain ⟨members, rfl⟩ := declaredColumns?_eq_some hroot
    refine .inr ⟨_, rfl, ?_⟩
    rw [Expr.binders, Expr.bindersOfAll_eq_flatMap, List.flatMap_map, List.flatMap_eq_nil_iff]
    exact fun m _ => rfl

theorem closed_of_rows {query root : Expr} (hok : S.Ok s) (hfresh : Fresh S.taken S.drawn (var :: query.binders))
    (hgiven : Given query.binders) (he : root.resolves S.schema S.scope = true)
    (hroot : root = query ∨ ∃ row, root = .project ⟨query, var⟩ row ∧ row.binders = [])
    (hrun : Gives (rows root var) S.context s node t) :
    Closed S.schema (s.stages.length ≤ ·) t.stages S.env (nodeAt t.nodes node).last.stage := by
  rcases hroot with rfl | ⟨row, rfl, hbinders⟩
  · exact ((sound_partsTo _).rows S he hfresh hgiven hok hrun).built.closed
  · obtain ⟨t₁, hnode, rfl⟩ := rowsStep_inv hrun
    obtain ⟨hquery, hrow⟩ := Bool.and_eq_true_iff.mp he
    have hready : Ready S s t₁ (var :: query.binders) _ node :=
      projectRows_of_rows (sound_partsTo _) (.head _)
        (fun hrows => (sound_partsTo _).rows S hquery hfresh hgiven hok hrows) hrow
        (by rw [hbinders, List.append_nil]; exact hfresh) (by rw [hbinders]; exact fun _ h => by cases h) hok hnode
    exact hready.built.closed

/-- A query is compiled where nothing can be seen yet. -/
def querySite (schema : Option Schema) (settings : Settings) (query : Expr) : Site where
  schema := schema
  context := contextOf settings (.query query)
  env := []
  scope := []
  taken _ := False
  reach _ := False
  floor := 0
  drawn := 1
  query := rfl

theorem ok_querySite (schema : Option Schema) (settings : Settings) (query : Expr) :
    (querySite schema settings query).Ok { aliases := 1 } where
  floor := Nat.le_refl _
  drawn := Nat.le_refl _
  reach _ hid := hid.elim
  scopes _ hid := by cases hid
  nodes _ hn := by cases hn
  items _ hi := by cases hi
  vars _ _ hx := by cases hx
  bound _ _ hx := by cases hx

/-- The last stage of a query that resolves is closed. -/
theorem closed_of_resolves {settings : Settings} {query : Expr} {schema : Option Schema} {root : StageId}
    {columns : List Member} {t : State} (hnodup : query.binders.Nodup) (hnames : ∀ x ∈ query.binders, ¬Generated x)
    (hscope : ((declaredColumns? query (aliasName 1)).getD query).resolves schema [] = true)
    (hrun : build settings (.query query) = .ok ((.select root, columns), t)) :
    Closed schema (fun _ => True) t.stages [] root := by
  have hrun : Gives (queryStatement allParts query) (contextOf settings (.query query)) {} (.select root, columns) t :=
    hrun
  obtain ⟨label, t₁, node, t₂, _, halias, hrows, hopen, hresult⟩ := queryStatement_inv hrun
  obtain ⟨rfl, rfl⟩ := gives_nextAlias.mp halias
  obtain ⟨rfl, rfl⟩ := gives_openStage_iff.mp hopen
  cases hresult
  have hfresh := (fresh_of_nodup hnodup hnames 0).draw
  have hgiven : Given query.binders := fun x hx var place h => hnames x hx (.inr ⟨var, place, h⟩)
  have hclosed := closed_of_rows (ok_querySite schema settings query) hfresh hgiven hscope
    (declaredColumns_cases query (aliasName 1)) hrows
  exact hclosed.mono fun _ _ => trivial

/-- Every reference of a query that resolves is visible: in its last stage, and in all stages inside that one. -/
theorem visible_of_resolves {settings : Settings} {query : Expr} {schema : Schema} {root : StageId}
    {columns : List Member} {t : State} (hnodup : query.binders.Nodup) (hnames : ∀ x ∈ query.binders, ¬Generated x)
    (hscope : ((declaredColumns? query (aliasName 1)).getD query).resolves (some schema) [] = true)
    (hrun : build settings (.query query) = .ok ((.select root, columns), t)) {env : Items} {id : StageId}
    (hid : Within t.stages root env id) :
    ∀ q ∈ (t.stages.get id).exprs env, ∀ r ∈ q.2.references, Visible schema t.stages q.1 r := by
  obtain ⟨-, -, hrefs, -⟩ := (closed_of_resolves hnodup hnames hscope hrun).within hid
  exact fun q hq r hr => found_some.mp (hrefs q hq r hr)

namespace Films

/-- Three pairs of films of one rating, of those with a known number. -/
def sameRating : Expr :=
  let id (x : String) : Expr := .property (.varRef x integer) "Id" integer
  let rating (x : String) : Expr := .property (.varRef x integer) "Rating" integer
  let pairs : Expr := .join .inner ⟨.scan films, "film"⟩ ⟨.scan films, "other"⟩
    (some (.comparison .equals (rating "film") (rating "other")))
  let first : Expr := .limit (.sort ⟨pairs, "pair"⟩ [⟨id "other", true⟩]) (.constant (.int32 3))
  .project ⟨.filter ⟨first, "kept"⟩ (.not (.isNull (id "film"))), "row"⟩
    (.newInstance (.ofMembers [⟨"Film", integer⟩, ⟨"Other", integer⟩]) [id "film", id "other"])

/-- The references are visible in the limited join, and in the stage that is put around it. -/
theorem sameRating_visible : ∃ root columns t, build {} (.query sameRating) = .ok ((.select root, columns), t) ∧
    (∃ p ∈ (t.stages.get root).exprs [], p.2.references ≠ []) ∧
    ∀ env id, Within t.stages root env id → ∀ q ∈ (t.stages.get id).exprs env, ∀ r ∈ q.2.references,
      Visible schema t.stages q.1 r := by
  obtain ⟨⟨⟨statement, columns⟩, t⟩, hrun, root, hroot, p, hp, hrefs⟩ :
      ∃ r : (Statement × List Member) × State, build {} (.query sameRating) = .ok r ∧ ∃ root ∈ root? r.1.1,
        ∃ p ∈ (r.2.stages.get root).exprs [], p.2.references ≠ [] := exists_ok (by decide +kernel)
  cases statement with
  | select root' =>
    obtain rfl : root' = root := by simpa [root?] using hroot
    refine ⟨root', columns, t, hrun, ⟨p, hp, hrefs⟩, fun env id hid => ?_⟩
    exact visible_of_resolves (by decide +kernel) (none_generated (by decide +kernel)) (by decide +kernel) hrun hid
  | _ => cases hroot

end Films

end TreeSql.Compile
