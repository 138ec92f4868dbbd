import TreeSql.Proofs.Exposed.Subqueries
import TreeSql.Proofs.References.Visible

/-
  TreeSql.Proofs.Exposed.Queries — set operations and scalar subqueries of any depth.

  By induction on the levels of an expression, values are found and nodes stand as their faces say
  (`sound_partsTo`). So the stages of a query are aligned (`aligned_build`). In particular, the operands of all set
  operations expose the members of their rows, in order (`operands_line_up`).
-/
namespace TreeSql.Compile

open Sql

namespace Vicinity

variable {V : Vicinity} {p : Parts} {s t u w : State} {e : Expr} {f : Face} {node : NodeId} {var : String}
  {a : SqlExpr}

/-! ## All expressions -/

theorem stands_nodeStep (hp : Sound p) (he : V.Suits e) (hok : V.Ok s)
    (hrun : Gives (nodeStep p e var) V.context s node t) : Stands V s t (e.face none) node := by
  cases e with
  | scan set => exact stands_scan hok hrun
  | filter input predicate => exact stands_filterRows hp he hok hrun
  | project input row => exact stands_projectRows hp he hok hrun
  | sort input keys => exact stands_sortRows hp he hok hrun
  | skip input keys count => exact stands_skipRows hp he hok hrun
  | limit input count => exact stands_limitRows hp he hok hrun
  | distinct input => exact stands_distinctRows hp he hok hrun
  | groupBy input keys aggregates t => exact stands_groupRows hp he hok hrun
  | join kind l r c => exact stands_joinRows hp he hok hrun
  | setOp kind l r => exact stands_setOpRows he hok hp hrun
  | newInstance t args => exact stands_constantRows hp he hok hrun
  | call f args t => exact stands_callRows hp he hok hrun
  | _ => exact (not_gives_fail hrun).elim

theorem sound_step (hp : Sound p) : Sound { value := valueStep p, rows := rowsStep p } where
  values V e he w := found_valueStep (hp.values V) he
    (fun _ hne s a t hw hok hrun => by
      obtain ⟨hafter, hshows⟩ := subqueryValue_shows hp he hok hrun
      exact ⟨hafter, found_of_shows hw hok (Expr.shown_eq hne ▸ hshows)⟩)
    fun input count he' s a t hw hok hrun => by
      obtain ⟨hafter, hshows⟩ := limitValue_shows hp he hok hrun
      subst he'
      exact ⟨hafter, found_of_shows hw hok hshows⟩
  rows V e var he hname hvar s t node hok hrun := by
    obtain ⟨t₁, hnode, rfl⟩ := rowsStep_inv hrun
    exact (stands_nodeStep hp he hok hnode).bind hname fun x columns hx hxv => hvar (hxv ▸ e.side_mem_binders hx)

theorem sound_partsTo (n : Nat) : Sound (partsTo n) := by
  induction n with
  | zero => exact ⟨fun _ _ _ _ => yields_fail, fun _ _ _ _ _ _ _ _ _ _ hrun => (not_gives_fail hrun).elim⟩
  | succ n ih => exact sound_step ih

/-! ## Set operations -/

/-- A set operation combines its own operands, one by one, and they line up from then on. -/
theorem combined_rows {n : Nat} {kind : SetOpKind} {l r : Expr} (he : V.Suits (.setOp kind l r)) (hok : V.Ok s)
    (hrun : Gives ((partsTo n).rows (.setOp kind l r) var) V.context s node t) :
    ∃ operands, ∀ u, V.After t u →
      (u.stages.get (nodeAt t.nodes node).first.stage).combinations = [(kind, operands)] ∧
        List.Forall₂ (LinesUp u.stages) operands (setOpOperands kind l r) := by
  cases n with
  | zero => exact (not_gives_fail hrun).elim
  | succ n =>
    obtain ⟨t₁, hnode, rfl⟩ := rowsStep_inv hrun
    obtain ⟨operands, hcombined, hnew, hlines⟩ := combined_setOpRows he hok (sound_partsTo n) hnode
    have hstands := stands_setOpRows he hok (sound_partsTo n) hnode
    have hfirst := hstands.way.passable _ (List.mem_cons_self ..)
    refine ⟨operands, fun u hu => ⟨?_, List.forall₂_iff_zip.mpr ⟨hlines.length_eq, fun hzip hflat => ?_⟩⟩⟩
    · exact (Stage.combinations_congr (hu.wider _ hfirst.bound).from_eq).trans hcombined
    · obtain ⟨hadded, hbound⟩ := hnew _ (List.of_mem_zip hzip).1
      rw [hu.same _ hbound (hok.outside hadded)]
      exact (List.forall₂_iff_zip.mp hlines).2 hzip hflat

/-! ## Queries -/

/-- A property can be compiled at any level, though its variable be generated. -/
theorem settles_property (n : Nat) {base : Expr} {name : String} {type : DataType}
    (h : Expr.inScope V.scope base name = true) : V.Settles w ((partsTo n).value (.property base name type)) := by
  cases n with
  | zero => exact yields_fail
  | succ n => exact settles_propertyValue h

/-- The statement of a query is compiled from the query, or from a projection to its declared columns. -/
theorem after_rows {query : Expr} {label : String} (he : V.Suits query) (hname : label ∉ V.names)
    (hlabel : label ∉ query.binders) (hok : V.Ok s)
    (hscope : ((declaredColumns? query label).getD query).resolves none V.scope = true)
    (hrun : Gives (rows ((declaredColumns? query label).getD query) label) V.context s node t) : V.After s t := by
  cases hroot : declaredColumns? query label with
  | none =>
    rw [hroot] at hrun
    exact ((sound_partsTo _).rows V he hname hlabel hok hrun).after
  | some root =>
    obtain ⟨members, rfl⟩ := declaredColumns?_eq_some hroot
    rw [hroot] at hscope hrun
    obtain ⟨t₁, hnode, rfl⟩ := rowsStep_inv hrun
    obtain ⟨-, hrow⟩ := Bool.and_eq_true_iff.mp hscope
    have h := stands_projectRows_of_rows (label :: query.binders)
      (fun hrows => (sound_partsTo _).rows V he hname hlabel hok hrows) hok (fun _ _ => query.bound_side_mem)
      (fun t scopes can => ?_) hnode
    · exact h.after.bind hname node
    · refine yields_mono (yields_rowColumns fun type args hargs e he w hw => ?_) fun _ _ h =>
        ⟨h.1, fun c hc => (h.2 c hc).kept⟩
      cases hargs
      obtain ⟨m, hm, rfl⟩ := List.mem_map.mp he
      have hproperty := (Expr.resolvesAll_iff.mp hrow _ he).1
      exact yields_mono (settles_property _ hproperty) fun _ a h => ⟨a, h.mono hw⟩

end Vicinity

/-! ## Stages of a query -/

theorem resolves_of_declared {query : Expr} {label : String} {scope : Scope}
    (h : ((declaredColumns? query label).getD query).resolves none scope = true) : query.resolves none scope = true := by
  cases hroot : declaredColumns? query label with
  | none =>
    rw [hroot] at h
    exact h
  | some root =>
    obtain ⟨members, rfl⟩ := declaredColumns?_eq_some hroot
    rw [hroot] at h
    exact (Bool.and_eq_true_iff.mp h).1

section

open scoped Classical

/-- The set operations and the elements are those of the query. -/
noncomputable def isOf (query : Expr) : Expr → Bool
  | .setOp kind l r => decide (.setOp kind l r ∈ query.nodes)
  | .element e => decide (.element e ∈ query.nodes)
  | _ => true

theorem isOf_setOp {query l r : Expr} {kind : SetOpKind} :
    isOf query (.setOp kind l r) = true ↔ .setOp kind l r ∈ query.nodes := decide_eq_true_iff

theorem isOf_element {query e : Expr} : isOf query (.element e) = true ↔ .element e ∈ query.nodes := decide_eq_true_iff

end

theorem everyNode_isOf (query : Expr) : query.everyNode (isOf query) = true := by
  rw [Expr.everyNode_iff]
  intro e he
  cases e with
  | setOp kind l r => exact isOf_setOp.mpr he
  | element e => exact isOf_element.mpr he
  | _ => rfl

theorem passes_isOf (query : Expr) : Expr.PassesChoices (isOf query) :=
  ⟨fun _ _ _ => rfl, fun _ _ => rfl, fun _ _ _ => rfl⟩

theorem mode_contextOf (settings : Settings) (query : Expr) : (contextOf settings (.query query)).mode = .query := rfl

/-- A query is compiled where nothing can be seen yet. -/
noncomputable def queryVicinity (settings : Settings) (query : Expr) : Vicinity where
  context := contextOf settings (.query query)
  scope := []
  names := []
  can _ := False
  test := isOf query
  query := mode_contextOf settings query
  passes := passes_isOf query

theorem ok_queryVicinity (settings : Settings) (query : Expr) {aliases : Nat} :
    (queryVicinity settings query).Ok { aliases } where
  bound _ _ hx := by cases hx
  open_ _ hid := hid.elim
  scopes _ hid := by cases hid
  sealed _ hid := by
    obtain ⟨j, ⟨c, hc, -⟩ | hid⟩ := hid
    · cases hc
    · exact absurd hid List.not_mem_nil
  nodes _ hn := by cases hn

section

variable {settings : Settings} {query : Expr} {root : StageId} {columns : List Member} {t : State}

/-- All set operations and elements in the stages of a query are its own. The operands line up, and the elements
    show their columns. -/
theorem aligned_build (hnodup : query.binders.Nodup) (hnames : ∀ x ∈ query.binders, ¬Generated x)
    (hscope : ((declaredColumns? query (aliasName 1)).getD query).resolves none [] = true)
    (hrun : build settings (.query query) = .ok ((.select root, columns), t)) : Aligned (isOf query) t.stages := by
  have hrun : Gives (queryStatement allParts query) (contextOf settings (.query query)) {} (.select root, columns) t :=
    hrun
  obtain ⟨label, t₁, node, t₂, _, halias, hrows, hopen, -⟩ := queryStatement_inv hrun
  obtain ⟨rfl, rfl⟩ := gives_nextAlias.mp halias
  obtain ⟨rfl, rfl⟩ := gives_openStage_iff.mp hopen
  have he : (queryVicinity settings query).Suits query :=
    Vicinity.suits_of_resolves (resolves_of_declared hscope)
      ⟨hnodup, hnames, by simp [queryVicinity], by simp [queryVicinity]⟩ (everyNode_isOf query)
  have hafter : (queryVicinity settings query).After { aliases := 1 } t :=
    Vicinity.after_rows he (by simp [queryVicinity]) (fun hx => hnames _ hx (.inl ⟨_, rfl⟩))
      (ok_queryVicinity settings query) hscope hrows
  exact hafter.aligned ⟨fun _ _ hc => (by cases hc), fun _ _ hid => absurd hid List.not_mem_nil⟩

end

/-- A set operation combines its own operands, and each of them exposes the members of its rows in their order, if
    these are flat. All that the stages of a query combine are operands of its set operations. -/
theorem operands_line_up {settings : Settings} {query : Expr} {root : StageId} {columns : List Member} {t : State}
    (hnodup : query.binders.Nodup) (hnames : ∀ x ∈ query.binders, ¬Generated x)
    (hscope : ((declaredColumns? query (aliasName 1)).getD query).resolves none [] = true)
    (hrun : build settings (.query query) = .ok ((.select root, columns), t)) :
    (∀ (V : Vicinity) (kind : SetOpKind) (l r : Expr), V.Suits (.setOp kind l r) → ∀ n var s node u, V.Ok s →
      Gives ((partsTo n).rows (.setOp kind l r) var) V.context s node u → ∃ operands, ∀ later, V.After u later →
        (later.stages.get (nodeAt u.nodes node).first.stage).combinations = [(kind, operands)] ∧
          List.Forall₂ (fun o e => e.Flat → (later.stages.get o).outputNames = e.resultType.memberNames) operands
            (setOpOperands kind l r)) ∧
      ∀ id, ∀ c ∈ (t.stages.get id).combinations, ∃ l r, .setOp c.1 l r ∈ query.nodes ∧
        List.Forall₂ (fun o e => e.Flat → (t.stages.get o).outputNames = e.resultType.memberNames) c.2
          (setOpOperands c.1 l r) := by
  refine ⟨fun V kind l r he n var s node u hok hrows => Vicinity.combined_rows he hok hrows, fun id c hc => ?_⟩
  obtain ⟨l, r, htest, hall⟩ := (aligned_build hnodup hnames hscope hrun).operands id c hc
  exact ⟨l, r, isOf_setOp.mp htest, hall⟩

namespace Films

def filmId (x : String) : Expr := .property (.varRef x integer) "Id" integer

def filmRating (x : String) : Expr := .property (.varRef x integer) "Rating" integer

/-- Scores of three films without repetition, and those of the films above two that are not the first one. -/
def scores : Expr :=
  let first : Expr := .limit (.project ⟨.scan films, "film"⟩
    (.newInstance (.ofMembers [⟨"Film", integer⟩, ⟨"Score", integer⟩]) [filmId "film", filmRating "film"])) (.constant (.int32 3))
  let good : Expr := .filter ⟨.scan films, "good"⟩ (.comparison .greaterThan (filmRating "good") (.constant (.int32 2)))
  let one : Expr := .filter ⟨.scan films, "one"⟩ (.comparison .equals (filmId "one") (.constant (.int32 1)))
  .filter ⟨.setOp .unionAll (.distinct first) (.setOp .except good one), "score"⟩
    (.not (.isNull (.property (.varRef "score" integer) "Score" integer)))

instance (e : Expr) : Decidable e.Flat := inferInstanceAs (Decidable (_ ∧ _))

/-- Whether the operands have flat rows, if the expression is a set operation. -/
def flatOperands : Expr → Bool
  | .setOp kind l r => (setOpOperands kind l r).all fun o => decide o.Flat
  | _ => true

/-- Both set operations combine operands that line up. -/
theorem scores_line_up : ∃ root columns t, build {} (.query scores) = .ok ((.select root, columns), t) ∧
    (∃ id, ∃ c ∈ (t.stages.get id).combinations, c.1 = .except) ∧
    ∀ id, ∀ c ∈ (t.stages.get id).combinations, ∃ l r, .setOp c.1 l r ∈ scores.nodes ∧
      List.Forall₂ (fun o e => (t.stages.get o).outputNames = e.resultType.memberNames) c.2 (setOpOperands c.1 l r) := by
  obtain ⟨⟨⟨statement, columns⟩, t⟩, hrun, root, hroot, id, -, hid⟩ :
      ∃ r : (Statement × List Member) × State, build {} (.query scores) = .ok r ∧ ∃ root ∈ root? r.1.1,
        ∃ id ∈ List.range r.2.stages.length, ∃ c ∈ (r.2.stages.get id).combinations, c.1 = .except :=
    exists_ok (by decide +kernel)
  cases statement with
  | select root' =>
    refine ⟨root', columns, t, hrun, ⟨id, hid⟩, fun id c hc => ?_⟩
    obtain ⟨l, r, hmem, hlines⟩ := (operands_line_up (by decide +kernel) (none_generated (by decide +kernel))
      (by decide +kernel) hrun).2 id c hc
    have hflat : ∀ e ∈ scores.nodes, flatOperands e = true := by decide +kernel
    have hoperands : ∀ e ∈ setOpOperands c.1 l r, e.Flat := by simpa [flatOperands] using hflat _ hmem
    refine ⟨l, r, hmem, List.forall₂_iff_zip.mpr ⟨hlines.length_eq, fun hzip => ?_⟩⟩
    exact (List.forall₂_iff_zip.mp hlines).2 hzip (hoperands _ (List.of_mem_zip hzip).2)
  | _ => cases hroot

def shows : Expr := .scan { name := "Show", container := "dbo", columns := [⟨"Id", integer⟩] }

/-- The films of some rating, if a show has a number. The variable has the name of an operand. -/
def ifAnyShow : Expr :=
  .filter ⟨.scan films, "u_0"⟩
    (.and (.not (.isEmpty (.filter ⟨.setOp .unionAll shows shows, "u"⟩
      (.comparison .equals (filmId "u") (.constant (.int32 1))))))
      (.comparison .greaterThan (filmRating "u_0") (.constant (.int32 2))))

/-- The rating of the films is looked up in the first operand, which then has more columns than its rows have. -/
theorem operand_with_rating : ∃ root columns t, build {} (.query ifAnyShow) = .ok ((.select root, columns), t) ∧
    ifAnyShow.binders.Nodup ∧ ifAnyShow.resolves none [] = true ∧
    ∃ id operands, (t.stages.get id).combinations = [(.unionAll, operands)] ∧
      operands.map (fun o => (t.stages.get o).outputNames) = [["Id", "Rating"], ["Id"]] ∧
      setOpOperands .unionAll shows shows = [shows, shows] ∧ shows.Flat ∧ shows.resultType.memberNames = ["Id"] := by
  obtain ⟨⟨⟨statement, columns⟩, t⟩, hrun, root, hroot, id, -, c, -, hcombined, hnames⟩ :
      ∃ r : (Statement × List Member) × State, build {} (.query ifAnyShow) = .ok r ∧ ∃ root ∈ root? r.1.1,
        ∃ id ∈ List.range r.2.stages.length, ∃ c ∈ (r.2.stages.get id).combinations,
          (r.2.stages.get id).combinations = [(.unionAll, c.2)] ∧
            c.2.map (fun o => (r.2.stages.get o).outputNames) = [["Id", "Rating"], ["Id"]] := exists_ok (by decide +kernel)
  cases statement with
  | select root' =>
    exact ⟨root', columns, t, hrun, by decide +kernel, by decide +kernel, id, c.2, hcombined, hnames, rfl,
      by decide +kernel, by decide +kernel⟩
  | _ => cases hroot

end Films

end TreeSql.Compile
