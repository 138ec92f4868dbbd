import TreeSql.Proofs.Exposed.Queries

/-
  TreeSql.Proofs.Exposed.Elements — the columns of scalar subqueries.

  The element of a relation is a subquery in parentheses. In the stages of a query, each of these shows just the
  columns that can be read off its relation (`Expr.shown`), and so the one column of the rows only if that is
  among them.
-/
namespace TreeSql.Compile

open Sql

/-- In place of a value, a relation is a subquery. -/
theorem stage_of_value {n : Nat} {e : Expr} (he : e.Subquery) {c : Context} {s t : State} {a : SqlExpr}
    (hrun : Gives ((partsTo n).value e) c s a t) : ∃ id, a = .stage id := by
  have hquery {p : Parts} (hrun : Gives (subqueryValue p e) c s a t) : ∃ id, a = .stage id := by
    obtain ⟨_, _, _, _, last, -, -, -, ha⟩ := subqueryValue_inv hrun
    exact ⟨last.stage, ha⟩
  cases n with
  | zero => exact (not_gives_fail hrun).elim
  | succ n =>
    have hrun : Gives (valueStep (partsTo n) e) c s a t := hrun
    cases e with
    | limit input count =>
      obtain ⟨_, _, _, _, n, _, -, -, -, ha, -⟩ := limitValue_inv hrun
      exact ⟨n.last.stage, ha⟩
    | newInstance type args =>
      have hrow : type.element?.isSome = true := he.relational
      rw [valueStep, if_pos hrow] at hrun
      exact hquery hrun
    | call f args type => cases he.notCall
    | scan | filter | project | sort | skip | distinct | groupBy | join | setOp => exact hquery hrun
    | _ => cases he.relational

/-- The element of a relation is the subquery of the relation in parentheses. -/
theorem element_inv {n : Nat} {e : Expr} (he : e.Subquery) {c : Context} {s t : State} {a : SqlExpr}
    (hrun : Gives ((partsTo n).value (.element e)) c s a t) :
    ∃ id m, a = .paren (.stage id) ∧ Gives ((partsTo m).value e) c s (.stage id) t := by
  cases n with
  | zero => exact (not_gives_fail hrun).elim
  | succ n =>
    obtain ⟨b, t₁, hrelation, hlast⟩ := gives_bind.mp hrun
    obtain ⟨rfl, rfl⟩ := gives_pure.mp hlast
    obtain ⟨id, rfl⟩ := stage_of_value he hrelation
    exact ⟨id, n, rfl, hrelation⟩

/-- The element of a relation is a new subquery, which shows the columns that can be read off the relation from
    then on. -/
theorem shown_element {V : Vicinity} {n : Nat} {e : Expr} (he : e.Subquery) (hsuits : V.Suits (.element e))
    {s t : State} {a : SqlExpr} (hok : V.Ok s) (hrun : Gives ((partsTo n).value (.element e)) V.context s a t) :
    ∃ id, a = .paren (.stage id) ∧ s.stages.length ≤ id ∧ id < t.stages.length ∧
      ∀ u, V.After t u → (u.stages.get id).outputNames = e.shown := by
  obtain ⟨id, m, rfl, hrelation⟩ := element_inv he hrun
  obtain ⟨-, hfound⟩ := (Vicinity.sound_partsTo m).values V e hsuits.element.1 s s _ t (.refl s) hok hrelation
  obtain ⟨hnew, hbound, hcan⟩ := hfound.settled.1.subqueries id (.head _)
  refine ⟨id, rfl, hnew, hbound, fun u hu => ?_⟩
  rw [hu.same id hbound hcan]
  exact hfound.shown he id rfl

/-- Elements are subqueries in parentheses, and each shows the columns that can be read off its relation. In every
    stage of a query, each subquery in parentheses is an element of the query. -/
theorem elements_show {settings : Settings} {query : Expr} {root : StageId} {columns : List Member} {t : State}
    (hnodup : query.binders.Nodup) (hnames : ∀ x ∈ query.binders, ¬Generated x)
    (hscope : ((declaredColumns? query (aliasName 1)).getD query).resolves none [] = true)
    (hrun : build settings (.query query) = .ok ((.select root, columns), t)) :
    (∀ e : Expr, e.Subquery → ∀ n c s a u, Gives ((partsTo n).value (.element e)) c s a u →
        ∃ id, a = .paren (.stage id)) ∧
      (∀ (V : Vicinity) (e : Expr), e.Subquery → V.Suits (.element e) → ∀ n s a u, V.Ok s →
        Gives ((partsTo n).value (.element e)) V.context s a u → ∃ id, a = .paren (.stage id) ∧
          s.stages.length ≤ id ∧ id < u.stages.length ∧
          ∀ later, V.After u later → (later.stages.get id).outputNames = e.shown) ∧
      ∀ j, ∀ id ∈ (t.stages.get j).elements, ∃ e : Expr, .element e ∈ query.nodes ∧
        (e.Subquery → (t.stages.get id).outputNames = e.shown) := by
  refine ⟨fun e he n c s a u hvalue => (element_inv he hvalue).imp fun _ ⟨_, ha, _⟩ => ha,
    fun V e he hsuits n s a u hok hvalue => shown_element he hsuits hok hvalue, fun j id hid => ?_⟩
  obtain ⟨e, htest, hshown⟩ := (aligned_build hnodup hnames hscope hrun).elements j id hid
  exact ⟨e, isOf_element.mp htest, hshown⟩

namespace Films

/-- The score of a film of the highest rating. -/
def best : Expr :=
  let scores : Expr := .project ⟨.scan films, "film"⟩
    (.newInstance (.ofMembers [⟨"Score", integer⟩]) [filmRating "film"])
  .limit (.sort ⟨scores, "score"⟩ [⟨.property (.varRef "score" integer) "Score" integer, false⟩]) (.constant (.int32 1))

/-- The films, each with the best score. -/
def withBest : Expr :=
  .project ⟨.scan films, "each"⟩
    (.newInstance (.ofMembers [⟨"Id", integer⟩, ⟨"Best", integer⟩]) [filmId "each", .element best])

/-- Whether the expression is no element, or shows the score. -/
def showsScore : Expr → Bool
  | .element e => decide e.Subquery && e.shown == ["Score"]
  | _ => true

/-- The score is carried out of the sorted rows. -/
theorem best_shows_score : ∃ root columns t, build {} (.query withBest) = .ok ((.select root, columns), t) ∧
    ∃ id, (t.stages.get root).elements = [id] ∧ (t.stages.get id).outputNames = ["Score"] := by
  obtain ⟨⟨⟨statement, columns⟩, t⟩, hrun, root, hroot, id, -, helements⟩ :
      ∃ r : (Statement × List Member) × State, build {} (.query withBest) = .ok r ∧ ∃ root ∈ root? r.1.1,
        ∃ id ∈ List.range r.2.stages.length, (r.2.stages.get root).elements = [id] := exists_ok (by decide +kernel)
  cases statement with
  | select root' =>
    obtain rfl : root' = root := by simpa [root?] using hroot
    obtain ⟨e, hmem, hshown⟩ := (elements_show (by decide +kernel) (none_generated (by decide +kernel))
      (by decide +kernel) hrun).2.2 root' id (by simp [helements])
    have hscores : ∀ e ∈ withBest.nodes, showsScore e = true := by decide +kernel
    have hscore := hscores _ hmem
    simp only [showsScore, Bool.and_eq_true, decide_eq_true_eq, beq_iff_eq] at hscore
    exact ⟨root', columns, t, hrun, id, helements, (hshown hscore.1).trans hscore.2⟩
  | _ => cases hroot

/-- A score above two. -/
def good : Expr :=
  let scores : Expr := .project ⟨.scan films, "other"⟩
    (.newInstance (.ofMembers [⟨"Score", integer⟩]) [filmRating "other"])
  .filter ⟨scores, "score"⟩
    (.comparison .greaterThan (.property (.varRef "score" integer) "Score" integer) (.constant (.int32 2)))

/-- Each film with a score above two. -/
def withGood : Expr :=
  .project ⟨.scan films, "film"⟩
    (.newInstance (.ofMembers [⟨"Id", integer⟩, ⟨"Top", integer⟩]) [filmId "film", .element good])

/-- The subquery selects a constant: the only column of the filtered rows is not carried outwards. -/
theorem good_shows_nothing : ∃ root columns t, build {} (.query withGood) = .ok ((.select root, columns), t) ∧
    good.resultType.memberNames = ["Score"] ∧
    ∃ id, ((t.stages.get root).projection.getD []).flatMap (·.expr.subqueries) = [id] ∧
      (t.stages.get id).outputNames = [] ∧
      ((t.stages.get root).projection.getD []).map (fun c => c.expr.render .modern t.stages) =
        ["\"film\".\"Id\"",
          "(SELECT 1 FROM (SELECT \"other\".\"Rating\" AS \"Score\" FROM \"dbo\".\"Film\" AS \"other\") AS \"score\" " ++
            "WHERE \"score\".\"Score\" > 2)"] := by
  obtain ⟨⟨⟨statement, columns⟩, t⟩, hrun, root, hroot, id, -, hsubqueries, hnames, htexts⟩ :
      ∃ r : (Statement × List Member) × State, build {} (.query withGood) = .ok r ∧ ∃ root ∈ root? r.1.1,
        ∃ id ∈ List.range r.2.stages.length,
          ((r.2.stages.get root).projection.getD []).flatMap (·.expr.subqueries) = [id] ∧
            (r.2.stages.get id).outputNames = [] ∧
            ((r.2.stages.get root).projection.getD []).map (fun c => c.expr.render .modern r.2.stages) =
              ["\"film\".\"Id\"",
                "(SELECT 1 FROM (SELECT \"other\".\"Rating\" AS \"Score\" FROM \"dbo\".\"Film\" AS \"other\") AS \"score\" " ++
                  "WHERE \"score\".\"Score\" > 2)"] := exists_ok (by decide +kernel)
  cases statement with
  | select root' =>
    obtain rfl : root' = root := by simpa [root?] using hroot
    exact ⟨root', columns, t, hrun, by decide +kernel, id, hsubqueries, hnames, htexts⟩
  | _ => cases hroot

end Films

end TreeSql.Compile
