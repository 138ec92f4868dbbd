import TreeSql.Proofs.References.Visible

/-
  TreeSql.Proofs.References.Aliases — references and the aliases around them.

  Where nothing is known of the columns of tables, a query resolves if its properties are taken of
  variables in scope whose rows are not those of a join (`rowsOfJoin`): a join has no columns but those
  of its sides. Every reference of such a query names an item around it (`aliased_of_resolves`).

  The groups over a join with a stage between are rows of the join in this sense: a column of them is
  looked up inside the join, under the alias of the grouping (`Films.key_not_aliased`).
-/
namespace TreeSql

open Sql Compile

/-! ## Columns that are not known -/

/-- What the clauses do to a face without a schema: the columns of the innermost stage pass through all
    stages, and only a select list makes up new ones. -/
structure Face.Even (f : Face) : Prop where
  below : f.below = if f.wrapped then f.columns else none
  projected : f.clauses.projection.isSome = true → f.below = f.columns
  inner : f.inner ≠ [] → f.columns = none

namespace Face.Even

variable {f : Face}

theorem passing (h : f.Even) : f.passing = f.columns := by
  rw [Face.passing]
  split
  · exact h.projected ‹_›
  · rfl

theorem wrap (h : f.Even) : f.wrap.Even where
  below := h.passing
  projected hp := by cases hp
  inner := h.inner

theorem openFor (h : f.Even) (clause : Clause) : (f.openFor clause).Even := by
  rw [Face.openFor]
  split
  · exact h
  · exact h.wrap

/-- Clauses other than a select list. -/
theorem attach (h : f.Even) {clause : Stage → Stage} (hclause : ∀ s, (clause s).projection = s.projection) :
    (f.attach clause).Even where
  below := h.below
  projected hp := h.projected (hclause f.clauses ▸ hp)
  inner := h.inner

theorem bind (h : f.Even) (var : String) : (f.bind var).Even := ⟨h.below, h.projected, h.inner⟩

theorem sort (h : f.Even) : f.sort.Even := (h.openFor .sort).attach fun _ => rfl

theorem skip (h : f.Even) : f.skip.Even := (h.openFor .skip).attach fun _ => rfl

theorem limit (h : f.Even) : f.limit.Even := h.attach fun _ => rfl

theorem distinct (h : f.Even) : f.distinct.Even := by
  rw [Face.distinct]
  split
  · exact h.attach fun _ => rfl
  · exact ⟨h.wrap.below, (by cases ·), h.wrap.inner⟩

/-- A node of one stage without a select list. -/
theorem single {columns : Columns} {sides : Scope} {members : List String} :
    Face.Even { columns := columns, sides := sides, members := members } :=
  ⟨rfl, (by cases ·), fun hinner => (hinner rfl).elim⟩

theorem project (names : List String) : (f.project none names).Even := ⟨rfl, fun _ => rfl, fun _ => rfl⟩

theorem groupBy (h : f.Even) (names : List String) : (f.groupBy none names).Even := by
  have hopen := h.openFor .groupBy
  refine ⟨?_, fun _ => rfl, fun hinner => ?_⟩
  · show (f.openFor .groupBy).below = if (f.openFor .groupBy).wrapped then (f.openFor .groupBy).below else none
    rw [hopen.below]
    split <;> simp
  · show (f.openFor .groupBy).below = none
    rw [hopen.below]
    split
    · rename_i hwrapped
      refine hopen.inner fun hnil => hinner ?_
      simp [Face.groupBy, hwrapped, hnil]
    · rfl

end Face.Even

namespace Expr

theorem elementFace?_eq_some {schema : Option Schema} {es : List Expr} {f : Face} :
    elementFace? schema es = some f ↔ ∃ e, es = [element e] ∧ e.face schema = f := by
  constructor
  · intro h
    unfold elementFace? at h
    split at h
    · exact ⟨_, rfl, Option.some.inj h⟩
    · cases h
  · rintro ⟨e, rfl, rfl⟩
    rfl

theorem even_face (e : Expr) : (e.face none).Even := by
  match e with
  | filter ⟨e, v⟩ _ => exact ((even_face e).bind v).openFor _
  | project .. => exact .project _
  | sort ⟨e, v⟩ _ => exact ((even_face e).bind v).sort
  | skip ⟨e, v⟩ _ _ => exact ((even_face e).bind v).skip
  | limit e _ => exact (even_face e).limit
  | distinct e => exact (even_face e).distinct
  | groupBy ⟨e, v, _⟩ _ _ _ => exact ((even_face e).bind v).groupBy _
  | newInstance t args =>
    rw [face]
    split
    · rename_i f hf
      obtain ⟨e, hargs, rfl⟩ := elementFace?_eq_some.mp hf
      have hsize : e.size < (newInstance t args).size := by simp only [hargs, size, sizeOfAll]; omega
      exact (even_face e).limit
    · exact .single
  | scan _ | setOp .. | call .. | join .. | element _ | comparison .. | arithmetic .. | and .. | or .. | not _
  | isNull _ | isEmpty _ | like .. | isIn .. | cast .. | caseOf .. | constant _ | null _ | paramRef ..
  | varRef .. | property .. => exact .single
termination_by e.size
decreasing_by all_goals first | exact hsize | (simp only [size]; omega)

/-- Whether a column of the rows is looked up where there is none: in a join, for the rows of a join and for
    groups of these if a stage is put between. -/
def lacksColumns : Expr → Bool
  | filter ⟨e, _⟩ _ | sort ⟨e, _⟩ _ | skip ⟨e, _⟩ _ _ | limit e _ | distinct e => e.lacksColumns
  | groupBy ⟨e, v, _⟩ _ _ _ => e.lacksColumns && (((e.face none).bind v).openFor .groupBy).wrapped
  | newInstance _ args => (elementFace? none args).any (·.columns.isSome)
  | scan _ | project .. | setOp .. | call .. => false
  | _ => true
termination_by structural e => e

/-- Without a schema, only rows of joins lack columns. -/
theorem columns_face (e : Expr) : (e.face none).columns = if e.lacksColumns then some [] else none := by
  match e with
  | filter ⟨e, v⟩ _ | sort ⟨e, v⟩ _ | skip ⟨e, v⟩ _ _ =>
    rw [lacksColumns, ← columns_face e]
    exact Face.columns_openFor ..
  | limit e _ =>
    rw [lacksColumns, ← columns_face e]
    rfl
  | distinct e =>
    rw [lacksColumns, ← columns_face e, face, Face.distinct]
    split <;> rfl
  | groupBy ⟨e, v, _⟩ _ _ t =>
    have hopen := ((even_face e).bind v).openFor .groupBy
    show (((e.face none).bind v).openFor .groupBy).below = _
    rw [hopen.below, Face.columns_openFor, lacksColumns]
    show (if _ then (e.face none).columns else none) = _
    rw [columns_face e]
    grind
  | newInstance t args =>
    rw [face, lacksColumns]
    split
    · rename_i f hf
      obtain ⟨e, hargs, rfl⟩ := elementFace?_eq_some.mp hf
      have hsize : e.size < (newInstance t args).size := by simp only [hargs, size, sizeOfAll]; omega
      have hcolumns := columns_face e
      show (e.face none).columns = _
      rw [hf, Option.any_some, hcolumns]
      cases e.lacksColumns <;> rfl
    · rename_i hf
      rw [hf]
      rfl
  | project .. | join .. | scan _ | setOp .. | call .. | element _ | comparison .. | arithmetic .. | and ..
  | or .. | not _ | isNull _ | isEmpty _ | like .. | isIn .. | cast .. | caseOf .. | constant _ | null _
  | paramRef .. | varRef .. | property .. => rfl
termination_by e.size
decreasing_by all_goals first | exact hsize | (simp only [size]; omega)

/-- Without a schema, a limited relation in place of a value can be carried through its stages. -/
theorem carried_none (e : Expr) : e.carried none = true := by
  cases e with
  | limit e n =>
    rw [carried, (even_face e).passing]
    cases hinner : (e.face none).inner with
    | nil => rfl
    | cons column columns => simp [(even_face e).inner (by simp [hinner]), Columns.has]
  | _ => rfl

end Expr

/-! ## Aliases in scope -/

namespace Compile

/-- An item around an expression has the alias. -/
def Aliased (env : Items) (alias_ : String) : Prop := ∃ i ∈ env, i.name = alias_

instance (env : Items) (alias_ : String) : Decidable (Aliased env alias_) :=
  inferInstanceAs (Decidable (∃ i ∈ env, _))

theorem found_none {stages : Stages} {env : Items} {r : String × String} :
    Found none stages env r ↔ Aliased env r.1 := by
  have hat : (∃ i, Items.at_ env r.1 = some i) ↔ Aliased env r.1 := by
    rw [← Option.isSome_iff_exists, Items.at_, List.find?_isSome]
    simp [Aliased]
  simp [Found, ← hat]

/-- Every reference of a query names an item of its own stage, of a stage around it, or to the left of a
    lateral item that it is in. -/
theorem aliased_of_resolves {settings : Settings} {query : Expr} {root : StageId} {columns : List Member} {t : State}
    (hnodup : query.binders.Nodup) (hnames : ∀ x ∈ query.binders, ¬Generated x)
    (hscope : ((declaredColumns? query (aliasName 1)).getD query).resolves none [] = true)
    (hrun : build settings (.query query) = .ok ((.select root, columns), t)) {env : Items} {id : StageId}
    (hid : Within t.stages root env id) :
    ∀ q ∈ (t.stages.get id).exprs env, ∀ r ∈ q.2.references, Aliased q.1 r.1 := by
  obtain ⟨-, -, hrefs, -⟩ := (closed_of_resolves hnodup hnames hscope hrun).within hid
  exact fun q hq r hr => found_none.mp (hrefs q hq r hr)

namespace Films

/-- Films with up to three others of their rating, where there is a later film. -/
def alike : Expr :=
  let id (x : String) : Expr := .property (.varRef x integer) "Id" integer
  let rating (x : String) : Expr := .property (.varRef x integer) "Rating" integer
  let others : Expr := .filter ⟨.scan films, "other"⟩ (.comparison .equals (rating "other") (rating "film"))
  let later : Expr := .filter ⟨.scan films, "later"⟩ (.comparison .greaterThan (id "later") (id "film"))
  let pairs : Expr := .join .crossApply ⟨.scan films, "film"⟩ ⟨.limit others (.constant (.int32 3)), "close"⟩ none
  .project ⟨.filter ⟨pairs, "pair"⟩ (.not (.isEmpty later)), "row"⟩
    (.newInstance (.ofMembers [⟨"Film", integer⟩, ⟨"Other", integer⟩]) [id "film", id "close"])

/-- A lateral item refers to its left side, and a subquery to the stage around it. -/
theorem alike_aliased : ∃ root columns t, build {} (.query alike) = .ok ((.select root, columns), t) ∧
    (∃ p ∈ (t.stages.get root).inner [], ∃ q ∈ (t.stages.get p.2).exprs p.1, ∃ r ∈ q.2.references,
      ¬Aliased (t.stages.get p.2).items r.1) ∧
    ∀ env id, Within t.stages root env id → ∀ q ∈ (t.stages.get id).exprs env, ∀ r ∈ q.2.references,
      Aliased q.1 r.1 := by
  obtain ⟨⟨⟨statement, columns⟩, t⟩, hrun, root, hroot, hinner⟩ :
      ∃ r : (Statement × List Member) × State, build {} (.query alike) = .ok r ∧ ∃ root ∈ root? r.1.1,
        ∃ p ∈ (r.2.stages.get root).inner [], ∃ q ∈ (r.2.stages.get p.2).exprs p.1, ∃ ref ∈ q.2.references,
          ¬Aliased (r.2.stages.get p.2).items ref.1 := exists_ok (by decide +kernel)
  cases statement with
  | select root' =>
    obtain rfl : root' = root := by simpa [root?] using hroot
    refine ⟨root', columns, t, hrun, hinner, fun env id hid => ?_⟩
    exact aliased_of_resolves (by decide +kernel) (none_generated (by decide +kernel)) (by decide +kernel) hrun hid
  | _ => cases hroot

/-- The number of pairs of films for each rating, of two pairs with one identifier. -/
def pairRatings : Expr :=
  let id (x : String) : Expr := .property (.varRef x integer) "Id" integer
  let pairs : Expr := .join .inner ⟨.scan films, "l"⟩ ⟨.scan films, "r"⟩ (some (.comparison .equals (id "l") (id "r")))
  .groupBy ⟨.limit pairs (.constant (.int32 2)), "v", "g"⟩
    [.property (.property (.varRef "v" integer) "l" integer) "Rating" integer]
    [.ofArg "Count" (.property (.property (.varRef "g" integer) "r" integer) "Id" integer) integer]
    (.ofElement (.ofMembers [⟨"Key", integer⟩, ⟨"N", integer⟩]))

/-- The key of the groups is looked up in the join, where the alias of the grouping means nothing. -/
theorem key_not_aliased :
    let key := Expr.property (.varRef "x" integer) "Key" integer
    let query := Expr.filter ⟨pairRatings, "x"⟩ (.comparison .greaterThan key (.constant (.int32 2)))
    query.binders.Nodup ∧ (∀ x ∈ query.binders, ¬Generated x) ∧
    ∃ root columns t, build {} (.query query) = .ok ((.select root, columns), t) ∧
      ∃ env id, Within t.stages root env id ∧ ∃ p ∈ (t.stages.get id).exprs env,
        ∃ r ∈ p.2.references, ¬Aliased p.1 r.1 := by
  intro key query
  refine ⟨by decide +kernel, none_generated (by decide +kernel), ?_⟩
  obtain ⟨⟨⟨statement, columns⟩, t⟩, hrun, root, hroot, p, hp, q, hq, x, hx, ref, href, haliased⟩ :
      ∃ r : (Statement × List Member) × State, build {} (.query query) = .ok r ∧ ∃ root ∈ root? r.1.1,
        ∃ p ∈ (r.2.stages.get root).inner [], ∃ q ∈ (r.2.stages.get p.2).inner p.1,
          ∃ x ∈ (r.2.stages.get q.2).exprs q.1, ∃ ref ∈ x.2.references, ¬Aliased x.1 ref.1 :=
    exists_ok (by decide +kernel)
  cases statement with
  | select root' =>
    obtain rfl : root' = root := by simpa [root?] using hroot
    exact ⟨root', columns, t, hrun, q.1, q.2, .step (.step .root hp) hq, x, hx, ref, href, haliased⟩
  | _ => cases hroot

end Films

end Compile

end TreeSql
