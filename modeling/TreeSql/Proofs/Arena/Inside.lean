import TreeSql.Proofs.Compile.Frame
import TreeSql.Proofs.Compile.Lifting
import TreeSql.Proofs.References.Scope

/-
  TreeSql.Proofs.Arena.Inside — which stages and texts stand in a stage.

  Stages refer to each other by number, in the FROM clause and in the expressions of all clauses
  (`Stage.inside`). `Fits` says of an expression, a FROM clause or a stage that all numbers in it have a
  property, and that all its texts are allowed. Clauses that fit are attached to stages that fit, and pulling
  columns up does not matter.
-/
namespace TreeSql.Sql

variable {L : String → Prop} {I J : StageId → Prop}

/-! ## Expressions -/

namespace SqlExpr

/-- The subqueries have the property, and the texts are allowed. -/
structure Fits (L : String → Prop) (I : StageId → Prop) (e : SqlExpr) : Prop where
  subqueries : ∀ id ∈ e.subqueries, I id
  texts : ∀ text ∈ e.texts, L text

theorem Fits.mono {e : SqlExpr} (h : e.Fits L I) (hI : ∀ id, I id → J id) : e.Fits L J :=
  ⟨fun id hid => hI id (h.subqueries id hid), h.texts⟩

theorem textsOfAll_eq_flatMap (es : List SqlExpr) : textsOfAll es = es.flatMap texts := by
  induction es with
  | nil => rfl
  | cons e es ih => rw [textsOfAll, ih, List.flatMap_cons]

theorem texts_negate (a : SqlExpr) : a.negate.texts = a.texts := by
  cases a with
  | binary op l r => cases h : op.negated? <;> simp [negate, texts, h]
  | leading op e => cases op <;> simp [negate, texts]
  | _ => simp [negate, texts]

theorem texts_followedBy (a : SqlExpr) (text : String) : (a.followedBy text).texts = a.texts ++ [text] := by
  cases a <;> simp [followedBy, texts, textsOfAll, textsOfAll_eq_flatMap]

theorem mem_subqueries {e : SqlExpr} {id : StageId} : id ∈ e.subqueries ↔ .stage id ∈ e.leaves := by
  unfold subqueries
  rw [List.mem_filterMap]
  constructor
  · rintro ⟨x, hx, hid⟩
    cases x <;> simp at hid
    exact hid ▸ hx
  · exact fun h => ⟨_, h, rfl⟩

/-- An expression that is put together from expressions that fit. -/
theorem fits_of_parts {es : List SqlExpr} {e : SqlExpr} (h : ∀ x ∈ es, x.Fits L I)
    (hleaves : e.leaves ⊆ es.flatMap leaves)
    (htexts : e.texts ⊆ es.flatMap texts) : e.Fits L I where
  subqueries id hid := by
    obtain ⟨x, hx, hleaf⟩ := List.mem_flatMap.mp (hleaves (mem_subqueries.mp hid))
    exact (h x hx).subqueries id (mem_subqueries.mpr hleaf)
  texts text ht := by
    obtain ⟨x, hx, htext⟩ := List.mem_flatMap.mp (htexts ht)
    exact (h x hx).texts text htext

theorem fits_of_same {a e : SqlExpr} (h : a.Fits L I) (hleaves : e.leaves = a.leaves) (htexts : e.texts = a.texts) :
    e.Fits L I where
  subqueries id hid := h.subqueries id (mem_subqueries.mpr (hleaves ▸ mem_subqueries.mp hid))
  texts text ht := h.texts text (htexts ▸ ht)

theorem fits_verbatim {text : String} (h : L text) : (verbatim text).Fits L I :=
  ⟨by simp [subqueries, leaves], by simpa [texts] using h⟩

/-- Neither stages nor texts. -/
theorem fits_bare {e : SqlExpr} (hleaves : e.subqueries = []) (htexts : e.texts = []) : e.Fits L I :=
  ⟨by simp [hleaves], by simp [htexts]⟩

theorem fits_list {es : List SqlExpr} (h : ∀ x ∈ es, x.Fits L I) : (list es).Fits L I :=
  fits_of_parts h (by simp [leaves, leavesOfAll_eq_flatMap]) (by simp [texts, textsOfAll_eq_flatMap])

theorem fits_seq {es : List SqlExpr} (h : ∀ x ∈ es, x.Fits L I) : (seq es).Fits L I :=
  fits_of_parts h (by simp [leaves, leavesOfAll_eq_flatMap]) (by simp [texts, textsOfAll_eq_flatMap])

theorem fits_stage {id : StageId} (h : I id) : (stage id).Fits L I :=
  ⟨by simpa [subqueries, leaves] using h, by simp [texts]⟩

end SqlExpr

open Compile (Unmarked) in
/-- Expressions put together from ones that fit do so too. -/
theorem congruence_fits (hL : ∀ {text : String}, Unmarked text → L text) (I : StageId → Prop) :
    Compile.Congruence fun e _ => e.Fits L I := by
  have hall {as bs : List SqlExpr} (h : List.Forall₂ (fun e _ => SqlExpr.Fits L I e) as bs) :
      ∀ a ∈ as, a.Fits L I := by
    induction h with
    | nil => simp
    | cons h _ ih => simpa using ⟨h, ih⟩
  constructor
  case verbatim => exact fun h => SqlExpr.fits_verbatim (hL h.1)
  case int => exact fun _ => SqlExpr.fits_bare rfl rfl
  case seq => exact fun h => SqlExpr.fits_seq (hall h)
  case list => exact fun h => SqlExpr.fits_list (hall h)
  case call => exact fun _ _ _ h => SqlExpr.fits_of_same (SqlExpr.fits_list (hall h)) rfl rfl
  case binary =>
    intro op a b _ _ ha hb
    have hab : ∀ x ∈ [a, b], x.Fits L I := by simpa using ⟨ha, hb⟩
    exact SqlExpr.fits_of_parts hab (by simp [SqlExpr.leaves]) (by simp [SqlExpr.texts])
  case negate => exact fun h => SqlExpr.fits_of_same h (SqlExpr.leaves_negate _) (SqlExpr.texts_negate _)
  case followedBy =>
    intro a b h text htext
    have hboth : ∀ x ∈ [a, .verbatim text], x.Fits L I := by simpa using ⟨h, SqlExpr.fits_verbatim (hL htext.1)⟩
    refine SqlExpr.fits_of_parts hboth ?_ ?_
    · simp [SqlExpr.leaves_followedBy, SqlExpr.leaves]
    · simp [SqlExpr.texts_followedBy, SqlExpr.texts]
  case paren => exact fun h _ => SqlExpr.fits_of_same h rfl rfl
  case exists_ => exact fun h => SqlExpr.fits_of_same h rfl rfl
  case column => exact fun h _ _ => SqlExpr.fits_of_same h rfl rfl
  case cast => exact fun h _ => SqlExpr.fits_of_same h rfl rfl
  case leading | trailing => exact fun _ _ _ h => SqlExpr.fits_of_same h rfl rfl

/-! ## FROM clauses -/

/-- The stages in a source. -/
def Source.inside : Source → List StageId
  | .stage id => [id]
  | .setOp _ operands => operands
  | .function e | .rows e => e.subqueries
  | .table _ => []

/-- The stages in a FROM clause, those in its conditions among them. -/
def FromTree.inside : FromTree → List StageId
  | item i => i.source.inside
  | join l _ r c => l.inside ++ r.inside ++ c.elim [] SqlExpr.subqueries

def Source.Fits (L : String → Prop) (I : StageId → Prop) : Source → Prop
  | .stage id => I id
  | .setOp _ operands => ∀ id ∈ operands, I id
  | .function e | .rows e => e.Fits L I
  | .table _ => True

def FromTree.Fits (L : String → Prop) (I : StageId → Prop) : FromTree → Prop
  | item i => i.source.Fits L I
  | join l _ r c => l.Fits L I ∧ r.Fits L I ∧ ∀ e ∈ c, e.Fits L I

theorem Source.Fits.mono {s : Source} (h : s.Fits L I) (hI : ∀ id, I id → J id) : s.Fits L J := by
  cases s with
  | stage id => exact hI id h
  | setOp kind operands => exact fun id hid => hI id (h id hid)
  | function e | rows e => exact SqlExpr.Fits.mono h hI
  | table text => trivial

theorem Source.Fits.inside {s : Source} (h : s.Fits L I) : ∀ id ∈ s.inside, I id := by
  cases s with
  | stage id =>
    intro j hj
    obtain rfl := List.mem_singleton.mp hj
    exact h
  | setOp kind operands => exact h
  | function e | rows e => exact SqlExpr.Fits.subqueries h
  | table text => simp [Source.inside]

theorem FromTree.Fits.mono {f : FromTree} (h : f.Fits L I) (hI : ∀ id, I id → J id) : f.Fits L J := by
  induction f with
  | item i => exact Source.Fits.mono h hI
  | join l kind r c ihl ihr => exact ⟨ihl h.1, ihr h.2.1, fun e he => (h.2.2 e he).mono hI⟩

theorem FromTree.Fits.inside {f : FromTree} (h : f.Fits L I) : ∀ id ∈ f.inside, I id := by
  induction f with
  | item i => exact Source.Fits.inside h
  | join l kind r c ihl ihr =>
    intro id hid
    rcases List.mem_append.mp hid with hid | hid
    · exact (List.mem_append.mp hid).elim (ihl h.1 id) (ihr h.2.1 id)
    · cases c with
      | none => cases hid
      | some e => exact (h.2.2 e rfl).subqueries id hid

/-! ## Stages -/

namespace Stage

/-- The expressions of all clauses but FROM. -/
def clauseExprs (s : Stage) : List SqlExpr :=
  (s.projection.getD []).map (·.expr) ++ s.where_.toList ++ s.groupBy.getD [] ++ (s.orderBy.getD []).map (·.expr) ++
    s.skip.toList ++ s.limit.toList

/-- The stages that a stage refers to. -/
def inside (s : Stage) : List StageId := s.from_.elim [] FromTree.inside ++ s.clauseExprs.flatMap SqlExpr.subqueries

structure Fits (L : String → Prop) (I : StageId → Prop) (s : Stage) : Prop where
  projection : ∀ columns ∈ s.projection, ∀ c ∈ columns, c.expr.Fits L I
  from_ : ∀ f ∈ s.from_, f.Fits L I
  where_ : ∀ e ∈ s.where_, e.Fits L I
  groupBy : ∀ es ∈ s.groupBy, ∀ e ∈ es, e.Fits L I
  orderBy : ∀ items ∈ s.orderBy, ∀ i ∈ items, i.expr.Fits L I
  skip : ∀ e ∈ s.skip, e.Fits L I
  limit : ∀ e ∈ s.limit, e.Fits L I

variable {s t : Stage} {e : SqlExpr}

theorem Fits.mono (h : s.Fits L I) (hI : ∀ id, I id → J id) : s.Fits L J where
  projection columns hs c hc := (h.projection columns hs c hc).mono hI
  from_ f hf := (h.from_ f hf).mono hI
  where_ e he := (h.where_ e he).mono hI
  groupBy es hs e he := (h.groupBy es hs e he).mono hI
  orderBy items hs i hi := (h.orderBy items hs i hi).mono hI
  skip e he := (h.skip e he).mono hI
  limit e he := (h.limit e he).mono hI

/-- The expressions of the clauses fit. -/
theorem Fits.clauseExprs (h : s.Fits L I) : ∀ e ∈ s.clauseExprs, e.Fits L I := by
  have hlist {α : Type} {o : Option (List α)} {f : α → SqlExpr} (h : ∀ as ∈ o, ∀ a ∈ as, (f a).Fits L I) :
      ∀ e ∈ (o.getD []).map f, e.Fits L I := by
    cases o with
    | none => simp
    | some as => simpa using h as rfl
  have hoption {o : Option SqlExpr} (h : ∀ e ∈ o, e.Fits L I) : ∀ e ∈ o.toList, e.Fits L I := by simpa using h
  have hgroup : ∀ e ∈ s.groupBy.getD [], e.Fits L I := by
    have := hlist (f := id) h.groupBy
    rwa [List.map_id] at this
  simp only [Stage.clauseExprs, List.forall_mem_append]
  exact ⟨⟨⟨⟨⟨hlist h.projection, hoption h.where_⟩, hgroup⟩, hlist h.orderBy⟩, hoption h.skip⟩, hoption h.limit⟩

theorem Fits.inside (h : s.Fits L I) : ∀ id ∈ s.inside, I id := by
  refine List.forall_mem_append.mpr ⟨?_, fun id hid => ?_⟩
  · cases hfrom : s.from_ with
    | none => simp
    | some f => exact (h.from_ f hfrom).inside
  · obtain ⟨e, he, hid⟩ := List.mem_flatMap.mp hid
    exact (h.clauseExprs e he).subqueries id hid

/-! ### Attaching -/

theorem Fits.extended (h : s.Fits L I) (hst : Compile.Extended s t) : t.Fits L I := by
  rw [hst.rest]
  exact { h with }

theorem inside_extended (hst : Compile.Extended s t) : t.inside = s.inside := by
  rw [hst.rest]
  rfl

theorem fits_empty : ({} : Stage).Fits L I := by
  constructor <;> simp

theorem fits_ofSource {source : Source} (h : source.Fits L I) (name : String) : (ofSource source name).Fits L I := by
  constructor
  case from_ =>
    intro f hf
    obtain rfl := Option.some.inj hf
    exact h
  all_goals simp [ofSource]

theorem Fits.addCondition (h : s.Fits L I) (he : e.Fits L I) : (Compile.addCondition e s).Fits L I := by
  refine { h with where_ := fun x hx => ?_ }
  obtain rfl := Option.some.inj hx
  split
  · rename_i present hpresent
    have hboth : ∀ x ∈ [present, e], x.Fits L I := by simpa using ⟨h.where_ _ hpresent, he⟩
    exact SqlExpr.fits_of_parts hboth (by simp [SqlExpr.leaves]) (by simp [SqlExpr.texts])
  · exact he

theorem Fits.addLimit (h : s.Fits L I) (he : e.Fits L I) : (Compile.addLimit e s).Fits L I := by
  refine { h with limit := fun x hx => ?_ }
  obtain rfl := Option.some.inj hx
  split
  · rename_i present hpresent
    have hboth : ∀ x ∈ [present, e], x.Fits L I := by simpa using ⟨h.limit _ hpresent, he⟩
    exact SqlExpr.fits_of_parts hboth (by simp [SqlExpr.leaves, SqlExpr.leavesOfAll])
      (by simp [SqlExpr.texts, SqlExpr.textsOfAll])
  · exact he

theorem Fits.project (h : s.Fits L I) {columns : List Column} (hcolumns : ∀ c ∈ columns, c.expr.Fits L I) :
    ({ s with projection := some columns } : Stage).Fits L I :=
  { h with projection := fun _ hs => Option.some.inj hs ▸ hcolumns }

theorem Fits.expose (h : s.Fits L I) (source : String) (names : List String) : (s.expose source names).Fits L I := by
  rw [(Compile.wider_expose s source names).rest]
  exact { h with }

end Stage

/-! ## Stages in stages -/

/-- The first stage refers to the second one. -/
def Stages.Refers (stages : Stages) (a b : StageId) : Prop := b ∈ (stages.get a).inside

end TreeSql.Sql
