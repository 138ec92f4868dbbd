import TreeSql.Proofs.Arena.Inside
import TreeSql.Proofs.References.Typing

/-
  TreeSql.Proofs.Exposed.Sealed — stages whose columns are settled.

  The operands of a set operation are matched by position, and the element of a relation is the one column of a
  subquery in parentheses. So the columns of these stages are settled once they stand in another stage (`Sealed`).
  `Aligned` says that they are the right ones: each operand lines up with the members of its rows, and each
  element shows what can be read off its relation (`Expr.shown`).
-/
namespace TreeSql

open Sql Compile

/-! ## Columns that are shown -/

namespace Face

/-- The columns that the open stage exposes. -/
def shown (f : Face) : List String := if f.listed then f.members else []

/-- The columns of the open stage once the first column of the innermost select list has been carried there. -/
def carrying (f : Face) : List String :=
  if f.wrapped && f.clauses.projection.isNone then f.shown ++ (f.inner.take 1).filter (· ∉ f.shown) else f.shown

end Face

namespace Expr

/-- The columns that a relation shows in place of a value. -/
def shown (e : Expr) : List String :=
  match e with
  | limit .. => (e.face none).carrying
  | _ => (e.face none).shown

theorem shown_eq {e : Expr} (h : ∀ input count, e ≠ .limit input count) : e.shown = (e.face none).shown := by
  cases e with
  | limit input count => exact (h input count rfl).elim
  | _ => rfl

def isCall : Expr → Bool
  | call .. => true
  | _ => false

/-- A relation with distinct members, which is a subquery in place of a value. -/
structure Subquery (e : Expr) : Prop where
  relational : e.isRelational = true
  notCall : e.isCall = false
  nodup : (e.face none).members.Nodup

instance (e : Expr) : Decidable e.Subquery :=
  decidable_of_iff (e.isRelational = true ∧ e.isCall = false ∧ (e.face none).members.Nodup)
    ⟨fun ⟨h, h', h''⟩ => ⟨h, h', h''⟩, fun h => ⟨h.relational, h.notCall, h.nodup⟩⟩

/-- The declared type of the rows names their members, each of them once. -/
def Flat (e : Expr) : Prop :=
  e.resultType.memberNames = (e.face none).members ∧ e.resultType.memberNames.Nodup

end Expr

namespace Sql

/-! ## Subqueries in parentheses -/

namespace SqlExpr

def stage? : SqlExpr → Option StageId
  | stage id => some id
  | _ => none

mutual

/-- The subqueries in parentheses, from left to right. -/
def elements : SqlExpr → List StageId
  | paren e => e.stage?.toList ++ elements e
  | seq es | list es | call _ es => elementsOfAll es
  | column e _ _ | cast e _ | leading _ e | trailing _ e | exists_ e => elements e
  | binary _ l r => elements l ++ elements r
  | verbatim _ | constant _ | property _ | columnRef .. | stage _ => []
termination_by structural e => e

def elementsOfAll : List SqlExpr → List StageId
  | [] => []
  | e :: es => elements e ++ elementsOfAll es
termination_by structural es => es

end

theorem elementsOfAll_eq_flatMap (es : List SqlExpr) : elementsOfAll es = es.flatMap elements := by
  induction es with
  | nil => rfl
  | cons e es ih => rw [elementsOfAll, ih, List.flatMap_cons]

theorem elements_negate (a : SqlExpr) : a.negate.elements = a.elements := by
  cases a with
  | binary op l r => cases h : op.negated? <;> simp [negate, elements, h]
  | leading op e => cases op <;> simp [negate, elements]
  | _ => simp [negate, elements]

theorem elements_followedBy (a : SqlExpr) (text : String) : (a.followedBy text).elements = a.elements := by
  cases a <;> simp [followedBy, elements, elementsOfAll, elementsOfAll_eq_flatMap]

mutual

theorem stage_of_mem_elements {id : StageId} : ∀ (e : SqlExpr), id ∈ e.elements → .stage id ∈ e.leaves
  | paren e, h => by
    rcases List.mem_append.mp h with h | h
    · cases e with
      | stage j =>
        obtain rfl := List.mem_singleton.mp h
        exact .head _
      | _ => cases h
    · exact stage_of_mem_elements e h
  | seq es, h | list es, h | call _ es, h => stage_of_mem_elementsOfAll es h
  | column e _ _, h | cast e _, h | leading _ e, h | trailing _ e, h | exists_ e, h => stage_of_mem_elements e h
  | binary _ l r, h => (List.mem_append.mp h).elim (fun h => List.mem_append_left _ (stage_of_mem_elements l h))
    fun h => List.mem_append_right _ (stage_of_mem_elements r h)
  | verbatim _, h | constant _, h | property _, h | columnRef .., h | stage _, h => by cases h
termination_by structural e => e

theorem stage_of_mem_elementsOfAll {id : StageId} :
    ∀ (es : List SqlExpr), id ∈ elementsOfAll es → .stage id ∈ leavesOfAll es
  | [], h => by cases h
  | e :: es, h => (List.mem_append.mp h).elim (fun h => List.mem_append_left _ (stage_of_mem_elements e h))
    fun h => List.mem_append_right _ (stage_of_mem_elementsOfAll es h)
termination_by structural es => es

end

theorem elements_subset (e : SqlExpr) : e.elements ⊆ e.subqueries := fun _ h =>
  mem_subqueries.mpr (stage_of_mem_elements e h)

end SqlExpr

open SqlExpr in
/-- What holds of all elements holds of those of expressions put together. -/
theorem congruence_elements (P : StageId → Prop) : Congruence fun e _ => ∀ id ∈ e.elements, P id := by
  have hall {as bs : List SqlExpr} (h : List.Forall₂ (fun e _ => ∀ id ∈ e.elements, P id) as bs) :
      ∀ id ∈ elementsOfAll as, P id := by
    rw [elementsOfAll_eq_flatMap]
    induction h with
    | nil => simp
    | cons h _ ih => exact List.forall_mem_append.mpr ⟨h, ih⟩
  constructor
  case verbatim => exact fun _ _ hid => by cases hid
  case int => exact fun _ _ hid => by cases hid
  case seq => exact hall
  case list => exact hall
  case call => exact fun _ _ _ h => hall h
  case binary => exact fun _ _ _ _ _ ha hb => List.forall_mem_append.mpr ⟨ha, hb⟩
  case negate => exact fun h => by rwa [elements_negate]
  case followedBy => exact fun h _ _ => by rwa [elements_followedBy]
  case paren =>
    intro a _ h hstage
    cases a with
    | stage id => exact (hstage id rfl).elim
    | _ => exact h
  case exists_ => exact id
  case column => exact fun h _ _ => h
  case cast => exact fun h _ => h
  case leading | trailing => exact fun _ _ _ h => h

def Source.elements : Source → List StageId
  | .function e | .rows e => e.elements
  | _ => []

def FromTree.elements : FromTree → List StageId
  | item i => i.source.elements
  | join l _ r c => l.elements ++ r.elements ++ c.elim [] SqlExpr.elements

/-- The set operation that a source is. -/
def Source.combination? : Source → Option (SetOpKind × List StageId)
  | .setOp kind operands => some (kind, operands)
  | _ => none

namespace Stage

/-- The subqueries in parentheses in the expressions of a stage. -/
def elements (s : Stage) : List StageId :=
  s.from_.elim [] FromTree.elements ++ s.clauseExprs.flatMap SqlExpr.elements

/-- The set operations in a FROM clause. -/
def combinations (s : Stage) : List (SetOpKind × List StageId) :=
  s.items.filterMap (·.source.combination?)

variable {a b : Stage}

theorem combinations_congr (h : b.from_ = a.from_) : b.combinations = a.combinations := by
  rw [combinations, combinations, items, items, h]

theorem elements_wider (h : Wider a b) : b.elements = a.elements := by
  rw [h.rest]
  rfl

end Stage

end Sql

namespace Compile

/-! ## Sealed stages -/

variable {test : Expr → Bool} {A B : Stages} {id : StageId} {P : StageId → Prop}

/-- The stage is an operand of a set operation, or an element. -/
def Sealed (stages : Stages) (id : StageId) : Prop :=
  ∃ j, (∃ c ∈ (stages.get j).combinations, id ∈ c.2) ∨ id ∈ (stages.get j).elements

/-- The stage exposes the members of the rows, in their order. -/
def LinesUp (stages : Stages) (id : StageId) (e : Expr) : Prop :=
  e.Flat → (stages.get id).outputNames = e.resultType.memberNames

/-- The stage is the element of a relation, and shows the columns that can be read off it. -/
def ShowsElement (test : Expr → Bool) (stages : Stages) (id : StageId) : Prop :=
  ∃ e : Expr, test (.element e) = true ∧ (e.Subquery → (stages.get id).outputNames = e.shown)

theorem ShowsElement.congr (h : ShowsElement test A id) (hsame : (B.get id).outputNames = (A.get id).outputNames) :
    ShowsElement test B id := by
  obtain ⟨e, htest, hshown⟩ := h
  exact ⟨e, htest, fun he => hsame.trans (hshown he)⟩

/-- Set operations and elements are such that pass the test, operands line up, and elements show their columns. -/
structure Aligned (test : Expr → Bool) (stages : Stages) : Prop where
  operands : ∀ j, ∀ c ∈ (stages.get j).combinations, ∃ l r, test (.setOp c.1 l r) = true ∧
    List.Forall₂ (LinesUp stages) c.2 (setOpOperands c.1 l r)
  elements : ∀ j, ∀ id ∈ (stages.get j).elements, ShowsElement test stages id

/-- No set operation is new, and all new elements have the property. -/
structure OnlyNew (P : StageId → Prop) (A B : Stages) : Prop where
  combinations : ∀ j, (B.get j).combinations ⊆ (A.get j).combinations
  elements : ∀ j, ∀ id ∈ (B.get j).elements, id ∈ (A.get j).elements ∨ P id

theorem OnlyNew.sealed (h : OnlyNew P A B) (hid : Sealed B id) : Sealed A id ∨ P id := by
  obtain ⟨j, ⟨c, hc, hmem⟩ | hmem⟩ := hid
  · exact .inl ⟨j, .inl ⟨c, h.combinations j hc, hmem⟩⟩
  · exact (h.elements j id hmem).imp_left fun hmem => ⟨j, .inr hmem⟩

/-- What was sealed is as it was. -/
theorem Aligned.congr (h : Aligned test A) (hnew : OnlyNew P A B) (hshown : ∀ id, P id → ShowsElement test B id)
    (hsame : ∀ id, Sealed A id → (B.get id).outputNames = (A.get id).outputNames) : Aligned test B where
  operands j c hc := by
    obtain ⟨l, r, htest, hnames⟩ := h.operands j c (hnew.combinations j hc)
    obtain ⟨hlength, hnames⟩ := List.forall₂_iff_zip.mp hnames
    refine ⟨l, r, htest, List.forall₂_iff_zip.mpr ⟨hlength, fun hmem hflat => (hsame _ ?_).trans (hnames hmem hflat)⟩⟩
    exact ⟨j, .inl ⟨c, hnew.combinations j hc, (List.of_mem_zip hmem).1⟩⟩
  elements j id hid := by
    rcases hnew.elements j id hid with hid | hid
    · exact (h.elements j id hid).congr (hsame id ⟨j, .inr hid⟩)
    · exact hshown id hid

theorem onlyNew_of_wider (h : ∀ j, Wider (A.get j) (B.get j)) : OnlyNew (fun _ => False) A B where
  combinations j := Stage.combinations_congr (h j).from_eq ▸ List.Subset.refl _
  elements j _ hid := .inl (Stage.elements_wider (h j) ▸ hid)

theorem onlyNew_modify {g : Stage → Stage} (hcombinations : (g (A.get id)).combinations ⊆ (A.get id).combinations)
    (helements : ∀ j ∈ (g (A.get id)).elements, j ∈ (A.get id).elements ∨ P j) : OnlyNew P A (A.modify id g) := by
  refine ⟨fun j => ?_, fun j k hk => ?_⟩
  · rw [Stages.get_modify]
    split
    · rename_i hj
      exact hj.1 ▸ hcombinations
    · exact List.Subset.refl _
  · rw [Stages.get_modify] at hk
    split at hk
    · rename_i hj
      rw [hj.1]
      exact helements k hk
    · exact .inl hk

theorem onlyNew_append {stage : Stage} (hnone : stage.combinations = []) :
    OnlyNew (· ∈ stage.elements) A (A ++ [stage]) := by
  refine ⟨fun j => ?_, fun j k hk => ?_⟩
  · rw [Stages.get_append]
    split
    · rw [hnone]
      exact List.nil_subset _
    · exact List.Subset.refl _
  · rw [Stages.get_append] at hk
    split at hk
    · exact .inr hk
    · exact .inl hk

end Compile

end TreeSql
