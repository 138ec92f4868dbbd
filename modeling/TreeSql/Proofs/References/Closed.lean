import TreeSql.Proofs.Compile.Arena
import TreeSql.Proofs.Compile.Congruence
import TreeSql.Proofs.References.Scope

/-
  TreeSql.Proofs.References.Closed — stages whose references are all visible.

  `Closed` says of a stage what is to be proved of it and of all stages inside it: it does not see changes
  elsewhere, and survives when stages expose more (`Closed.later`).
-/
namespace TreeSql.Sql

/-- There is an item with the alias, and the nearest one exposes the column, if columns are asked for. -/
def Found (schema : Option Schema) (stages : Stages) (env : Items) (r : String × String) : Prop :=
  ∃ i ∈ Items.at_ env r.1, ∀ columns ∈ schema, i.source.Exposes columns stages r.2

theorem found_some {schema : Schema} {stages : Stages} {env : Items} {r : String × String} :
    Found (some schema) stages env r ↔ Visible schema stages env r := by
  simp [Found, Visible]

/-- All references in the stage and in the stages inside it are visible, and all these stages are among
    the given ones. -/
inductive Closed (schema : Option Schema) (among : StageId → Prop) (stages : Stages) : Items → StageId → Prop
  | intro {env : Items} {id : StageId} : among id → id < stages.length →
    (∀ p ∈ (stages.get id).exprs env, ∀ r ∈ p.2.references, Found schema stages p.1 r) →
    (∀ p ∈ (stages.get id).inner env, Closed schema among stages p.1 p.2) →
    Closed schema among stages env id

/-- The references of an expression are visible, and its subqueries are closed. -/
structure Fine (schema : Option Schema) (among : StageId → Prop) (stages : Stages) (env : Items) (e : SqlExpr) :
    Prop where
  visible : ∀ r ∈ e.references, Found schema stages env r
  closed : ∀ id ∈ e.subqueries, Closed schema among stages env id

/-- What a stage has to be like to be closed. -/
structure FineStage (schema : Option Schema) (among : StageId → Prop) (stages : Stages) (env : Items) (s : Stage) :
    Prop where
  exprs : ∀ p ∈ s.exprs env, Fine schema among stages p.1 p.2
  sources : ∀ p ∈ s.from_.elim [] (FromTree.inner env), Closed schema among stages p.1 p.2

/-! ## Leaves -/

namespace SqlExpr

mutual

/-- A leaf is its own only leaf. -/
theorem leaves_of_mem : ∀ {e x : SqlExpr}, x ∈ e.leaves → x.leaves = [x]
  | columnRef .., x, h | stage _, x, h => by
    rw [List.mem_singleton.mp h]
    rfl
  | seq es, _, h | list es, _, h | call _ es, _, h => @leaves_of_mem_all es _ h
  | paren e, _, h | column e _ _, _, h | cast e _, _, h | leading _ e, _, h | trailing _ e, _, h
  | exists_ e, _, h => leaves_of_mem (e := e) h
  | binary _ l r, _, h => (List.mem_append.mp h).elim leaves_of_mem leaves_of_mem
  | verbatim _, _, h | constant _, _, h | property _, _, h => by cases h

theorem leaves_of_mem_all : ∀ {es : List SqlExpr} {x : SqlExpr}, x ∈ leavesOfAll es → x.leaves = [x]
  | [], _, h => by cases h
  | _ :: _, _, h => (List.mem_append.mp h).elim leaves_of_mem leaves_of_mem_all

end

theorem mem_leavesOfAll {es : List SqlExpr} {x : SqlExpr} : x ∈ leavesOfAll es ↔ ∃ e ∈ es, x ∈ e.leaves := by
  rw [leavesOfAll_eq_flatMap, List.mem_flatMap]

end SqlExpr

variable {schema : Option Schema} {among : StageId → Prop}

/-- An expression is fine if its leaves are. -/
theorem fine_iff_leaves {stages : Stages} {env : Items} {e : SqlExpr} :
    Fine schema among stages env e ↔ ∀ x ∈ e.leaves, Fine schema among stages env x := by
  constructor
  · intro h x hx
    have hleaf := SqlExpr.leaves_of_mem hx
    refine ⟨fun r hr => h.visible r ?_, fun id hid => h.closed id ?_⟩
    · rw [SqlExpr.references, hleaf] at hr
      obtain ⟨y, hy, href⟩ := List.mem_filterMap.mp hr
      obtain rfl := List.mem_singleton.mp hy
      exact List.mem_filterMap.mpr ⟨y, hx, href⟩
    · rw [SqlExpr.subqueries, hleaf] at hid
      obtain ⟨y, hy, hstage⟩ := List.mem_filterMap.mp hid
      obtain rfl := List.mem_singleton.mp hy
      exact List.mem_filterMap.mpr ⟨y, hx, hstage⟩
  · intro h
    refine ⟨fun r hr => ?_, fun id hid => ?_⟩
    · obtain ⟨x, hx, hr⟩ := List.mem_filterMap.mp hr
      refine (h x hx).visible r ?_
      rw [SqlExpr.references, SqlExpr.leaves_of_mem hx]
      exact List.mem_filterMap.mpr ⟨x, .head _, hr⟩
    · obtain ⟨x, hx, hid⟩ := List.mem_filterMap.mp hid
      refine (h x hx).closed id ?_
      rw [SqlExpr.subqueries, SqlExpr.leaves_of_mem hx]
      exact List.mem_filterMap.mpr ⟨x, .head _, hid⟩

theorem Fine.of_leaves {stages : Stages} {env : Items} {as : List SqlExpr} {e : SqlExpr}
    (has : ∀ a ∈ as, Fine schema among stages env a) (h : e.leaves ⊆ SqlExpr.leavesOfAll as) :
    Fine schema among stages env e := by
  refine fine_iff_leaves.mpr fun x hx => ?_
  obtain ⟨a, ha, hx⟩ := SqlExpr.mem_leavesOfAll.mp (h hx)
  exact fine_iff_leaves.mp (has a ha) x hx

theorem fine_of_no_leaves {stages : Stages} {env : Items} {e : SqlExpr} (h : e.leaves = []) :
    Fine schema among stages env e :=
  fine_iff_leaves.mpr fun x hx => by rw [h] at hx; cases hx

/-- Expressions put together from fine ones are fine. -/
theorem congruence_fine (stages : Stages) (env : Items) :
    Compile.Congruence fun e _ => Fine schema among stages env e := by
  have hall {as bs : List SqlExpr} (h : List.Forall₂ (fun e _ => Fine schema among stages env e) as bs) :
      ∀ a ∈ as, Fine schema among stages env a := by
    induction h with
    | nil => simp
    | cons h _ ih => simpa using ⟨h, ih⟩
  have hone {a e : SqlExpr} (h : Fine schema among stages env a) (hleaves : e.leaves = a.leaves) :
      Fine schema among stages env e :=
    fine_iff_leaves.mpr (hleaves ▸ fine_iff_leaves.mp h)
  constructor
  case verbatim => exact fun _ => fine_of_no_leaves rfl
  case int => exact fun _ => fine_of_no_leaves rfl
  case seq => exact fun h => .of_leaves (hall h) (List.Subset.refl _)
  case list => exact fun h => .of_leaves (hall h) (List.Subset.refl _)
  case call => exact fun _ _ _ h => .of_leaves (hall h) (List.Subset.refl _)
  case binary =>
    intro op a b _ _ ha hb
    have hab : ∀ x ∈ [a, b], Fine schema among stages env x := by simpa using ⟨ha, hb⟩
    exact .of_leaves hab (by simp [SqlExpr.leaves, SqlExpr.leavesOfAll])
  case negate => exact fun h => hone h (SqlExpr.leaves_negate _)
  case followedBy => exact fun h _ _ => hone h (SqlExpr.leaves_followedBy _ _)
  case paren => exact fun h _ => hone h rfl
  case exists_ => exact fun h => hone h rfl
  case column => exact fun h _ _ => hone h rfl
  case cast => exact fun h _ => hone h rfl
  case leading | trailing => exact fun _ _ _ h => hone h rfl

theorem closed_iff {stages : Stages} {env : Items} {id : StageId} :
    Closed schema among stages env id ↔
      among id ∧ id < stages.length ∧ FineStage schema among stages env (stages.get id) := by
  constructor
  · rintro ⟨hamong, hid, hrefs, hinner⟩
    refine ⟨hamong, hid, fun p hp => ⟨hrefs p hp, fun id hid => ?_⟩, fun p hp => ?_⟩
    · exact hinner (p.1, id) (List.mem_append_right _ (List.mem_flatMap.mpr ⟨p, hp, List.mem_map_of_mem hid⟩))
    · exact hinner p (List.mem_append_left _ hp)
  · rintro ⟨hamong, hid, hstage⟩
    refine .intro hamong hid (fun p hp => (hstage.exprs p hp).visible) fun p hp => ?_
    rcases List.mem_append.mp hp with hp | hp
    · exact hstage.sources p hp
    · obtain ⟨q, hq, hp⟩ := List.mem_flatMap.mp hp
      obtain ⟨id, hid, rfl⟩ := List.mem_map.mp hp
      exact (hstage.exprs q hq).closed id hid

theorem Closed.within {stages : Stages} {root id : StageId} {env : Items}
    (h : Closed schema among stages [] root) (hid : Within stages root env id) :
    Closed schema among stages env id := by
  induction hid with
  | root => exact h
  | step _ hp ih =>
    obtain ⟨-, -, -, hinner⟩ := ih
    exact hinner _ hp

/-- The stages inside are stages that there are. -/
theorem Closed.bounded {stages : Stages} {env : Items} {id : StageId}
    (h : Closed schema among stages env id) :
    Closed schema (fun id => among id ∧ id < stages.length) stages env id := by
  induction h with
  | intro hamong hid hrefs _ ih => exact .intro ⟨hamong, hid⟩ hid hrefs ih

/-! ## Later arenas -/

open Compile

/-- No stage exposes less than before. -/
def Shown (A B : Stages) : Prop := ∀ id, (A.get id).outputNames ⊆ (B.get id).outputNames

/-- Some of the stages expose more columns, which they can see. -/
structure Grown (schema : Option Schema) (among : StageId → Prop) (A B : Stages) : Prop where
  length : A.length ≤ B.length
  shown : Shown A B
  wider : ∀ id, among id → id < A.length → Wider (A.get id) (B.get id)
  visible : ∀ id, among id → id < A.length → (B.get id).projection = none → ∀ p ∈ (B.get id).pulled,
    p ∈ (A.get id).pulled ∨ Found schema B (B.get id).items (p.source, p.column)

theorem get_of_length_le {stages : Stages} {id : Nat} (h : stages.length ≤ id) : stages.get id = {} := by
  rw [Stages.get, List.getElem?_eq_none_iff.mpr h]
  rfl

theorem wider_items {s t : Stage} (h : Wider s t) : t.items = s.items := by
  rw [Stage.items, h.from_eq]
  rfl

theorem wider_outputNames {s t : Stage} (h : Wider s t) : s.outputNames ⊆ t.outputNames := by
  unfold Stage.outputNames
  rw [h.projection]
  cases s.projection with
  | some columns => exact fun _ hname => hname
  | none => exact List.map_subset _ h.pulled

section Later

variable {A B C : Stages}

theorem Shown.exposes (h : Shown A B) {schema : Schema} {name : String} {source : Source}
    (hname : source.Exposes schema A name) : source.Exposes schema B name := by
  cases source with
  | table text => exact hname
  | stage id => exact h id hname
  | setOp kind operands =>
    obtain ⟨id, hid, hname⟩ := hname
    exact ⟨id, hid, h id hname⟩
  | function _ => trivial
  | rows _ => trivial

theorem Shown.found (h : Shown A B) {env : Items} {r : String × String} (hr : Found schema A env r) :
    Found schema B env r := by
  obtain ⟨i, hi, hname⟩ := hr
  exact ⟨i, hi, fun columns hcolumns => h.exposes (hname columns hcolumns)⟩

theorem shown_of_wider (h : ∀ id < A.length, Wider (A.get id) (B.get id)) : Shown A B := by
  intro id name hname
  by_cases hid : id < A.length
  · exact wider_outputNames (h id hid) hname
  · rw [get_of_length_le (Nat.le_of_not_lt hid)] at hname
    cases hname

theorem shown_append (s : Stage) : Shown A (A ++ [s]) := by
  refine shown_of_wider fun id hid => ?_
  rw [Stages.get_append, if_neg (Nat.ne_of_lt hid)]
  exact .refl _

/-- One stage is changed, which exposes no less than before. -/
theorem shown_modify {last : Nat} {f : Stage → Stage}
    (hf : (A.get last).outputNames ⊆ (f (A.get last)).outputNames) : Shown A (A.modify last f) := by
  intro id name hname
  rw [Stages.get_modify]
  split
  · rename_i hlast
    rw [hlast.1] at hname
    exact hf hname
  · exact hname

/-- The stages that are meant are the same. -/
theorem grown_of_same (hlength : A.length ≤ B.length) (hshown : Shown A B)
    (hsame : ∀ id, among id → id < A.length → B.get id = A.get id) : Grown schema among A B where
  length := hlength
  shown := hshown
  wider id hamong hid := by
    rw [hsame id hamong hid]
    exact .refl _
  visible id hamong hid _ p hp := by
    rw [hsame id hamong hid] at hp
    exact .inl hp

/-- A wider stage has no other expressions than the new columns. -/
theorem mem_exprs_of_wider {s t : Stage} (h : Wider s t) {env : Items} {p : Items × SqlExpr}
    (hp : p ∈ t.exprs env) : p ∈ s.exprs env ∨
      (t.projection = none ∧ ∃ q ∈ t.pulled, p = (s.items ++ env, .columnRef q.source q.column)) := by
  rw [h.rest] at hp
  rcases List.mem_append.mp hp with hp | hp
  · obtain ⟨e, he, rfl⟩ := List.mem_map.mp hp
    cases hprojection : s.projection with
    | some columns =>
      refine .inl (List.mem_append_left _ (List.mem_map_of_mem ?_))
      simpa [Stage.selected, hprojection] using he
    | none =>
      simp only [Stage.selected, hprojection, Option.getD_none, Stage.pulledColumns, List.map_map,
        List.mem_map, Function.comp_apply] at he
      obtain ⟨q, hq, rfl⟩ := he
      exact .inr ⟨h.projection.trans hprojection, q, hq, rfl⟩
  · exact .inl (List.mem_append_right _ hp)

theorem mem_exprs_pulled {s : Stage} (hp : s.projection = none) {p : Pulled} (h : p ∈ s.pulled)
    (env : Items) : (s.items ++ env, .columnRef p.source p.column) ∈ s.exprs env := by
  refine List.mem_append_left _ (List.mem_map_of_mem ?_)
  simp only [Stage.selected, hp, Option.getD_none, Stage.pulledColumns, List.map_map, List.mem_map]
  exact ⟨p, h, rfl⟩

theorem references_columnRef (qualifier name : String) :
    (SqlExpr.columnRef qualifier name).references = [(qualifier, name)] := rfl

theorem Found.append {stages : Stages} {own env : Items} {r : String × String}
    (h : Found schema stages own r) : Found schema stages (own ++ env) r := by
  obtain ⟨i, hi, hname⟩ := h
  refine ⟨i, ?_, hname⟩
  rw [Items.at_, List.find?_append]
  exact Option.mem_def.mpr (by rw [show own.find? (fun i => i.name == r.1) = some i from hi]; rfl)

/-- Stages stay closed when they expose more. -/
theorem Closed.later {env : Items} {id : StageId} (h : Closed schema among A env id)
    (hg : Grown schema among A B) : Closed schema among B env id := by
  induction h with
  | @intro env id hamong hid hrefs _ ih =>
    have hwider := hg.wider id hamong hid
    refine .intro hamong (Nat.lt_of_lt_of_le hid hg.length) (fun p hp r hr => ?_) fun p hp => ?_
    · rcases mem_exprs_of_wider hwider hp with hp | ⟨hnone, q, hq, rfl⟩
      · exact hg.shown.found (hrefs p hp r hr)
      · obtain rfl : r = (q.source, q.column) := by simpa [references_columnRef] using hr
        rcases hg.visible id hamong hid hnone q hq with hq | hq
        · have hmem := mem_exprs_pulled (hwider.projection ▸ hnone) hq env
          exact hg.shown.found (hrefs _ hmem _ (.head _))
        · rw [wider_items hwider] at hq
          exact hq.append
    · refine ih p ?_
      rw [Stage.inner, hwider.from_eq] at hp
      rcases List.mem_append.mp hp with hp | hp
      · exact List.mem_append_left _ hp
      · obtain ⟨q, hq, hp⟩ := List.mem_flatMap.mp hp
        rcases mem_exprs_of_wider hwider hq with hq | ⟨-, q, -, rfl⟩
        · exact List.mem_append_right _ (List.mem_flatMap.mpr ⟨q, hq, hp⟩)
        · cases hp

theorem Closed.mono {among' : StageId → Prop} {env : Items} {id : StageId}
    (h : Closed schema among A env id) (hsub : ∀ id, among id → among' id) :
    Closed schema among' A env id := by
  induction h with
  | intro hamong hid hrefs _ ih => exact .intro (hsub _ hamong) hid hrefs ih

theorem Fine.later {env : Items} {e : SqlExpr} (h : Fine schema among A env e)
    (hg : Grown schema among A B) : Fine schema among B env e :=
  ⟨fun r hr => hg.shown.found (h.visible r hr), fun id hid => (h.closed id hid).later hg⟩

/-- A stage stays fine if the columns that it exposes more can be seen. -/
theorem FineStage.later {env : Items} {s t : Stage} (h : FineStage schema among A env s)
    (hg : Grown schema among A B) (hwider : Wider s t)
    (hpulled : t.projection = none → ∀ p ∈ t.pulled,
      p ∈ s.pulled ∨ Found schema B s.items (p.source, p.column)) : FineStage schema among B env t where
  exprs p hp := by
    rcases mem_exprs_of_wider hwider hp with hp | ⟨hnone, q, hq, rfl⟩
    · exact (h.exprs p hp).later hg
    · rcases hpulled hnone q hq with hq | hq
      · exact (h.exprs _ (mem_exprs_pulled (hwider.projection ▸ hnone) hq env)).later hg
      · refine ⟨fun r hr => ?_, fun id hid => by cases hid⟩
        obtain rfl : r = (q.source, q.column) := by simpa [references_columnRef] using hr
        exact hq.append
  sources p hp := by
    rw [hwider.from_eq] at hp
    exact (h.sources p hp).later hg

theorem Fine.mono {among' : StageId → Prop} {env : Items} {e : SqlExpr}
    (h : Fine schema among A env e) (hsub : ∀ id, among id → among' id) : Fine schema among' A env e :=
  ⟨h.visible, fun id hid => (h.closed id hid).mono hsub⟩

theorem FineStage.mono {among' : StageId → Prop} {env : Items} {s : Stage}
    (h : FineStage schema among A env s) (hsub : ∀ id, among id → among' id) : FineStage schema among' A env s :=
  ⟨fun p hp => (h.exprs p hp).mono hsub, fun p hp => (h.sources p hp).mono hsub⟩

end Later

/-- The expressions of a stage, clause by clause. -/
structure FineParts (schema : Option Schema) (among : StageId → Prop) (stages : Stages) (env : Items) (s : Stage) :
    Prop where
  selected : ∀ e ∈ s.selected, Fine schema among stages (s.items ++ env) e
  where_ : ∀ e ∈ s.where_, Fine schema among stages (s.items ++ env) e
  groupBy : ∀ e ∈ s.groupBy.getD [], Fine schema among stages (s.items ++ env) e
  orderBy : ∀ i ∈ s.orderBy.getD [], Fine schema among stages (s.items ++ env) i.expr
  skip : ∀ e ∈ s.skip, Fine schema among stages env e
  limit : ∀ e ∈ s.limit, Fine schema among stages env e
  from_ : ∀ p ∈ s.from_.elim [] (FromTree.exprs env), Fine schema among stages p.1 p.2
  sources : ∀ p ∈ s.from_.elim [] (FromTree.inner env), Closed schema among stages p.1 p.2

theorem fineStage_iff {stages : Stages} {env : Items} {s : Stage} :
    FineStage schema among stages env s ↔ FineParts schema among stages env s := by
  constructor
  · rintro ⟨hexprs, hsources⟩
    have hinside {e : SqlExpr} (he : e ∈ s.selected ++ s.clauses) :
        Fine schema among stages (s.items ++ env) e := by
      refine hexprs (s.items ++ env, e) ?_
      rw [Stage.exprs, ← List.append_assoc, ← List.map_append]
      exact List.mem_append_left _ (List.mem_map_of_mem he)
    have houtside {p : Items × SqlExpr} (hp : p ∈ (s.skip.toList ++ s.limit.toList).map (env, ·) ++
        s.from_.elim [] (FromTree.exprs env)) : Fine schema among stages p.1 p.2 :=
      hexprs p (List.mem_append_right _ (List.mem_append_right _ hp))
    constructor
    case selected => exact fun e he => hinside (List.mem_append_left _ he)
    case where_ => exact fun e he => hinside (by simp [Stage.clauses, Option.mem_def.mp he])
    case groupBy => exact fun e he => hinside (by simp [Stage.clauses, he])
    case orderBy => exact fun i hi => hinside (by simp [Stage.clauses]; tauto)
    case skip => exact fun e he => houtside (p := (env, e)) (by simp [Option.mem_def.mp he])
    case limit => exact fun e he => houtside (p := (env, e)) (by simp [Option.mem_def.mp he])
    case from_ => exact fun p hp => houtside (List.mem_append_right _ hp)
    case sources => exact hsources
  · intro h
    refine ⟨fun p hp => ?_, h.sources⟩
    simp only [Stage.exprs, Stage.clauses, List.mem_append, List.mem_map, Option.mem_toList] at hp
    rcases hp with ⟨e, he, rfl⟩ | ⟨e, (he | he) | ⟨i, hi, rfl⟩, rfl⟩ | ⟨e, he | he, rfl⟩ | hp
    · exact h.selected e he
    · exact h.where_ e he
    · exact h.groupBy e he
    · exact h.orderBy i hi
    · exact h.skip e he
    · exact h.limit e he
    · exact h.from_ p hp

end TreeSql.Sql
