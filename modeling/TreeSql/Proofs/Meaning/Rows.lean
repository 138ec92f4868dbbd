import TreeSql.Proofs.Compile.Pulling
import TreeSql.Proofs.Meaning.Columns

/-
  TreeSql.Proofs.Meaning.Rows — the rows of a stage inside other stages.

  `Stages.rows` evaluates a stage and the stages below it over the rows of the one table. Read with
  `Stage.listed`, each stage selects what is written for it; read as a `whole`, stages without a select
  list pass on whole rows.

  Proved (`rows_listed`): the written stages give the same rows as the stages over whole rows, cut down
  to the exposed columns, if every DISTINCT without a select list of its own tells different rows
  apart by the columns that it exposes (`TellsApart`).
-/
namespace TreeSql.Sql

open Compile

section Rows

variable {ρ V : Type}

/-- The stage as it is. -/
abbrev whole (s : Stage) : Stage := s

/-- The rows of a FROM clause with one table or stage. -/
def sourceRows (table : List ρ) (rows : StageId → List ρ) : Option FromTree → List ρ
  | some (.item item) =>
    match item.source with
    | .table _ => table
    | .stage id => rows id
    | _ => []
  | _ => []

theorem sourceRows_table {table : List ρ} {s : Stage} (h : OverTable s) (rows : StageId → List ρ) :
    sourceRows table rows s.from_ = table := by
  obtain ⟨text, name, hfrom⟩ := h
  rw [hfrom]
  rfl

theorem sourceRows_over {table : List ρ} {s : Stage} {source : Nat} (h : Over source s) (rows : StageId → List ρ) :
    sourceRows table rows s.from_ = rows source := by
  obtain ⟨name, hfrom⟩ := h
  rw [hfrom]
  rfl

variable [DecidableEq ρ]

namespace Stages

variable (I : Meaning ρ V) (table : List ρ) (list : Stage → Stage) (stages : Stages)

/-- The rows of a stage, with stages inside it down to the given depth. -/
def rowsTo : (depth : Nat) → StageId → List ρ
  | 0, _ => []
  | depth + 1, id =>
    I.select (list (stages.get id)) (sourceRows table (rowsTo depth) (stages.get id).from_)

/-- The rows of a stage. -/
def rows (id : StageId) : List ρ := rowsTo I table list stages stages.length id

end Stages

/-- The stage selects from a table or from an earlier stage. -/
def Below (id : Nat) (s : Stage) : Prop := OverTable s ∨ ∃ source < id, Over source s

variable {I : Meaning ρ V} {table : List ρ}

/-- Only the stages below count, and any depth that is enough. -/
theorem rowsTo_congr {list list' : Stage → Stage} {A B : Stages} {d d' id : Nat} (hd : id < d)
    (hd' : id < d') (hbelow : ∀ j ≤ id, Below j (A.get j))
    (hfrom : ∀ j ≤ id, (B.get j).from_ = (A.get j).from_)
    (hselect : ∀ j ≤ id, ∀ rows, I.select (list' (B.get j)) rows = I.select (list (A.get j)) rows) :
    Stages.rowsTo I table list' B d' id = Stages.rowsTo I table list A d id := by
  induction d generalizing id d' with
  | zero => omega
  | succ d ih =>
    obtain ⟨d', rfl⟩ : ∃ k, d' = k + 1 := ⟨d' - 1, by omega⟩
    rw [Stages.rowsTo, Stages.rowsTo, hselect id (Nat.le_refl id), hfrom id (Nat.le_refl id)]
    congr 1
    rcases hbelow id (Nat.le_refl id) with htable | ⟨source, hlt, hover⟩
    · rw [sourceRows_table htable, sourceRows_table htable]
    · rw [sourceRows_over hover, sourceRows_over hover]
      exact ih (by omega) (by omega) (fun j hj => hbelow j (by omega)) (fun j hj => hfrom j (by omega))
        fun j hj => hselect j (by omega)

theorem below_of_layered {stages : Stages} (h : Layered stages) {id : Nat} (hid : id < stages.length) :
    Below id (stages.get id) := by
  obtain ⟨_, _, hsource⟩ := h id hid
  rcases hsource with htable | ⟨source, hlt, hover, _⟩
  · exact .inl htable
  · exact .inr ⟨source, hlt, hover⟩

/-- A stage selects from the rows of its source. -/
theorem rows_eq {list : Stage → Stage} {stages : Stages} (h : Layered stages) {id : Nat}
    (hid : id < stages.length) :
    stages.rows I table list id =
      I.select (list (stages.get id)) (sourceRows table (stages.rows I table list) (stages.get id).from_) := by
  obtain ⟨d, hd⟩ : ∃ d, stages.length = d + 1 := ⟨stages.length - 1, by omega⟩
  show Stages.rowsTo I table list stages stages.length id = _
  rw [hd, Stages.rowsTo]
  congr 1
  rcases below_of_layered h hid with htable | ⟨source, hlt, hover⟩
  · rw [sourceRows_table htable, sourceRows_table htable]
  · rw [sourceRows_over hover, sourceRows_over hover]
    refine rowsTo_congr (by omega) (by omega) (fun j hj => below_of_layered h (by omega)) (fun _ _ => rfl)
      fun _ _ _ => rfl

end Rows

/-! ## Written stages -/

namespace Functions

variable {V : Type} (F : Functions V) {lifted : List Value}

/-- The rows of a FROM clause for whole rows. -/
def below [DecidableEq V] (lifted : List Value) (table : List (Row V)) (stages : Stages) (s : Stage) :
    List (Row V) :=
  sourceRows table (stages.rows (F.meaning lifted) table whole) s.from_

/-- Every DISTINCT without a select list of its own tells the rows of its source apart. -/
def TellsApart [DecidableEq V] (lifted : List Value) (table : List (Row V)) (stages : Stages) : Prop :=
  ∀ id < stages.length, (stages.get id).distinct = true → (stages.get id).projection = none →
    F.Told lifted (stages.get id) (F.below lifted table stages (stages.get id))

theorem cell_exposed {s : Stage} {source name : String} (hplain : Plain source s)
    (hp : s.projection = none) (hname : name ∈ s.pulled.map (·.name)) (r : Row V) :
    F.cell (F.exposed lifted s r) name = F.cell r name := by
  have hrow : F.exposed lifted s r = s.pulled.map fun p => (p.name, F.cell r p.column) := by
    simp only [exposed, hp, Meaning.values, Stage.pulledColumns, List.map_map]
    rfl
  rw [hrow]
  have key : ∀ pulled : List Pulled, (∀ p ∈ pulled, p.name = p.column) → name ∈ pulled.map (·.name) →
      F.cell (pulled.map fun p => (p.name, F.cell r p.column)) name = F.cell r name := by
    intro pulled hcolumns hmem
    induction pulled with
    | nil => cases hmem
    | cons p pulled ih =>
      unfold cell
      rw [List.map_cons, List.lookup_cons]
      by_cases hpn : name = p.name
      · rw [← hcolumns p (.head _), ← hpn]
        simp
      · rw [beq_false_of_ne hpn]
        exact ih (fun q hq => hcolumns q (.tail _ hq)) ((List.mem_cons.mp hmem).resolve_left hpn)
  exact key s.pulled (fun p hp => (hplain p hp).2) hname

theorem reads_listed (s : Stage) : s.listed.reads = s.reads := rfl

/-- A stage does not see which columns its source leaves out. -/
theorem sameIn_exposed {stages : Stages} {source : Nat} {names : List String} (hlayered : Layered stages)
    (hbound : source < stages.length) (hshows : Shows stages source names) (r : Row V) :
    F.SameIn names (F.exposed lifted (stages.get source) r) r := by
  intro name hname
  cases hp : (stages.get source).projection with
  | some columns => simp [exposed, hp]
  | none =>
    obtain ⟨label, hplain⟩ := (hlayered source hbound).plain
    exact F.cell_exposed hplain hp (hshows hp name hname) r

variable [DecidableEq V]

/-- The written stages give the rows of the stages over whole rows, cut down to the exposed columns. -/
theorem rows_listed {table : List (Row V)} {stages : Stages} (hlayered : Layered stages)
    (htells : F.TellsApart lifted table stages) {id : Nat} (hid : id < stages.length) :
    stages.rows (F.meaning lifted) table Stage.listed id =
      (stages.rows (F.meaning lifted) table whole id).map (F.exposed lifted (stages.get id)) := by
  induction id using Nat.strong_induction_on with
  | _ id ih =>
    have hlayer := hlayered id hid
    rw [rows_eq hlayered hid, rows_eq hlayered hid]
    refine Eq.trans ?_ (F.select_listed hlayer.ungrouped (htells id hid))
    rcases hlayer.source with htable | ⟨source, hlt, hover, hshows⟩
    · rw [sourceRows_table htable, sourceRows_table htable]
    · have hbound : source < stages.length := by omega
      rw [sourceRows_over hover, sourceRows_over hover, ih source hlt hbound]
      refine F.select_map (s := (stages.get id).listed) rfl hlayer.ungrouped fun r _ => ?_
      rw [reads_listed]
      exact F.sameIn_exposed hlayered hbound hshows r

end Functions

end TreeSql.Sql
