import Mathlib.Data.Finset.Card
import TreeSql.Proofs.Meaning.Pipeline

/-
  TreeSql.Proofs.Meaning.Narrowing — select lists that are cut down to the columns that are asked for.

  A stage without a select list of its own is written with the columns that stages around it pulled.
  This is harmless but for DISTINCT, which then compares only these columns.

  Proved (`written_rows`): a chain over one table keeps its meaning if each such DISTINCT tells its rows
  apart. Where one does not, it loses rows (`length_listed_lt`, `distinct_by_name`).
-/
namespace TreeSql.Sql

open Compile

/-! ## Distinct elements, counted -/

section Distinct

variable {α β : Type} [DecidableEq β] {f : α → β} {l : List α}

theorem mem_map_distinctBy {b : β} : b ∈ (distinctBy f l).map f ↔ b ∈ l.map f := by
  induction l with
  | nil => rfl
  | cons a l ih =>
    rw [distinctBy, List.map_cons, List.map_cons, List.mem_cons, List.mem_cons]
    by_cases hb : b = f a
    · exact ⟨fun _ => .inl hb, fun _ => .inl hb⟩
    · refine or_congr Iff.rfl (Iff.trans ?_ ih)
      simp only [List.mem_map, List.mem_filter, decide_eq_true_eq]
      constructor
      · rintro ⟨c, ⟨hc, -⟩, rfl⟩
        exact ⟨c, hc, rfl⟩
      · rintro ⟨c, hc, rfl⟩
        exact ⟨c, ⟨hc, hb⟩, rfl⟩

theorem nodup_map_distinctBy : ((distinctBy f l).map f).Nodup := by
  induction l with
  | nil => exact List.nodup_nil
  | cons a l ih =>
    rw [distinctBy, List.map_cons, List.nodup_cons]
    constructor
    · intro hmem
      obtain ⟨b, hb, hba⟩ := List.mem_map.mp hmem
      have := (List.mem_filter.mp hb).2
      simp [hba] at this
    · exact ih.sublist (List.filter_sublist.map f)

theorem length_distinctBy : (distinctBy f l).length = (l.map f).toFinset.card := by
  have hset : ((distinctBy f l).map f).toFinset = (l.map f).toFinset := by
    ext b
    rw [List.mem_toFinset, List.mem_toFinset, mem_map_distinctBy]
  rw [← hset, List.toFinset_card_of_nodup nodup_map_distinctBy, List.length_map]

/-- Elements are lost if the image does not tell them apart. -/
theorem length_distinctBy_lt [DecidableEq α] (h : ¬∀ a ∈ l, ∀ b ∈ l, f a = f b → a = b) :
    (distinctBy f l).length < (distinctBy id l).length := by
  have himage : (l.map f).toFinset = l.toFinset.image f := by
    ext b
    simp
  rw [length_distinctBy, length_distinctBy, List.map_id, himage]
  refine Finset.card_image_le.lt_of_ne fun heq => h fun a ha b hb hab => ?_
  exact Finset.card_image_iff.mp heq (by simpa using ha) (by simpa using hb) hab

end Distinct

namespace Functions

variable {V : Type} [DecidableEq V] (F : Functions V) {lifted : List Value} {table : List (Row V)}

/-! ## DISTINCT over fewer columns -/

omit [DecidableEq V] in
theorem values_pulled {s : Stage} {a b : Row V} (h : F.SameIn (s.pulled.map (·.column)) a b) :
    (F.meaning lifted).values s.pulledColumns [a] = (F.meaning lifted).values s.pulledColumns [b] := by
  refine F.values_sameIn fun name hname => h name ?_
  obtain ⟨column, hcolumn, hname⟩ := List.mem_flatMap.mp hname
  obtain ⟨p, hp, rfl⟩ := List.mem_map.mp hcolumn
  obtain rfl : name = p.column := by simpa [SqlExpr.columns] using hname
  exact List.mem_map.mpr ⟨p, hp, rfl⟩

/-- A DISTINCT whose written select list does not tell the rows apart loses rows. -/
theorem length_listed_lt {s : Stage} (hp : s.projection = none) (hg : s.groupBy = none)
    (hd : s.distinct = true) (hskip : s.skip = none) (hlimit : s.limit = none) {rows : List (Row V)}
    (h : ¬F.Told lifted s rows) :
    ((F.meaning lifted).select s.listed rows).length < ((F.meaning lifted).select s rows).length := by
  let I := F.meaning lifted
  let out (r : Row V) : Row V := I.values s.pulledColumns [r]
  have hlisted : s.listed.projection = some s.pulledColumns := by
    rw [Stage.listed, hp]
    rfl
  have hwritten : I.select s.listed rows =
      (I.ordered Meaning.alone s.orderBy (distinctBy out (I.kept s rows))).map out := by
    rw [I.select_values hlisted hg, I.window_none (s := s.listed) hskip hlimit]
    unfold Meaning.deduped
    rw [if_pos (show s.listed.distinct = true from hd)]
    rfl
  have hwhole : I.select s rows = I.ordered Meaning.alone s.orderBy (distinctBy id (I.kept s rows)) := by
    rw [I.select_whole hp, I.window_none hskip hlimit]
    unfold Meaning.deduped
    rw [if_pos hd]
  show (I.select s.listed rows).length < (I.select s rows).length
  rw [hwritten, hwhole, List.length_map, (I.perm_ordered _ _ _).length_eq, (I.perm_ordered _ _ _).length_eq]
  refine length_distinctBy_lt fun htold => h fun a ha b hb hab => ?_
  exact htold a ha b hb (F.values_pulled hab)

/-! ## Chains over one table -/

instance (names : List String) (a b : Row V) : Decidable (F.SameIn names a b) :=
  inferInstanceAs (Decidable (∀ name ∈ names, F.cell a name = F.cell b name))

instance (s : Stage) (rows : List (Row V)) : Decidable (F.Told lifted s rows) :=
  inferInstanceAs (Decidable (∀ a ∈ _, ∀ b ∈ _, F.SameIn _ a b → a = b))

instance (stages : Stages) : Decidable (F.TellsApart lifted table stages) :=
  inferInstanceAs (Decidable (∀ id < stages.length, _ → _ → F.Told lifted _ _))

/-- The condition under which chains keep their meaning cannot be weakened: where the rows of all stages
    are only cut down, each DISTINCT tells its rows apart. -/
theorem tellsApart_of_rows {stages : Stages} (hlayered : Layered stages)
    (hwindow : ∀ id < stages.length, (stages.get id).distinct = true →
      (stages.get id).skip = none ∧ (stages.get id).limit = none)
    (hrows : ∀ id < stages.length, stages.rows (F.meaning lifted) table Stage.listed id =
      (stages.rows (F.meaning lifted) table whole id).map (F.exposed lifted (stages.get id))) :
    F.TellsApart lifted table stages := by
  intro id hid hdistinct hnone
  by_contra htold
  obtain ⟨hgroup, -, hsource⟩ := hlayered id hid
  obtain ⟨hskip, hlimit⟩ := hwindow id hid hdistinct
  have hlt := F.length_listed_lt hnone hgroup hdistinct hskip hlimit htold
  have heq := congrArg List.length (hrows id hid)
  rw [List.length_map, rows_eq hlayered hid, rows_eq hlayered hid] at heq
  refine Nat.ne_of_lt hlt (Eq.trans (congrArg List.length ?_) heq)
  unfold below
  rcases hsource with htable | ⟨source, hsource, hover, hshows⟩
  · rw [sourceRows_table htable, sourceRows_table htable]
  · have hbound : source < stages.length := by omega
    rw [sourceRows_over hover, sourceRows_over hover, hrows source hbound]
    refine (F.select_map (s := (stages.get id).listed) rfl hgroup fun r _ => ?_).symm
    exact F.sameIn_exposed hlayered hbound hshows r

/-- The rows of the written stages are those of the operators applied to whole rows. Where the last stage
    has no select list of its own, they are cut down to the columns that it exposes. -/
theorem written_rows {e : Expr} {lift : Bool} {var : String} {root : AliasedStage} {t : State}
    (he : e.isPipeline = true)
    (hrun : Gives (rows e var >>= openStage) { mode := .query, liftConstants := lift } {} root t)
    (hstrict : F.StrictOrders t.lifted table e) (htells : F.TellsApart t.lifted table t.stages) :
    ∃ rows, F.applied t.lifted table e = .ok rows ∧
      t.stages.rows (F.meaning t.lifted) table Stage.listed root.stage =
        rows.map (F.exposed t.lifted (t.stages.get root.stage)) := by
  obtain ⟨node, s, hrows, hopen⟩ := gives_bind.mp hrun
  have hempty : Layered ({} : State).stages := fun id hid => (Nat.not_lt_zero id hid).elim
  obtain ⟨⟨n, hn, -⟩, -⟩ : Builds F table {} e node s ∧ _ := gives_pipeline rfl rfl he hempty hrows
  obtain ⟨rfl, rfl⟩ := gives_openStage.mp hopen
  rw [hn.held.node, Option.getD_some]
  refine ⟨_, hn.rows t.lifted (List.prefix_refl _) hstrict, ?_⟩
  exact F.rows_listed hn.held.layered htells hn.held.stacked.bound_last

/-! ## Films -/

theorem decide_le_total (x y : Int) : decide (x ≤ y) = true ∨ decide (y ≤ x) = true := by
  simpa using Int.le_total x y

theorem decide_le_trans (x y z : Int) :
    decide (x ≤ y) = true → decide (y ≤ z) = true → decide (x ≤ z) = true := by
  simpa using Int.le_trans

/-- Columns and `>` over rows of named integers. -/
def integers : Functions Int where
  apply _ _ := 0
  test e values :=
    match e, values with
    | .binary .greaterThan _ (.constant v), [x] => decide (v.int?.getD 0 < x)
    | _, _ => false
  number _ := none
  groups _ _ _ := []
  null := 0
  le x y := decide (x ≤ y)
  le_total := decide_le_total
  le_trans := decide_le_trans

def integerType : DataType := .ofKind .int32

def filmScan : Expr :=
  .scan { name := "Film", container := "dbo", columns := [⟨"Id", integerType⟩, ⟨"Title", integerType⟩] }

/-- Rows of some columns of the variable `d`. -/
def columnsOfRow (names : List String) : Expr :=
  let type := DataType.ofMembers (names.map fun name => ⟨name, integerType⟩)
  .newInstance type (names.map fun name => .property (.varRef "d" type) name integerType)

/-- Two films have the same title. -/
def films : List (Row Int) := [[("Id", 1), ("Title", 7)], [("Id", 2), ("Title", 7)], [("Id", 3), ("Title", 8)]]

/-- The first two of the different films, the last one first. -/
theorem written_rows_both_columns :
    let id := Expr.property (.varRef "d" integerType) "Id" integerType
    let sorted := Expr.sort ⟨filmScan, "d"⟩ [⟨id, false⟩]
    let e := Expr.limit (.project ⟨.distinct sorted, "d"⟩ (columnsOfRow ["Title", "Id"])) (.constant (.int32 2))
    ∃ root t, Gives (rows e "q" >>= openStage) { mode := .query, liftConstants := true } {} root t ∧
      integers.StrictOrders t.lifted films e ∧ integers.TellsApart t.lifted films t.stages ∧
      ∃ rows, integers.applied t.lifted films e = .ok rows ∧
        t.stages.rows (integers.meaning t.lifted) films Stage.listed root.stage =
          rows.map (integers.exposed t.lifted (t.stages.get root.stage)) := by
  intro id sorted e
  obtain ⟨⟨root, t⟩, hrun, hlifted, htells⟩ : ∃ r : AliasedStage × State,
      (rows e "q" >>= openStage).run { mode := .query, liftConstants := true } {} = .ok r ∧
        r.2.lifted = [.int32 2] ∧ integers.TellsApart r.2.lifted films r.2.stages :=
    exists_ok (by decide +kernel)
  have hstrict : integers.StrictOrders t.lifted films e := by
    rw [hlifted]
    exact ⟨trivial, by decide +kernel⟩
  exact ⟨root, t, hrun, hstrict, htells, integers.written_rows (by decide) hrun hstrict htells⟩

/-- The titles of different films: the stage inside compares nothing but titles. -/
theorem distinct_by_title :
    let e := Expr.project ⟨.distinct filmScan, "d"⟩ (columnsOfRow ["Title"])
    integers.applied [] films e = .ok [[("Title", 7)], [("Title", 7)], [("Title", 8)]] ∧
      ∃ root t, Gives (rows e "q" >>= openStage) { mode := .query, liftConstants := true } {} root t ∧
        t.stages.rows (integers.meaning t.lifted) films Stage.listed root.stage =
          [[("Title", 7)], [("Title", 8)]] := by
  intro e
  obtain ⟨⟨root, t⟩, hrun, hrows⟩ : ∃ r : AliasedStage × State,
      (rows e "q" >>= openStage).run { mode := .query, liftConstants := true } {} = .ok r ∧
        r.2.stages.rows (integers.meaning r.2.lifted) films Stage.listed r.1.stage =
          [[("Title", 7)], [("Title", 8)]] :=
    exists_ok (by decide +kernel)
  exact ⟨by decide +kernel, root, t, hrun, hrows⟩

end Functions

end TreeSql.Sql
