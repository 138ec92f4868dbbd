import TreeSql.Proofs.Meaning.Select
import TreeSql.Compile.Relation

/-
  TreeSql.Proofs.Meaning.Attach — a clause attached to a stage that is compatible with it.

  One law for each clause: what the stage with the clause selects, in terms of what the stage selects
  without it (`select_addCondition`, `select_orderBy`, `select_skip`, `select_distinct`,
  `select_projection`, `select_groupBy`, `select_addLimit`). The laws of the row-wise clauses rest on
  `select_whole`: a stage without a select list works on whole rows.

  Proved (`select_attach`): a clause that the compatibility table allows can be attached, which selects
  the same rows in the same order as the clause applied to the rows of the stage.
-/
namespace TreeSql.Sql

open Compile

namespace Meaning

variable {ρ V α β : Type} (I : Meaning ρ V)

/-! ## Parts of a stage, one by one -/

theorem map_window (s : Stage) (f : α → β) (l : List α) :
    (I.window s l).map f = I.window s (l.map f) := by
  unfold window
  rw [map_takeTo, List.map_drop]

theorem window_none {s : Stage} (hs : s.skip = none) (hl : s.limit = none) (l : List α) :
    I.window s l = l := by
  unfold window
  rw [hs, hl]
  rfl

theorem map_ordered (items : Option (List OrderItem)) (key : β → List ρ) (f : α → β) (l : List α) :
    (I.ordered (key ∘ f) items l).map f = I.ordered key items (l.map f) := by
  cases items with
  | none => rfl
  | some items =>
    show (l.insertionSort _).map f = (l.map f).insertionSort _
    exact List.map_insertionSort _ _ f l fun _ _ _ _ => Iff.rfl

theorem filter_ordered (items : Option (List OrderItem)) (key : α → List ρ) (p : α → Bool)
    (l : List α) : (I.ordered key items l).filter p = I.ordered key items (l.filter p) := by
  cases items with
  | none => rfl
  | some items => exact filter_insertionSort _ p l

theorem perm_ordered (items : Option (List OrderItem)) (key : α → List ρ) (l : List α) :
    (I.ordered key items l).Perm l := by
  cases items with
  | none => exact .refl l
  | some items => exact List.perm_insertionSort _ l

/-- The group of a single row. -/
abbrev alone (r : ρ) : List ρ := [r]

/-- Under a strict order only the order that is put last counts. -/
theorem ordered_ordered {items : List OrderItem} (old : Option (List OrderItem)) {rows : List ρ}
    (h : I.Strict items rows) :
    I.ordered alone (some items) (I.ordered alone old rows) = I.ordered alone (some items) rows := by
  have hold : (I.ordered alone (some items) (I.ordered alone old rows)).Perm rows :=
    (I.perm_ordered _ _ _).trans (I.perm_ordered _ _ _)
  have hnew : (I.ordered alone (some items) rows).Perm rows := I.perm_ordered _ _ _
  have sorted (l : List ρ) : (I.ordered alone (some items) l).Pairwise (I.Before items alone) :=
    List.pairwise_insertionSort _ l
  refine List.Perm.eq_of_pairwise ?_ (sorted _) (sorted _) (hold.trans hnew.symm)
  intro a b ha hb hab hba
  exact h a (hold.mem_iff.mp ha) b (hnew.mem_iff.mp hb) hab hba

/-- Elements are in the same order by keys that compare alike. -/
theorem ordered_eq_of_before {items : Option (List OrderItem)} {key key' : α → List ρ} {l : List α}
    (h : ∀ is ∈ items, ∀ a ∈ l, ∀ b ∈ l,
      I.before is (key a) (key b) = I.before is (key' a) (key' b)) :
    I.ordered key items l = I.ordered key' items l := by
  cases items with
  | none => rfl
  | some is =>
    show l.insertionSort _ = l.insertionSort _
    have hsort := List.map_insertionSort (I.Before is key) (I.Before is key') id l
      fun a ha b hb => by
        unfold Before
        rw [h is rfl a ha b hb]
        rfl
    rwa [List.map_id, List.map_id] at hsort

theorem mem_of_mem_kept {s : Stage} {rows : List ρ} {r : ρ} (h : r ∈ I.kept s rows) : r ∈ rows := by
  unfold kept at h
  split at h
  · exact h
  · exact (List.mem_filter.mp h).1

theorem mem_of_mem_window {s : Stage} {l : List α} {a : α} (h : a ∈ I.window s l) : a ∈ l := by
  unfold window at h
  cases hn : s.limit.bind I.count with
  | none =>
    rw [hn] at h
    exact List.mem_of_mem_drop h
  | some n =>
    rw [hn] at h
    exact List.mem_of_mem_drop (List.mem_of_mem_take h)

theorem kept_addCondition (p : SqlExpr) (s : Stage) (rows : List ρ) :
    I.kept (addCondition p s) rows = (I.kept s rows).filter (I.holds p) := by
  unfold kept addCondition
  cases hw : s.where_ with
  | none => rfl
  | some q =>
    show rows.filter (I.holds (.binary .and q p)) = (rows.filter (I.holds q)).filter (I.holds p)
    rw [List.filter_filter]
    refine List.filter_congr fun r _ => ?_
    rw [holds_and, Bool.and_comm]

theorem window_addLimit (n : SqlExpr) (s : Stage) (l : List α) :
    I.window (addLimit n s) l = takeTo (I.count n) (I.window s l) := by
  unfold window addLimit
  cases hl : s.limit with
  | none => rfl
  | some m =>
    show takeTo (I.count (.call "LEAST" [m, n])) _ = takeTo (I.count n) (takeTo (I.count m) _)
    rw [count_least, takeTo_least]

variable [DecidableEq ρ]

theorem deduped_none {s : Stage} (hd : s.distinct = false) (out : α → ρ) (l : List α) :
    deduped s out l = l := by
  unfold deduped
  rw [hd]
  rfl

theorem mem_of_mem_deduped {s : Stage} {out : α → ρ} {l : List α} {a : α}
    (h : a ∈ deduped s out l) : a ∈ l := by
  unfold deduped at h
  split at h
  · exact mem_of_mem_distinctBy h
  · exact h

theorem map_deduped (s : Stage) (out : β → ρ) (f : α → β) (l : List α) :
    (deduped s (out ∘ f) l).map f = deduped s out (l.map f) := by
  unfold deduped
  by_cases hd : s.distinct = true
  · rw [if_pos hd, if_pos hd, distinctBy_map]
  · rw [if_neg hd, if_neg hd]

theorem filter_deduped (s : Stage) (p : ρ → Bool) (l : List ρ) :
    (deduped s id l).filter p = deduped s id (l.filter p) := by
  unfold deduped
  by_cases hd : s.distinct = true
  · rw [if_pos hd, if_pos hd]
    exact filter_distinctBy id p l
  · rw [if_neg hd, if_neg hd]

/-! ## One law for each clause -/

/-- A stage without a select list works on whole rows. -/
theorem select_whole {s : Stage} (hp : s.projection = none) (rows : List ρ) :
    I.select s rows = I.window s (I.ordered alone s.orderBy (deduped s id (I.kept s rows))) := by
  have hout : I.outputs s (I.kept s rows) = (I.kept s rows).map fun r => (alone r, r) := by
    unfold outputs
    rw [hp]
  unfold select
  rw [hout, ← map_deduped, ← map_ordered, map_window, List.map_map]
  exact congrArg (I.window s) (List.map_id _)

/-- A stage with a select list and no grouping sorts its rows and then takes the values of each. -/
theorem select_values {s : Stage} {columns : List Column} (hp : s.projection = some columns)
    (hg : s.groupBy = none) (rows : List ρ) :
    I.select s rows =
      (I.window s (I.ordered alone s.orderBy
        (deduped s (fun r => I.values columns [r]) (I.kept s rows)))).map
          fun r => I.values columns [r] := by
  let out (r : ρ) : List ρ × ρ := (alone r, I.values columns [r])
  have hout : I.outputs s (I.kept s rows) = (I.kept s rows).map out := by
    unfold outputs
    rw [hp, hg]
  unfold select
  rw [hout, ← map_deduped, ← map_ordered, ← map_window, List.map_map]
  rfl

theorem select_addCondition {s : Stage} (p : SqlExpr) (hp : s.projection = none)
    (hs : s.skip = none) (hl : s.limit = none) (rows : List ρ) :
    I.select (addCondition p s) rows = (I.select s rows).filter (I.holds p) := by
  rw [I.select_whole (s := addCondition p s) hp, I.select_whole hp, I.window_none hs hl,
    I.window_none (s := addCondition p s) hs hl, filter_ordered, filter_deduped,
    kept_addCondition]
  rfl

theorem select_orderBy {s : Stage} {items : List OrderItem} (hp : s.projection = none)
    (hs : s.skip = none) (hl : s.limit = none) {rows : List ρ}
    (hstrict : I.Strict items (I.select s rows)) :
    I.select { s with orderBy := some items } rows =
      I.ordered alone (some items) (I.select s rows) := by
  rw [I.select_whole hp, I.window_none hs hl] at hstrict ⊢
  rw [I.select_whole (s := { s with orderBy := some items }) hp,
    I.window_none (s := { s with orderBy := some items }) hs hl, ordered_ordered]
  · rfl
  · intro a ha b hb
    exact hstrict a ((I.perm_ordered _ _ _).mem_iff.mpr ha) b ((I.perm_ordered _ _ _).mem_iff.mpr hb)

theorem select_skip {s : Stage} {items : List OrderItem} (n : SqlExpr) (hp : s.projection = none)
    (hs : s.skip = none) (hl : s.limit = none) {rows : List ρ}
    (hstrict : I.Strict items (I.select s rows)) :
    I.select { s with orderBy := some items, skip := some n } rows =
      (I.ordered alone (some items) (I.select s rows)).drop ((I.count n).getD 0) := by
  rw [← I.select_orderBy hp hs hl hstrict,
    I.select_whole (s := { s with orderBy := some items, skip := some n }) hp,
    I.select_whole (s := { s with orderBy := some items }) hp,
    I.window_none (s := { s with orderBy := some items }) hs hl]
  unfold window
  show takeTo (s.limit.bind I.count) _ = _
  rw [hl]
  rfl

theorem select_distinct {s : Stage} (ho : s.orderBy = none) (hs : s.skip = none)
    (hl : s.limit = none) (rows : List ρ) :
    I.select { s with distinct := true } rows = distinctBy id (I.select s rows) := by
  unfold select
  rw [I.window_none (s := { s with distinct := true }) hs hl, I.window_none hs hl]
  show (I.ordered Prod.fst s.orderBy (distinctBy Prod.snd (I.outputs s (I.kept s rows)))).map Prod.snd =
    distinctBy id ((I.ordered Prod.fst s.orderBy (deduped s Prod.snd (I.outputs s (I.kept s rows)))).map Prod.snd)
  rw [ho]
  show (distinctBy Prod.snd _).map Prod.snd = distinctBy id ((deduped s Prod.snd _).map Prod.snd)
  rw [← map_distinctBy]
  unfold deduped
  by_cases hd : s.distinct = true
  · rw [if_pos hd, distinctBy_distinctBy]
  · rw [if_neg hd]

/-- DISTINCT counts equal rows of the select list, so that the list has to tell different rows apart. -/
theorem select_projection {s : Stage} (columns : List Column) (hp : s.projection = none)
    (hg : s.groupBy = none) {rows : List ρ}
    (htell : s.distinct = true → ∀ a ∈ I.kept s rows, ∀ b ∈ I.kept s rows,
      I.values columns [a] = I.values columns [b] → a = b) :
    I.select { s with projection := some columns } rows =
      (I.select s rows).map fun r => I.values columns [r] := by
  have hded : deduped s (fun r => I.values columns [r]) (I.kept s rows) =
      deduped s id (I.kept s rows) := by
    unfold deduped
    by_cases hd : s.distinct = true
    · rw [if_pos hd, if_pos hd]
      refine distinctBy_congr fun a ha b hb => ⟨htell hd a ha b hb, ?_⟩
      rintro rfl
      rfl
    · rw [if_neg hd, if_neg hd]
  rw [I.select_whole hp, ← hded, I.select_values (s := { s with projection := some columns }) rfl hg]
  rfl

theorem select_groupBy {s : Stage} (keys : List SqlExpr) (columns : List Column)
    (hp : s.projection = none) (hd : s.distinct = false) (ho : s.orderBy = none)
    (hs : s.skip = none) (hl : s.limit = none) (rows : List ρ) :
    I.select { s with projection := some columns, groupBy := some keys } rows =
      (I.groups keys columns (I.select s rows)).map (I.values columns) := by
  have hwhole : I.select s rows = I.kept s rows := by
    rw [I.select_whole hp, I.window_none hs hl, deduped_none hd, ho]
    rfl
  unfold select at hwhole ⊢
  rw [hwhole, deduped_none (s := { s with projection := some columns, groupBy := some keys }) hd,
    I.window_none (s := { s with projection := some columns, groupBy := some keys }) hs hl]
  show (I.ordered Prod.fst s.orderBy _).map Prod.snd = _
  rw [ho]
  exact List.map_map

theorem select_addLimit (n : SqlExpr) (s : Stage) (rows : List ρ) :
    I.select (addLimit n s) rows = takeTo (I.count n) (I.select s rows) := by
  unfold select
  rw [window_addLimit, map_takeTo]
  rfl

end Meaning

/-! ## Clauses with what they bring -/

/-- A clause together with what it brings. -/
inductive Attachment where
  | filter (condition : SqlExpr)
  | groupBy (keys : List SqlExpr) (columns : List Column)
  | distinct
  | sort (items : List OrderItem)
  | skip (items : List OrderItem) (n : SqlExpr)
  | project (columns : List Column)
  | limit (n : SqlExpr)
  | newInstance

namespace Attachment

def clause : Attachment → Clause
  | filter _ => .filter
  | groupBy .. => .groupBy
  | distinct => .distinct
  | sort _ => .sort
  | skip .. => .skip
  | project _ => .project
  | limit _ => .limit
  | newInstance => .newInstance

/-- The stage with the clause, as the operators on rows put it there. -/
def attach (s : Stage) : Attachment → Stage
  | filter p => addCondition p s
  | groupBy keys columns => { s with projection := some columns, groupBy := some keys }
  | distinct => { s with distinct := true }
  | sort items => { s with orderBy := some items }
  | skip items n => { s with orderBy := some items, skip := some n }
  | project columns => { s with projection := some columns }
  | limit n => addLimit n s
  | newInstance => addLimit (.constant (.int32 1)) s

/-- The keys that a clause sorts by. -/
def keys? : Attachment → Option (List OrderItem)
  | sort items => some items
  | skip items _ => some items
  | _ => none

end Attachment

namespace Meaning

variable {ρ V : Type} [DecidableEq ρ] (I : Meaning ρ V)

/-- The clause by itself, on whole rows. -/
def apply (a : Attachment) (rows : List ρ) : List ρ :=
  match a with
  | .filter p => rows.filter (I.holds p)
  | .groupBy keys columns => (I.groups keys columns rows).map (I.values columns)
  | .distinct => distinctBy id rows
  | .sort items => I.ordered alone (some items) rows
  | .skip items n => (I.ordered alone (some items) rows).drop ((I.count n).getD 0)
  | .project columns => rows.map fun r => I.values columns [r]
  | .limit n => takeTo (I.count n) rows
  | .newInstance => rows.take 1

/-- What the compatibility table allows can be attached. -/
theorem select_attach {s : Stage} (hgroup : s.groupBy.isSome → s.projection.isSome)
    (a : Attachment) (hc : a.clause.compatible s = true) {rows : List ρ}
    (hstrict : ∀ items ∈ a.keys?, I.Strict items (I.select s rows)) :
    I.select (a.attach s) rows = I.apply a (I.select s rows) := by
  cases a with
  | filter p =>
    obtain ⟨⟨⟨hp, hg⟩, hs⟩, hl⟩ : ((_ ∧ _) ∧ _) ∧ _ := by
      simpa [Attachment.clause, Clause.compatible] using hc
    exact I.select_addCondition p hp hs hl rows
  | groupBy keys columns =>
    obtain ⟨⟨⟨⟨⟨hp, hg⟩, hd⟩, ho⟩, hs⟩, hl⟩ : ((((_ ∧ _) ∧ _) ∧ _) ∧ _) ∧ _ := by
      simpa [Attachment.clause, Clause.compatible] using hc
    exact I.select_groupBy keys columns hp hd ho hs hl rows
  | distinct =>
    obtain ⟨⟨ho, hs⟩, hl⟩ : (_ ∧ _) ∧ _ := by
      simpa [Attachment.clause, Clause.compatible] using hc
    exact I.select_distinct ho hs hl rows
  | sort items =>
    obtain ⟨⟨⟨hp, hg⟩, hs⟩, hl⟩ : ((_ ∧ _) ∧ _) ∧ _ := by
      simpa [Attachment.clause, Clause.compatible] using hc
    exact I.select_orderBy hp hs hl (hstrict items rfl)
  | skip items n =>
    obtain ⟨⟨hp, hs⟩, hl⟩ : (_ ∧ _) ∧ _ := by
      simpa [Attachment.clause, Clause.compatible] using hc
    exact I.select_skip n hp hs hl (hstrict items rfl)
  | project columns =>
    obtain ⟨hp, hd⟩ : _ ∧ _ := by
      simpa [Attachment.clause, Clause.compatible] using hc
    have hg : s.groupBy = none := by
      cases hs : s.groupBy with
      | none => rfl
      | some keys => simp [hs, hp] at hgroup
    exact I.select_projection columns hp hg (by simp [hd])
  | limit n => exact I.select_addLimit n s rows
  | newInstance => exact I.select_addLimit (.constant (.int32 1)) s rows

/-- Three ratings above 1, the largest first; skipping one by the smallest first changes the order. -/
theorem select_attach_skip :
    let rating := SqlExpr.columnRef "f" "Rating"
    let s : Stage :=
      { where_ := some (.binary .greaterThan rating (.constant (.int32 1)))
        orderBy := some [⟨rating, false⟩] }
    let rows := [[("Rating", 3)], [("Rating", 1)], [("Rating", 5)], [("Rating", 4)]]
    let a := Attachment.skip [⟨rating, true⟩] (.constant (.int32 1))
    integers.select s rows = [[("Rating", 5)], [("Rating", 4)], [("Rating", 3)]] ∧
      integers.select (a.attach s) rows = [[("Rating", 4)], [("Rating", 5)]] ∧
      integers.select (a.attach s) rows = integers.apply a (integers.select s rows) := by
  intro rating s rows a
  have hstrict : ∀ items ∈ a.keys?, integers.Strict items (integers.select s rows) := by
    intro items hitems
    obtain rfl : [⟨rating, true⟩] = items := by simpa [a, Attachment.keys?] using hitems
    decide
  exact ⟨by decide, by decide,
    integers.select_attach (s := s) (by decide) a (by decide) hstrict⟩

end Meaning

end TreeSql.Sql
