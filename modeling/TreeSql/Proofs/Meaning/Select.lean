import Mathlib.Data.List.Sort
import TreeSql.Compile.Clause

/-
  TreeSql.Proofs.Meaning.Select — what a `SELECT` makes of the rows of its source.

  `Meaning.select` evaluates a stage over a list of rows: WHERE, GROUP BY, the select list, DISTINCT,
  ORDER BY, OFFSET, LIMIT. Keys of the order are evaluated on the source rows. A stage without a
  select list gives whole rows. What expressions mean is a parameter (`Meaning`), apart from AND, LEAST
  and integers as row counts, which the compilation puts together itself.

  Rows are sorted stably, and of equal rows DISTINCT keeps the first. The laws of the two list
  functions come first.
-/
namespace TreeSql.Sql

/-! ## Rows without repetition -/

section Distinct

variable {α β γ : Type} [DecidableEq β] [DecidableEq γ]

/-- The elements whose image did not occur before. -/
def distinctBy (f : α → β) : List α → List α
  | [] => []
  | a :: l => a :: (distinctBy f l).filter (fun b => f b ≠ f a)

theorem filter_distinctBy (f : α → β) (p : β → Bool) (l : List α) :
    (distinctBy f l).filter (fun a => p (f a)) = distinctBy f (l.filter fun a => p (f a)) := by
  induction l with
  | nil => rfl
  | cons a l ih =>
    by_cases hp : p (f a) = true
    · have keep (m : List α) :
          (a :: m).filter (fun a => p (f a)) = a :: m.filter fun a => p (f a) := by
        simp [hp]
      rw [distinctBy, keep, keep, distinctBy, ← ih, List.filter_filter, List.filter_filter]
      congr 1
      exact List.filter_congr fun b _ => Bool.and_comm _ _
    · have drop (m : List α) :
          (a :: m).filter (fun a => p (f a)) = m.filter fun a => p (f a) := by
        simp [hp]
      rw [distinctBy, drop, drop, ← ih, List.filter_filter]
      refine List.filter_congr fun b _ => ?_
      by_cases hb : f b = f a
      · simp [hb, hp]
      · simp [hb]

theorem distinctBy_distinctBy (f : α → β) (l : List α) :
    distinctBy f (distinctBy f l) = distinctBy f l := by
  induction l with
  | nil => rfl
  | cons a l ih =>
    have h := filter_distinctBy f (fun b => decide (b ≠ f a)) (distinctBy f l)
    rw [distinctBy, distinctBy, ← h, ih, List.filter_filter]
    simp

theorem map_distinctBy (f : α → β) (l : List α) :
    (distinctBy f l).map f = distinctBy id (l.map f) := by
  induction l with
  | nil => rfl
  | cons a l ih =>
    rw [distinctBy, List.map_cons, List.map_cons, distinctBy, ← ih, List.filter_map]
    rfl

theorem mem_of_mem_distinctBy {f : α → β} {a : α} {l : List α} (h : a ∈ distinctBy f l) : a ∈ l := by
  induction l with
  | nil => exact h
  | cons b l ih =>
    rcases List.mem_cons.mp h with rfl | h
    · exact .head _
    · exact .tail _ (ih (List.mem_filter.mp h).1)

/-- Only which elements have the same image counts. -/
theorem distinctBy_congr {f : α → β} {g : α → γ} {l : List α}
    (h : ∀ a ∈ l, ∀ b ∈ l, f a = f b ↔ g a = g b) : distinctBy f l = distinctBy g l := by
  induction l with
  | nil => rfl
  | cons a l ih =>
    rw [distinctBy, distinctBy, ih fun b hb c hc => h b (.tail _ hb) c (.tail _ hc)]
    congr 1
    refine List.filter_congr fun b hb => ?_
    have hmem : b ∈ l := mem_of_mem_distinctBy hb
    simp [h b (.tail _ hmem) a (.head _)]

theorem distinctBy_map {δ : Type} (f : α → β) (g : δ → α) (l : List δ) :
    distinctBy f (l.map g) = (distinctBy (f ∘ g) l).map g := by
  induction l with
  | nil => rfl
  | cons a l ih =>
    rw [List.map_cons, distinctBy, distinctBy, List.map_cons, ih, List.filter_map]
    rfl

end Distinct

/-! ## Sorting -/

section Sorting

variable {α : Type} (r : α → α → Prop) [DecidableRel r] [IsTrans α r] (p : α → Bool)

theorem filter_orderedInsert (a : α) {l : List α} (h : l.Pairwise r) :
    (l.orderedInsert r a).filter p =
      if p a then (l.filter p).orderedInsert r a else l.filter p := by
  induction l with
  | nil => by_cases hp : p a <;> simp [hp]
  | cons b l ih =>
    obtain ⟨hb, hl⟩ := List.pairwise_cons.mp h
    by_cases hab : r a b
    · have hfront : ∀ c ∈ (b :: l).filter p, r a c := by
        intro c hc
        rcases List.mem_cons.mp (List.mem_filter.mp hc).1 with rfl | hc
        · exact hab
        · exact IsTrans.trans _ _ _ hab (hb c hc)
      rw [List.orderedInsert_cons_of_le r l hab]
      by_cases hp : p a
      · rw [List.filter_cons_of_pos hp, if_pos hp]
        cases hf : (b :: l).filter p with
        | nil => rfl
        | cons c m => rw [List.orderedInsert_cons_of_le r m (hfront c (by simp [hf]))]
      · rw [List.filter_cons_of_neg hp, if_neg hp]
    · rw [List.orderedInsert_of_not_le r l hab]
      by_cases hq : p b
      · rw [List.filter_cons_of_pos hq, List.filter_cons_of_pos hq, ih hl]
        by_cases hp : p a
        · rw [if_pos hp, if_pos hp, List.orderedInsert_of_not_le r _ hab]
        · rw [if_neg hp, if_neg hp]
      · rw [List.filter_cons_of_neg hq, List.filter_cons_of_neg hq, ih hl]

/-- Leaving out elements and stable sorting can be done in either order. -/
theorem filter_insertionSort [Std.Total r] (l : List α) :
    (l.insertionSort r).filter p = (l.filter p).insertionSort r := by
  induction l with
  | nil => rfl
  | cons a l ih =>
    rw [List.insertionSort_cons, filter_orderedInsert r p a (List.pairwise_insertionSort r l), ih]
    by_cases hp : p a
    · rw [if_pos hp, List.filter_cons_of_pos hp, List.insertionSort_cons]
    · rw [if_neg hp, List.filter_cons_of_neg hp]

end Sorting

/-! ## Expressions -/

/-- The first `n` rows, or all of them. -/
def takeTo {α : Type} : Option Nat → List α → List α
  | none, l => l
  | some n, l => l.take n

/-- The smaller of two limits. NULL is no limit. -/
def least : Option Nat → Option Nat → Option Nat
  | none, n => n
  | m, none => m
  | some m, some n => some (min m n)

theorem takeTo_least {α : Type} (m n : Option Nat) (l : List α) :
    takeTo (least m n) l = takeTo n (takeTo m l) := by
  cases m with
  | none => rfl
  | some m =>
    cases n with
    | none => rfl
    | some n =>
      show l.take (min m n) = (l.take m).take n
      rw [List.take_take, Nat.min_comm]

theorem map_takeTo {α β : Type} (f : α → β) (n : Option Nat) (l : List α) :
    (takeTo n l).map f = takeTo n (l.map f) := by
  cases n with
  | none => rfl
  | some n => exact List.map_take

/-- What expressions mean over rows of a type, with values of a type. -/
structure Meaning (ρ V : Type) where
  /-- The value of an expression over a group of source rows. A single row is a group of one. -/
  value : SqlExpr → List ρ → V
  /-- Whether a condition is true of a row: neither false nor unknown. -/
  test : SqlExpr → ρ → Bool
  /-- The value of a row count; NULL has none. -/
  number : SqlExpr → Option Nat
  /-- The row of named values. -/
  row : List (String × V) → ρ
  /-- The groups that some keys and a select list make of rows. -/
  groups : List SqlExpr → List Column → List ρ → List (List ρ)
  le : V → V → Bool
  le_total : ∀ a b, le a b ∨ le b a
  le_trans : ∀ a b c, le a b → le b c → le a c

namespace Meaning

variable {ρ V : Type} (I : Meaning ρ V)

/-- Whether a row meets a condition. -/
def holds : SqlExpr → ρ → Bool
  | .binary .and p q, r => holds p r && holds q r
  | e, r => I.test e r

theorem holds_and (p q : SqlExpr) (r : ρ) :
    I.holds (.binary .and p q) r = (I.holds p r && I.holds q r) := by
  rw [holds]

/-- The number of rows that an expression stands for, if it is not NULL. LEAST skips NULLs. -/
def count : SqlExpr → Option Nat
  | .call "LEAST" [m, n] => least (count m) (count n)
  | .constant (.int32 n) => some n.toInt.toNat
  | e => I.number e

theorem count_least (m n : SqlExpr) : I.count (.call "LEAST" [m, n]) = least (I.count m) (I.count n) := by
  rw [count]

/-! ## Orders -/

/-- Whether a group can stand before another by one key. -/
def keyLe (i : OrderItem) (a b : List ρ) : Bool :=
  if i.ascending then I.le (I.value i.expr a) (I.value i.expr b)
  else I.le (I.value i.expr b) (I.value i.expr a)

/-- Whether a group can stand before another: the first key that tells them apart decides. -/
def before : List OrderItem → List ρ → List ρ → Bool
  | [], _, _ => true
  | i :: is, a, b => I.keyLe i a b && (!I.keyLe i b a || before is a b)

theorem keyLe_total (i : OrderItem) (a b : List ρ) : I.keyLe i a b ∨ I.keyLe i b a := by
  unfold keyLe
  by_cases hi : i.ascending = true
  · simpa [hi] using I.le_total _ _
  · simpa [hi] using I.le_total _ _

theorem keyLe_trans (i : OrderItem) {a b c : List ρ} (hab : I.keyLe i a b) (hbc : I.keyLe i b c) :
    I.keyLe i a c := by
  unfold keyLe at *
  by_cases hi : i.ascending = true
  · simp only [hi, if_true] at *
    exact I.le_trans _ _ _ hab hbc
  · simp only [hi] at *
    exact I.le_trans _ _ _ hbc hab

theorem before_total (items : List OrderItem) (a b : List ρ) :
    I.before items a b ∨ I.before items b a := by
  induction items with
  | nil => exact .inl rfl
  | cons i is ih =>
    have hi := I.keyLe_total i a b
    simp only [before]
    grind

theorem before_trans (items : List OrderItem) {a b c : List ρ} (hab : I.before items a b)
    (hbc : I.before items b c) : I.before items a c := by
  induction items with
  | nil => rfl
  | cons i is ih =>
    have h1 : I.keyLe i a b → I.keyLe i b c → I.keyLe i a c := I.keyLe_trans i
    have h2 : I.keyLe i c a → I.keyLe i a b → I.keyLe i c b := I.keyLe_trans i
    have h3 : I.keyLe i b c → I.keyLe i c a → I.keyLe i b a := I.keyLe_trans i
    simp only [before] at *
    grind

section Sorted

variable {α : Type} (items : List OrderItem) (key : α → List ρ)

/-- The order of elements by their source groups. -/
def Before (a b : α) : Prop := I.before items (key a) (key b) = true

instance : DecidableRel (I.Before items key) := fun _ _ => inferInstanceAs (Decidable (_ = true))

instance : Std.Total (I.Before items key) := ⟨fun a b => I.before_total items (key a) (key b)⟩

instance : IsTrans α (I.Before items key) := ⟨fun _ _ _ => I.before_trans items⟩

/-- Elements in the order of their source groups, or as they are. -/
def ordered : Option (List OrderItem) → List α → List α
  | none, l => l
  | some items, l => l.insertionSort (I.Before items key)

end Sorted

/-- No two different rows have equal keys. -/
def Strict (items : List OrderItem) (rows : List ρ) : Prop :=
  ∀ a ∈ rows, ∀ b ∈ rows, I.before items [a] [b] → I.before items [b] [a] → a = b

instance [DecidableEq ρ] (items : List OrderItem) (rows : List ρ) :
    Decidable (I.Strict items rows) :=
  inferInstanceAs (Decidable (∀ a ∈ rows, ∀ b ∈ rows, _ → _ → a = b))

/-! ## Stages -/

/-- The named values of a select list over a group. -/
def values (columns : List Column) (g : List ρ) : ρ :=
  I.row (columns.map fun c => (c.name, I.value c.expr g))

/-- Each row of the result with the group of source rows that it is made of. -/
def outputs (s : Stage) (rows : List ρ) : List (List ρ × ρ) :=
  match s.projection, s.groupBy with
  | some columns, some keys => (I.groups keys columns rows).map fun g => (g, I.values columns g)
  | some columns, none => rows.map fun r => ([r], I.values columns [r])
  | none, _ => rows.map fun r => ([r], r)

/-- The rows that pass the WHERE clause, if there is one. -/
def kept (s : Stage) (rows : List ρ) : List ρ :=
  match s.where_ with
  | none => rows
  | some p => rows.filter (I.holds p)

/-- The rows between OFFSET and LIMIT. -/
def window {α : Type} (s : Stage) (l : List α) : List α :=
  takeTo (s.limit.bind I.count) (l.drop ((s.skip.bind I.count).getD 0))

variable [DecidableEq ρ]

/-- Leaves out repeated rows under DISTINCT. -/
def deduped {α : Type} (s : Stage) (out : α → ρ) (l : List α) : List α :=
  if s.distinct then distinctBy out l else l

/-- The rows that a stage selects from the rows of its source. -/
def select (s : Stage) (rows : List ρ) : List ρ :=
  (I.window s (I.ordered Prod.fst s.orderBy
    (deduped s Prod.snd (I.outputs s (I.kept s rows))))).map Prod.snd

/-! ## Rows of named integers -/

/-- The value of a column or an integer constant in a row of named integers. -/
def integerOf (r : List (String × Int)) : SqlExpr → Int
  | .columnRef _ name => (r.lookup name).getD 0
  | .constant v => v.int?.getD 0
  | _ => 0

/-- Columns, constants and `>` over rows of named integers. -/
def integers : Meaning (List (String × Int)) Int where
  value e g := integerOf (g.headD []) e
  test e r :=
    match e with
    | .binary .greaterThan x y => decide (integerOf r y < integerOf r x)
    | _ => false
  number e := some (integerOf [] e).toNat
  row := id
  groups keys _ rows :=
    let at_ (r : List (String × Int)) := keys.map (integerOf r)
    (distinctBy at_ rows).map fun r => rows.filter fun r' => at_ r' == at_ r
  le x y := decide (x ≤ y)
  le_total x y := by simpa using Int.le_total x y
  le_trans x y z := by simpa using Int.le_trans

end Meaning

end TreeSql.Sql
