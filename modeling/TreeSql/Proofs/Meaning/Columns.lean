import Mathlib.Data.List.Forall2
import TreeSql.Proofs.Compile.Unqualified
import TreeSql.Proofs.Meaning.Attach

/-
  TreeSql.Proofs.Meaning.Columns — expressions as functions of the columns they refer to.

  Rows have named columns, and what an expression means is an arbitrary function of the values of its
  columns (`Functions`). Such a meaning does not see by which alias a column goes, nor which constants
  were lifted into parameters (`holds_congr`, `select_congr`), and it does not see columns that are not
  referred to (`select_map`).

  `listed` gives a stage the select list that is written for it. A stage over whole rows then gives
  the same rows cut down to this list (`select_listed`), unless DISTINCT takes rows to be equal that
  are not.
-/
namespace TreeSql.Sql

open SqlExpr Compile

/-- A row of named columns. -/
abbrev Row (V : Type) := List (String × V)

/-- What expressions without aliases mean, given the values of their columns. -/
structure Functions (V : Type) where
  /-- The value of an expression; each column has its values in the rows of a group. -/
  apply : SqlExpr → List (List V) → V
  /-- Whether a condition is true. -/
  test : SqlExpr → List V → Bool
  /-- The value of a row count other than an integer constant. -/
  number : SqlExpr → Option Nat
  groups : List SqlExpr → List Column → List (Row V) → List (List (Row V))
  null : V
  le : V → V → Bool
  le_total : ∀ a b, le a b ∨ le b a
  le_trans : ∀ a b c, le a b → le b c → le a c

namespace Functions

variable {V : Type} (F : Functions V)

/-- The value of a column in a row. -/
def cell (r : Row V) (name : String) : V := (r.lookup name).getD F.null

/-- The meaning of expressions where the parameters hold the lifted constants. -/
def meaning (lifted : List Value) : Meaning (Row V) V where
  value e g :=
    match e.unqualified lifted with
    | .columnRef _ name => F.cell (g.headD []) name
    | e => F.apply e (e.columns.map fun name => g.map (F.cell · name))
  test e r := F.test (e.unqualified lifted) (e.columns.map (F.cell r))
  number e :=
    match e.unqualified lifted with
    | .constant (.int32 n) => some n.toInt.toNat
    | e => F.number e
  row := id
  groups := F.groups
  le := F.le
  le_total := F.le_total
  le_trans := F.le_trans

variable {lifted : List Value}

/-! ## Aliases and parameters do not count -/

theorem value_congr {a b : SqlExpr} (h : a.unqualified lifted = b.unqualified lifted)
    (g : List (Row V)) : (F.meaning lifted).value a g = (F.meaning lifted).value b g := by
  simp only [meaning, h]

theorem holds_unqualified (e : SqlExpr) (r : Row V) :
    (F.meaning lifted).holds (e.unqualified lifted) r = (F.meaning lifted).holds e r := by
  fun_induction Meaning.holds (F.meaning lifted) e r with
  | case1 r p q ihp ihq => rw [unqualified, Meaning.holds_and, ihp, ihq]
  | case2 e r hne =>
    have hne' : ∀ p q, e.unqualified lifted = .binary .and p q → False := by
      intro p q h
      cases e with
      | binary op l r =>
        rw [unqualified] at h
        cases h
        exact hne l r rfl
      | verbatim text =>
        rw [unqualified] at h
        split at h
        · cases h
        · cases h
      | _ => cases h
    rw [Meaning.holds.eq_2 _ _ _ hne']
    show F.test ((e.unqualified lifted).unqualified lifted) ((e.unqualified lifted).columns.map _) =
      F.test (e.unqualified lifted) (e.columns.map _)
    rw [unqualified_unqualified, columns_unqualified]

theorem holds_congr {a b : SqlExpr} (h : a.unqualified lifted = b.unqualified lifted) (r : Row V) :
    (F.meaning lifted).holds a r = (F.meaning lifted).holds b r := by
  rw [← holds_unqualified, h, holds_unqualified]

theorem number_unqualified (e : SqlExpr) :
    (F.meaning lifted).number (e.unqualified lifted) = (F.meaning lifted).number e := by
  simp only [meaning, unqualified_unqualified]

theorem count_unqualified (e : SqlExpr) :
    (F.meaning lifted).count (e.unqualified lifted) = (F.meaning lifted).count e := by
  fun_induction Meaning.count (F.meaning lifted) e with
  | case1 m n ihm ihn =>
    simp only [unqualified, unqualifiedAll, Meaning.count_least, ihm, ihn]
  | case2 n => rfl
  | case3 e hleast hint =>
    rw [← F.number_unqualified e]
    by_cases hconst : ∃ n, e.unqualified lifted = .constant (.int32 n)
    · obtain ⟨n, hn⟩ := hconst
      rw [hn]
      rfl
    · have hleast' : ∀ m n, e.unqualified lifted = .call "LEAST" [m, n] → False := by
        intro m n h
        cases e with
        | call name args =>
          simp only [unqualified, unqualifiedAll_eq_map, call.injEq] at h
          obtain ⟨rfl, hargs⟩ := h
          obtain ⟨a, b, rfl⟩ : ∃ a b, args = [a, b] :=
            List.length_eq_two.mp (by simpa using congrArg List.length hargs)
          exact hleast a b rfl
        | verbatim text =>
          rw [unqualified] at h
          split at h
          · cases h
          · cases h
        | _ => cases h
      exact Meaning.count.eq_3 _ _ hleast' fun n hn => hconst ⟨n, hn⟩

theorem count_congr {a b : SqlExpr} (h : a.unqualified lifted = b.unqualified lifted) :
    (F.meaning lifted).count a = (F.meaning lifted).count b := by
  rw [← count_unqualified, h, count_unqualified]

/-- Sort keys that read the same. -/
def SameItems (lifted : List Value) : List OrderItem → List OrderItem → Prop :=
  List.Forall₂ fun i j => i.expr.unqualified lifted = j.expr.unqualified lifted ∧ i.ascending = j.ascending

theorem before_congr {is js : List OrderItem} (h : SameItems lifted is js) (a b : List (Row V)) :
    (F.meaning lifted).before is a b = (F.meaning lifted).before js a b := by
  induction h with
  | nil => rfl
  | @cons i j is js hij _ ih =>
    have hkey (a b : List (Row V)) : (F.meaning lifted).keyLe i a b = (F.meaning lifted).keyLe j a b := by
      unfold Meaning.keyLe
      rw [hij.2, F.value_congr hij.1, F.value_congr hij.1]
    rw [Meaning.before, Meaning.before, hkey, hkey, ih]

theorem ordered_congr {α : Type} {is js : List OrderItem} (h : SameItems lifted is js)
    (key : α → List (Row V)) (l : List α) :
    (F.meaning lifted).ordered key (some is) l = (F.meaning lifted).ordered key (some js) l := by
  have hrel : (F.meaning lifted).Before is key = (F.meaning lifted).Before js key := by
    funext a b
    unfold Meaning.Before
    rw [F.before_congr h]
  show l.insertionSort ((F.meaning lifted).Before is key) = l.insertionSort ((F.meaning lifted).Before js key)
  congr 1

/-- Select lists that read the same. -/
def SameColumns (lifted : List Value) : List Column → List Column → Prop :=
  List.Forall₂ fun c d => c.expr.unqualified lifted = d.expr.unqualified lifted ∧ c.name = d.name

theorem values_congr {cs ds : List Column} (h : SameColumns lifted cs ds) (g : List (Row V)) :
    (F.meaning lifted).values cs g = (F.meaning lifted).values ds g := by
  unfold Meaning.values
  congr 1
  induction h with
  | nil => rfl
  | cons hcd _ ih => rw [List.map_cons, List.map_cons, hcd.2, F.value_congr hcd.1, ih]

end Functions

/-! ## Columns that are not referred to do not count -/

namespace Functions

variable {V : Type} (F : Functions V) {lifted : List Value}

/-- Two rows have the same values in some columns. -/
def SameIn (names : List String) (a b : Row V) : Prop := ∀ name ∈ names, F.cell a name = F.cell b name

theorem value_sameIn {e : SqlExpr} {a b : Row V} (h : F.SameIn e.columns a b) :
    (F.meaning lifted).value e [a] = (F.meaning lifted).value e [b] := by
  have h : F.SameIn (e.unqualified lifted).columns a b := by
    rw [columns_unqualified]
    exact h
  simp only [meaning]
  split
  · rename_i name he
    rw [he] at h
    exact h name (by simp [columns])
  · congr 1
    refine List.map_congr_left fun name hname => ?_
    show [F.cell a name] = [F.cell b name]
    rw [h name hname]

theorem holds_sameIn {e : SqlExpr} {a b : Row V} (h : F.SameIn e.columns a b) :
    (F.meaning lifted).holds e a = (F.meaning lifted).holds e b := by
  fun_induction Meaning.holds (F.meaning lifted) e a with
  | case1 p q a ihp ihq =>
    rw [Meaning.holds_and, ihp fun name hname => h name (List.mem_append_left _ hname),
      ihq fun name hname => h name (List.mem_append_right _ hname)]
  | case2 e a hne =>
    rw [Meaning.holds.eq_2 _ _ _ hne]
    show F.test _ (e.columns.map _) = F.test _ (e.columns.map _)
    congr 1
    exact List.map_congr_left h

theorem before_sameIn {items : List OrderItem} {a b a' b' : Row V}
    (ha : F.SameIn (items.flatMap fun i => i.expr.columns) a a')
    (hb : F.SameIn (items.flatMap fun i => i.expr.columns) b b') :
    (F.meaning lifted).before items [a] [b] = (F.meaning lifted).before items [a'] [b'] := by
  induction items with
  | nil => rfl
  | cons i items ih =>
    have hva : (F.meaning lifted).value i.expr [a] = (F.meaning lifted).value i.expr [a'] :=
      F.value_sameIn fun name hname => ha name (List.mem_append_left _ hname)
    have hvb : (F.meaning lifted).value i.expr [b] = (F.meaning lifted).value i.expr [b'] :=
      F.value_sameIn fun name hname => hb name (List.mem_append_left _ hname)
    rw [Meaning.before, Meaning.before, ih (fun name hname => ha name (List.mem_append_right _ hname))
      fun name hname => hb name (List.mem_append_right _ hname)]
    simp only [Meaning.keyLe, hva, hvb]

theorem values_sameIn {columns : List Column} {a b : Row V}
    (h : F.SameIn (Stage.listReads columns) a b) :
    (F.meaning lifted).values columns [a] = (F.meaning lifted).values columns [b] := by
  unfold Meaning.values
  congr 1
  refine List.map_congr_left fun c hc => ?_
  rw [F.value_sameIn fun name hname => h name (List.mem_flatMap.mpr ⟨c, hc, hname⟩)]

theorem kept_map {s : Stage} {f : Row V → Row V} {rows : List (Row V)}
    (hf : ∀ r ∈ rows, F.SameIn (s.where_.elim [] SqlExpr.columns) (f r) r) :
    (F.meaning lifted).kept s (rows.map f) = ((F.meaning lifted).kept s rows).map f := by
  unfold Meaning.kept
  cases hw : s.where_ with
  | none => rfl
  | some p =>
    rw [hw] at hf
    show (rows.map f).filter _ = (rows.filter _).map f
    rw [List.filter_map]
    congr 1
    exact List.filter_congr fun r hr => F.holds_sameIn (hf r hr)

theorem sameIn_of_pulled {s : Stage} {a b : Row V}
    (h : (F.meaning lifted).values s.pulledColumns [a] = (F.meaning lifted).values s.pulledColumns [b]) :
    F.SameIn (s.pulled.map (·.column)) a b := by
  intro name hname
  obtain ⟨p, hp, rfl⟩ := List.mem_map.mp hname
  simp only [Meaning.values, Stage.pulledColumns, List.map_map] at h
  have hp' := List.map_inj_left.mp h p hp
  exact (Prod.mk.inj hp').2

variable [DecidableEq V]

/-- A stage with a select list sees the columns that it refers to and no others. -/
theorem select_map {s : Stage} {columns : List Column} (hp : s.projection = some columns)
    (hg : s.groupBy = none) {f : Row V → Row V} {rows : List (Row V)}
    (hf : ∀ r ∈ rows, F.SameIn s.reads (f r) r) :
    (F.meaning lifted).select s (rows.map f) = (F.meaning lifted).select s rows := by
  let I := F.meaning lifted
  let l := I.kept s rows
  let out (r : Row V) : Row V := I.values columns [r]
  have hreads (r : Row V) (hr : r ∈ l) : F.SameIn s.reads (f r) r := hf r (I.mem_of_mem_kept hr)
  have hkept : I.kept s (rows.map f) = l.map f :=
    F.kept_map fun r hr name hname =>
      hf r hr name (List.mem_append_left _ (List.mem_append_left _ hname))
  have hout (r : Row V) (hr : r ∈ l) : out (f r) = out r := by
    refine F.values_sameIn fun name hname => hreads r hr name ?_
    rw [Stage.reads, hp]
    exact List.mem_append_right _ hname
  have hded : Meaning.deduped s (out ∘ f) l = Meaning.deduped s out l := by
    unfold Meaning.deduped
    by_cases hd : s.distinct = true
    · rw [if_pos hd, if_pos hd]
      exact distinctBy_congr fun a ha b hb => by rw [Function.comp, Function.comp, hout a ha, hout b hb]
    · rw [if_neg hd, if_neg hd]
  have hord : I.ordered (Meaning.alone ∘ f) s.orderBy (Meaning.deduped s out l) =
      I.ordered Meaning.alone s.orderBy (Meaning.deduped s out l) := by
    refine I.ordered_eq_of_before fun is his a ha b hb => ?_
    have hitems : ∀ name ∈ is.flatMap (fun i => i.expr.columns), name ∈ s.reads := by
      intro name hname
      rw [Option.mem_def] at his
      rw [Stage.reads, his]
      exact List.mem_append_left _ (List.mem_append_right _ hname)
    exact F.before_sameIn
      (fun name hname => hreads a (Meaning.mem_of_mem_deduped ha) name (hitems name hname))
      fun name hname => hreads b (Meaning.mem_of_mem_deduped hb) name (hitems name hname)
  rw [I.select_values hp hg, I.select_values hp hg, hkept]
  show (I.window s (I.ordered Meaning.alone s.orderBy (Meaning.deduped s out (l.map f)))).map out =
    (I.window s (I.ordered Meaning.alone s.orderBy (Meaning.deduped s out l))).map out
  rw [← Meaning.map_deduped, hded, ← I.map_ordered, hord, ← I.map_window, List.map_map]
  refine List.map_congr_left fun r hr => hout r ?_
  exact Meaning.mem_of_mem_deduped ((I.perm_ordered _ _ _).mem_iff.mp (I.mem_of_mem_window hr))

/-- The source rows that a stage over whole rows works on are told apart by its written select list. -/
def Told (lifted : List Value) (s : Stage) (rows : List (Row V)) : Prop :=
  ∀ a ∈ (F.meaning lifted).kept s rows, ∀ b ∈ (F.meaning lifted).kept s rows,
    F.SameIn (s.pulled.map (·.column)) a b → a = b

/-- The row of the columns that a stage exposes. -/
def exposed (lifted : List Value) (s : Stage) (r : Row V) : Row V :=
  match s.projection with
  | some _ => r
  | none => (F.meaning lifted).values s.pulledColumns [r]

/-- A stage over whole rows gives the rows of the written stage, cut down to its select list there. -/
theorem select_listed {s : Stage} (hg : s.groupBy = none) {rows : List (Row V)}
    (htold : s.distinct = true → s.projection = none → F.Told lifted s rows) :
    (F.meaning lifted).select s.listed rows =
      ((F.meaning lifted).select s rows).map (F.exposed lifted s) := by
  cases hp : s.projection with
  | some columns =>
    have hlisted : s.listed = s := by
      unfold Stage.listed
      rw [hp, Option.getD_some, ← hp]
    have hexposed : F.exposed lifted s = id := by
      funext r
      simp [exposed, hp]
    rw [hlisted, hexposed, List.map_id]
  | none =>
    have hexposed : F.exposed lifted s = fun r => (F.meaning lifted).values s.pulledColumns [r] := by
      funext r
      simp [exposed, hp]
    have hlisted : s.listed = { s with projection := some s.pulledColumns } := by
      unfold Stage.listed
      rw [hp, Option.getD_none]
    rw [hexposed, hlisted]
    refine Meaning.select_projection _ _ hp hg fun hd a ha b hb hab => ?_
    exact htold hd hp a ha b hb (F.sameIn_of_pulled hab)

end Functions

end TreeSql.Sql
