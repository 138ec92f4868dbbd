import Mathlib.Data.Finset.Dedup
import Mathlib.Data.Finset.Insert
import Mathlib.Data.List.Perm.Subperm
import TreeSql.Proofs.Compile.Frame
import TreeSql.Proofs.References.Names
import TreeSql.Sql.Render

/-
  TreeSql.Proofs.Exposed.PulledNames — the names under which columns are pulled up through a stage.

  A column is identified by its source and its own name. It is exposed under its own name, or, where that is
  taken, under that name and the first new alias after it that makes a free one. `pullEach` pulls columns up one
  after another; aliases may be drawn for other purposes in between.

  `Register` keeps the columns and the names given to them in two containers, and looks for a free name for as
  long as it takes (`Search`). Pulling columns up is just this: every search ends (`search_freshName`), since each
  alias makes another candidate and only finitely many are taken (`exists_free`), and the set holds the names of
  the columns at any time (`calls_iff`).

  What holds between any two requests is `Named`: different columns have different names, they stand in the order
  in which they were first asked for, and every request got the name that its column has still.
  `pulled_names` puts this together.
-/
namespace TreeSql.Sql

open Compile (aliasName_inj)

/-! ## Columns pulled up one after another -/

/-- A column that is asked for, and how many aliases were drawn for other purposes since the last one was. -/
structure Request where
  source : String
  column : String
  drawn : Nat := 0

/-- What identifies a column. -/
abbrev Key := String × String

def Request.key (q : Request) : Key := (q.source, q.column)

def Pulled.key (p : Pulled) : Key := (p.source, p.column)

/-- Pulls columns up one after another. Gives their names, the stage and the number of the last alias. -/
def Stage.pullEach (s : Stage) (counter : Nat) : List Request → List String × Stage × Nat
  | [] => ([], s, counter)
  | q :: qs =>
    let (name, s, counter) := s.pull q.source q.column (counter + q.drawn)
    let (names, s, counter) := s.pullEach counter qs
    (name :: names, s, counter)

/-- A column under the name of an alias. -/
def withAlias (column : String) (k : Nat) : String := column ++ "_" ++ aliasName k

/-! ## Two containers -/

/-- A search for a free name: while the candidate is taken, an alias is drawn for the next one. -/
inductive Search (taken : Finset String) (column : String) : String → Nat → String → Nat → Prop
  | found {candidate : String} {k : Nat} (hfree : candidate ∉ taken) : Search taken column candidate k candidate k
  | next {candidate name : String} {k k' : Nat} (htaken : candidate ∈ taken)
      (hrest : Search taken column (withAlias column (k + 1)) (k + 1) name k') : Search taken column candidate k name k'

/-- The columns of a stage, in order, and the set of the names given to them. -/
structure Register where
  columns : List Pulled := []
  names : Finset String := ∅

/-- A request for a column: its name, the register afterwards and the number of the last alias. -/
inductive Register.Call (r : Register) (source column : String) (k : Nat) : String → Register → Nat → Prop
  | known {p : Pulled} (hfind : r.columns.find? (·.key == (source, column)) = some p) :
      Call r source column k p.name r k
  | new {name : String} {k' : Nat} (hfind : r.columns.find? (·.key == (source, column)) = none)
      (hsearch : Search r.names column column k name k') :
      Call r source column k name ⟨r.columns ++ [⟨source, column, name⟩], insert name r.names⟩ k'

/-- Requests one after another. -/
inductive Register.Calls : Register → Nat → List Request → List String → Register → Nat → Prop
  | done (r : Register) (k : Nat) : Calls r k [] [] r k
  | call {r r' r'' : Register} {k k' k'' : Nat} {q : Request} {qs : List Request} {name : String} {names : List String}
      (hcall : r.Call q.source q.column (k + q.drawn) name r' k') (hrest : Calls r' k' qs names r'' k'') :
      Calls r k (q :: qs) (name :: names) r'' k''

/-- The columns and names of a stage. -/
def Stage.register (s : Stage) : Register := ⟨s.pulled, (s.pulled.map (·.name)).toFinset⟩

/-! ## Free names -/

section

variable {taken : Finset String} {column candidate name name' : String} {k k' k'' : Nat}

theorem withAlias_inj {j : Nat} (h : withAlias column j = withAlias column k) : j = k := by
  have h := String.toList_inj.mpr h
  simp only [withAlias, String.toList_append, List.append_cancel_left_eq] at h
  exact aliasName_inj (String.toList_inj.mp h)

theorem withAlias_ne (column : String) (k : Nat) : withAlias column k ≠ column := by
  intro h
  have hlength := congrArg String.length h
  have hmark : "_".length = 1 := rfl
  rw [withAlias, String.length_append, String.length_append, hmark] at hlength
  omega

/-- Of the column's own name and those with the next aliases, as many as there are taken names, one is free. -/
theorem exists_free (names : List String) (column : String) (k : Nat) :
    column ∉ names ∨ ∃ i, k < i ∧ i ≤ k + names.length ∧ withAlias column i ∉ names := by
  by_contra hall
  obtain ⟨hcolumn, haliases⟩ := not_or.mp hall
  let candidates := column :: (List.range' (k + 1) names.length).map (withAlias column)
  have hsubset : candidates ⊆ names := by
    intro c hc
    rcases List.mem_cons.mp hc with rfl | hc
    · exact not_not.mp hcolumn
    · obtain ⟨i, hi, rfl⟩ := List.mem_map.mp hc
      obtain ⟨hlow, hhigh⟩ := List.mem_range'_1.mp hi
      by_contra hfree
      exact haliases ⟨i, by omega, by omega, hfree⟩
  have hnodup : candidates.Nodup := by
    refine List.nodup_cons.mpr ⟨fun hc => ?_, List.Nodup.map (fun _ _ => withAlias_inj) (List.nodup_range' 1)⟩
    obtain ⟨i, -, hi⟩ := List.mem_map.mp hc
    exact withAlias_ne column i hi
  have hlength := (List.subperm_of_subset hnodup hsubset).length_le
  simp only [candidates, List.length_cons, List.length_map, List.length_range'] at hlength
  omega

theorem Search.unique (h : Search taken column candidate k name k') (h' : Search taken column candidate k name' k'') :
    name = name' ∧ k' = k'' := by
  induction h with
  | found hfree =>
    cases h' with
    | found => exact ⟨rfl, rfl⟩
    | next htaken => exact absurd htaken hfree
  | next htaken _ ih =>
    cases h' with
    | found hfree => exact absurd htaken hfree
    | next _ hrest => exact ih hrest

theorem Search.free (h : Search taken column candidate k name k') : name ∉ taken := by
  induction h with
  | found hfree => exact hfree
  | next _ _ ih => exact ih

/-- The search ends if one of the candidates that there is fuel for is free. -/
theorem search_freshName_of_free {names : List String} {fuel : Nat}
    (h : candidate ∉ names ∨ ∃ i, k < i ∧ i ≤ k + fuel ∧ withAlias column i ∉ names) :
    Search names.toFinset column candidate k (Stage.freshName names column fuel candidate k).1
      (Stage.freshName names column fuel candidate k).2 := by
  induction fuel generalizing candidate k with
  | zero =>
    refine .found fun hmem => ?_
    rcases h with h | ⟨i, hlow, hhigh, -⟩
    · exact h (List.mem_toFinset.mp hmem)
    · omega
  | succ fuel ih =>
    rw [Stage.freshName]
    by_cases hmem : candidate ∈ names
    · rw [if_pos (by simpa using hmem)]
      refine .next (List.mem_toFinset.mpr hmem) (ih ?_)
      rcases h with h | ⟨i, hlow, hhigh, hfree⟩
      · exact absurd hmem h
      -- the free candidate is the next one, or a later one
      rcases Nat.eq_or_lt_of_le (Nat.succ_le_of_lt hlow) with rfl | hlow
      · exact .inl hfree
      · exact .inr ⟨i, hlow, by omega, hfree⟩
    · rw [if_neg (by simpa using hmem)]
      exact .found (by simpa using hmem)

theorem search_freshName (names : List String) (column : String) (k : Nat) :
    Search names.toFinset column column k (Stage.freshName names column names.length column k).1
      (Stage.freshName names column names.length column k).2 :=
  search_freshName_of_free (exists_free names column k)

end

/-! ## Pulling up is a run of requests -/

section

variable {s t : Stage} {r : Register} {source column name : String} {k k' : Nat} {qs : List Request}
  {names : List String}

theorem exposedName?_eq (s : Stage) (source column : String) :
    s.exposedName? source column = (s.pulled.find? (·.key == (source, column))).map (·.name) := rfl

theorem find?_eq_none_of_exposedName? (h : s.exposedName? source column = none) :
    s.pulled.find? (·.key == (source, column)) = none := Option.map_eq_none_iff.mp h

theorem exposedName?_eq_none : s.exposedName? source column = none ↔ (source, column) ∉ s.pulled.map (·.key) := by
  rw [exposedName?_eq, Option.map_eq_none_iff, List.find?_eq_none]
  simp

/-- The stage with one more column. -/
def Stage.withColumn (s : Stage) (p : Pulled) : Stage := { s with pulled := s.pulled ++ [p] }

theorem register_withColumn (s : Stage) (p : Pulled) :
    (s.withColumn p).register = ⟨s.pulled ++ [p], insert p.name s.register.names⟩ := by
  have hnames : (s.pulled.map (·.name) ++ [p.name]).toFinset = insert p.name s.register.names := by
    ext x
    rw [Stage.register, Finset.mem_insert, List.mem_toFinset, List.mem_append, List.mem_singleton, List.mem_toFinset,
      or_comm]
  rw [← hnames, Stage.register, Stage.withColumn, List.map_append, List.map_singleton]

theorem exposedName?_withColumn (h : s.exposedName? source column = none) (name : String) :
    (s.withColumn ⟨source, column, name⟩).exposedName? source column = some name := by
  rw [exposedName?_eq, Stage.withColumn, List.find?_append, find?_eq_none_of_exposedName? h]
  simp [Pulled.key]

/-- What pulling a column up does: nothing if it is exposed, or it is added under a free name. -/
theorem pull_cases (s : Stage) (source column : String) (k : Nat) :
    (∃ name, s.exposedName? source column = some name ∧ s.pull source column k = (name, s, k)) ∨
    (s.exposedName? source column = none ∧ ∃ name k', Search s.register.names column column k name k' ∧
      s.pull source column k = (name, s.withColumn ⟨source, column, name⟩, k')) := by
  unfold Stage.pull
  cases hname : s.exposedName? source column with
  | some name => exact .inl ⟨name, rfl, rfl⟩
  | none =>
    have hsearch := search_freshName (s.pulled.map (·.name)) column k
    exact .inr ⟨rfl, _, _, hsearch, rfl⟩

theorem call_pull (s : Stage) (source column : String) (k : Nat) :
    s.register.Call source column k (s.pull source column k).1 (s.pull source column k).2.1.register
      (s.pull source column k).2.2 := by
  rcases pull_cases s source column k with ⟨name, hname, hpull⟩ | ⟨hname, name, k', hsearch, hpull⟩
  · obtain ⟨p, hfind, rfl⟩ := Option.map_eq_some_iff.mp hname
    rw [hpull]
    exact .known hfind
  · rw [hpull, register_withColumn]
    exact .new (find?_eq_none_of_exposedName? hname) hsearch

theorem Register.Call.unique {r₁ r₂ : Register} {name₁ name₂ : String} {k₁ k₂ : Nat}
    (h : r.Call source column k name₁ r₁ k₁) (h' : r.Call source column k name₂ r₂ k₂) :
    name₁ = name₂ ∧ r₁ = r₂ ∧ k₁ = k₂ := by
  cases h with
  | known hfind =>
    cases h' with
    | known hfind' =>
      obtain rfl := Option.some.inj (hfind.symm.trans hfind')
      exact ⟨rfl, rfl, rfl⟩
    | new hfind' => cases hfind.symm.trans hfind'
  | new hfind hsearch =>
    cases h' with
    | known hfind' => cases hfind.symm.trans hfind'
    | new _ hsearch' =>
      obtain ⟨rfl, rfl⟩ := hsearch.unique hsearch'
      exact ⟨rfl, rfl, rfl⟩

/-- Every request is answered, in one way. -/
theorem calls_iff (s : Stage) (k : Nat) (qs : List Request) :
    s.register.Calls k qs names r k' ↔
      names = (s.pullEach k qs).1 ∧ r = (s.pullEach k qs).2.1.register ∧ k' = (s.pullEach k qs).2.2 := by
  induction qs generalizing s k names with
  | nil =>
    constructor
    · intro h
      cases h with
      | done => exact ⟨rfl, rfl, rfl⟩
    · rintro ⟨rfl, rfl, rfl⟩
      exact .done _ _
  | cons q qs ih =>
    have hfirst := call_pull s q.source q.column (k + q.drawn)
    constructor
    · intro h
      cases h with
      | call hcall hrest =>
        obtain ⟨rfl, rfl, rfl⟩ := hcall.unique hfirst
        obtain ⟨rfl, rfl, rfl⟩ := (ih _ _).mp hrest
        exact ⟨rfl, rfl, rfl⟩
    · rintro ⟨rfl, rfl, rfl⟩
      exact .call hfirst ((ih _ _).mpr ⟨rfl, rfl, rfl⟩)

/-! ## The names that requests get -/

/-- What holds of a stage after the requests, which got the names. -/
structure Named (s : Stage) (qs : List Request) (names : List String) : Prop where
  /-- The stage selects nothing of its own. -/
  unlisted : s.projection = none
  apart : s.pulled.Pairwise fun p p' => p.key ≠ p'.key ∧ p.name ≠ p'.name
  order : s.pulled.map (·.key) = (qs.map (·.key)).eraseDups
  kept : List.Forall₂ (fun q name => s.exposedName? q.source q.column = some name) qs names

/-- The stage without a select list and without columns. -/
def Stage.emptied (s : Stage) : Stage := { s with projection := none, pulled := [] }

theorem named_emptied (s : Stage) : Named s.emptied [] [] := ⟨rfl, .nil, rfl, .nil⟩

/-- A column that is exposed keeps its name. -/
theorem exposedName?_extended (h : Compile.Extended s t) (hname : s.exposedName? source column = some name) :
    t.exposedName? source column = some name := by
  obtain ⟨added, hadded⟩ := h.pulled
  rw [exposedName?_eq] at hname ⊢
  obtain ⟨p, hfind, hp⟩ := Option.map_eq_some_iff.mp hname
  rw [← hadded, List.find?_append, hfind, Option.some_or, Option.map_some, hp]

theorem eraseDups_concat (keys : List Key) (key : Key) :
    (keys ++ [key]).eraseDups = if key ∈ keys then keys.eraseDups else keys.eraseDups ++ [key] := by
  rw [List.eraseDups_append]
  by_cases hkey : key ∈ keys
  · simp [hkey, List.removeAll]
  · simp [hkey, List.removeAll, List.eraseDups_cons]

theorem Named.mem_keys (h : Named s qs names) (q : Request) :
    q.key ∈ qs.map (·.key) ↔ q.key ∈ s.pulled.map (·.key) := by
  rw [h.order, List.mem_eraseDups]

/-- A request for a column that is exposed. -/
theorem Named.known (h : Named s qs names) {q : Request} (hname : s.exposedName? q.source q.column = some name) :
    Named s (qs ++ [q]) (names ++ [name]) := by
  have hknown : q.key ∈ s.pulled.map (·.key) := by
    by_contra hnew
    rw [exposedName?_eq_none.mpr hnew] at hname
    cases hname
  refine ⟨h.unlisted, h.apart, ?_, List.rel_append h.kept (.cons hname .nil)⟩
  rw [h.order, List.map_append, List.map_singleton, eraseDups_concat, if_pos ((h.mem_keys q).mpr hknown)]

/-- A request for a new column, which gets a name that is free. -/
theorem Named.new (h : Named s qs names) {q : Request} (hname : s.exposedName? q.source q.column = none)
    (hfree : name ∉ s.register.names) :
    Named (s.withColumn ⟨q.source, q.column, name⟩) (qs ++ [q]) (names ++ [name]) := by
  have hnew : q.key ∉ s.pulled.map (·.key) := exposedName?_eq_none.mp hname
  have hextended : Compile.Extended s (s.withColumn ⟨q.source, q.column, name⟩) := ⟨rfl, List.prefix_append _ _⟩
  have hkept := h.kept.imp fun _ _ hold => exposedName?_extended hextended hold
  refine ⟨h.unlisted, ?_, ?_, List.rel_append hkept (.cons (exposedName?_withColumn hname name) .nil)⟩
  · refine List.pairwise_append.mpr ⟨h.apart, List.pairwise_singleton _ _, fun p hp p' hp' => ?_⟩
    obtain rfl := List.mem_singleton.mp hp'
    exact ⟨fun hkey => hnew (List.mem_map.mpr ⟨p, hp, hkey⟩),
      fun heq => hfree (List.mem_toFinset.mpr (List.mem_map.mpr ⟨p, hp, heq⟩))⟩
  · rw [Stage.withColumn, List.map_append, h.order, List.map_append, List.map_singleton, List.map_singleton,
      eraseDups_concat, if_neg fun hold => hnew ((h.mem_keys q).mp hold)]
    rfl

theorem Named.pull (h : Named s qs names) (q : Request) (k : Nat) :
    Named (s.pull q.source q.column k).2.1 (qs ++ [q]) (names ++ [(s.pull q.source q.column k).1]) := by
  rcases pull_cases s q.source q.column k with ⟨name, hname, hpull⟩ | ⟨hname, name, k', hsearch, hpull⟩
  · rw [hpull]
    exact h.known hname
  · rw [hpull]
    exact h.new hname hsearch.free

theorem Named.pullEach {past : List Request} {pastNames : List String} (h : Named s past pastNames)
    (k : Nat) (qs : List Request) :
    Named (s.pullEach k qs).2.1 (past ++ qs) (pastNames ++ (s.pullEach k qs).1) := by
  induction qs generalizing s past pastNames k with
  | nil => simpa [Stage.pullEach] using h
  | cons q qs ih =>
    have hrest := ih (h.pull q (k + q.drawn)) (s.pull q.source q.column (k + q.drawn)).2.2
    rw [List.append_assoc, List.append_assoc] at hrest
    exact hrest

/-- Asked for again, a column has the name that it got, and nothing changes. -/
theorem Named.pull_again (h : Named s qs names) :
    List.Forall₂ (fun q name => ∀ k, s.pull q.source q.column k = (name, s, k)) qs names := by
  refine h.kept.imp fun q name hname k => ?_
  rw [Stage.pull, hname]

/-- The columns are listed in the order in which they were first asked for. -/
theorem Named.selectList (h : Named s qs names) (regime : Regime) (select : StageId → String) :
    s.selectList regime select = if qs.isEmpty then "1" else ", ".intercalate (s.pulled.map Pulled.render) := by
  have hempty : s.pulled.isEmpty = qs.isEmpty := by
    have hlength := congrArg List.isEmpty h.order
    cases qs with
    | nil => simpa using hlength
    | cons q qs => simpa [List.eraseDups_cons] using hlength
  rw [Stage.selectList, h.unlisted, hempty]

end

/-- However columns are asked for, every search for a name ends; different columns get different names, and the set
    of names given holds those of the columns; a column that is asked for again has the name that it got, and nothing
    changes; and the select list has the columns in the order in which they were first asked for. -/
theorem pulled_names (s₀ : Stage) (qs : List Request) (k : Nat) :
    ∃ names s k', s₀.emptied.pullEach k qs = (names, s, k') ∧
      (∀ names' r k'', Register.Calls {} k qs names' r k'' ↔
        names' = names ∧ r = ⟨s.pulled, s.outputNames.toFinset⟩ ∧ k'' = k') ∧
      (s.pulled.Pairwise fun p p' => p.key ≠ p'.key ∧ p.name ≠ p'.name) ∧
      List.Forall₂ (fun q name => ∀ j, s.pull q.source q.column j = (name, s, j)) qs names ∧
      s.pulled.map (·.key) = (qs.map (·.key)).eraseDups ∧
      ∀ regime select, s.selectList regime select =
        if qs.isEmpty then "1" else ", ".intercalate (s.pulled.map Pulled.render) := by
  have hnamed := (named_emptied s₀).pullEach k qs
  refine ⟨_, _, _, rfl, fun names' r k'' => ?_, hnamed.apart, hnamed.pull_again, hnamed.order, hnamed.selectList⟩
  rw [Stage.outputNames, hnamed.unlisted]
  exact calls_iff s₀.emptied k qs

/-- Names that look like those with an alias are no exception. -/
example : (Stage.pullEach {} 0 [⟨"a", "x", 0⟩, ⟨"b", "x", 0⟩, ⟨"b", "x_Alias1", 0⟩, ⟨"a", "x", 0⟩, ⟨"c", "x", 0⟩]).1 =
    ["x", "x_Alias1", "x_Alias1_Alias2", "x", "x_Alias3"] := by decide +kernel

end TreeSql.Sql
