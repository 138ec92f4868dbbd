import TreeSql.Proofs.Compile.Results
import TreeSql.Proofs.Meaning.Narrowing

/-
  TreeSql.Proofs.Meaning.Groups — a grouping gives one row for each tuple of its keys.

  SQL groups rows in three ways. With a GROUP BY clause there is one group for each tuple of the keys
  that are listed; without one all rows are one group if the select list calls an aggregate, and each row
  is a group of its own if it does not (`groupsOf`). `Functions.grouping` is the meaning of stages with these
  groups, and `Functions.groupedRows` what a grouping is to give.

  The keys that are constants are not listed, since GROUP BY would read them as places of columns. They do not
  tell rows apart, so nothing is lost as long as some key is listed, or as there are rows for the only group.
  Proved (`Compile.select_groupRows`): the stage that a grouping leaves gives its groups, whichever stage took
  the clause. An aggregate with constant keys only is the exception: over no rows, where there is no tuple of
  keys, it gives one row (`Compile.Films.one_row_of_none`). Constant keys without any aggregate are left out: there
  each row is a group of its own, though all of them have the same keys (`Compile.Films.one_row_each`).
-/
namespace TreeSql

open Sql

/-! ## Calls of aggregates -/

/-- The functions that are aggregates. -/
def Compile.aggregateFunctions : List String := Compile.aggregateNames.map (·.2) ++ ["string_agg"]

namespace Sql

open Compile

namespace SqlExpr

mutual

/-- Whether the expression calls an aggregate, outside of its subqueries. -/
def callsAggregate : SqlExpr → Bool
  | verbatim _ | constant _ | columnRef .. | property _ | stage _ => false
  | call name es => aggregateFunctions.contains name || callsAggregateAny es
  | seq es | list es => callsAggregateAny es
  | paren e | column e _ _ | cast e _ | leading _ e | trailing _ e | exists_ e => callsAggregate e
  | binary _ l r => callsAggregate l || callsAggregate r
termination_by structural e => e

def callsAggregateAny : List SqlExpr → Bool
  | [] => false
  | e :: es => callsAggregate e || callsAggregateAny es
termination_by structural es => es

end

end SqlExpr

/-! ## Groups -/

section

variable {ρ κ : Type} [DecidableEq κ]

/-- The rows that a row has its key in common with. -/
def sameKey (key : ρ → κ) (rows : List ρ) (r : ρ) : List ρ := rows.filter fun r' => key r' = key r

theorem mem_sameKey {key : ρ → κ} {rows : List ρ} {r r' : ρ} :
    r' ∈ sameKey key rows r ↔ r' ∈ rows ∧ key r' = key r := by
  simp [sameKey]

/-- The groups that a SELECT makes of rows: by a GROUP BY clause, if it lists keys; all rows as one group, if there
    is none but an aggregate; and else each row for itself. -/
def groupsOf (key : ρ → κ) (listed aggregated : Bool) (rows : List ρ) : List (List ρ) :=
  if listed then (distinctBy key rows).map (sameKey key rows)
  else if aggregated then [rows]
  else rows.map ([·])

theorem distinctBy_const {key : ρ → κ} {r : ρ} {rows : List ρ} (h : ∀ r' ∈ rows, key r' = key r) :
    distinctBy key (r :: rows) = [r] := by
  rw [distinctBy, List.filter_eq_nil_iff.mpr]
  intro r' hr'
  simpa using h r' (mem_of_mem_distinctBy hr')

end

namespace Functions

variable {V : Type} [DecidableEq V] (F : Functions V) (lifted : List Value)

/-- The tuple of keys of a row. -/
def keyTuple (keys : List SqlExpr) (r : Row V) : List V := keys.map ((F.meaning lifted).value · [r])

/-- The meaning of stages under the groups of SQL. What is not aggregated is the same in all rows of a group, and
    is taken from the first one. -/
def grouping : Meaning (Row V) V :=
  { F.meaning lifted with
    value := fun e g => (F.meaning lifted).value e (if e.callsAggregate then g else g.take 1)
    groups := fun keys columns rows =>
      groupsOf (F.keyTuple lifted keys) (!keys.isEmpty) (columns.any (·.expr.callsAggregate)) rows }

/-- A row of the named columns of a group: its keys, and the aggregates of its rows. -/
def groupRow (names : List String) (tuple : List V) (aggregates : List SqlExpr) (g : List (Row V)) : Row V :=
  names.zip (tuple ++ aggregates.map fun a => (F.meaning lifted).value a g)

/-- One row for each tuple of keys that there is, with the aggregates of the rows that have it. The groups stand in
    the order of their first rows; SQL leaves it open. -/
def groupedRows (names : List String) (keys aggregates : List SqlExpr) (rows : List (Row V)) : List (Row V) :=
  (distinctBy (F.keyTuple lifted keys) rows).map fun r =>
    F.groupRow lifted names (F.keyTuple lifted keys r) aggregates (sameKey (F.keyTuple lifted keys) rows r)

variable {lifted}

omit [DecidableEq V] in
/-- An expression without columns has one value. -/
theorem value_of_no_columns {e : SqlExpr} (h : e.columns = []) (g g' : List (Row V)) :
    (F.meaning lifted).value e g = (F.meaning lifted).value e g' := by
  have h : (e.unqualified lifted).columns = [] := by rw [SqlExpr.columns_unqualified, h]
  simp only [meaning]
  split
  · rename_i name he
    rw [he] at h
    cases h
  · rw [h]
    rfl

/-! ## Select lists over groups -/

variable {members : List Member} {keys aggregates : List SqlExpr}

theorem values_columnsOf (es : List SqlExpr) (g : List (Row V)) :
    (F.grouping lifted).values (columnsOf members es) g =
      (members.map (·.name)).zip (es.map fun e => (F.grouping lifted).value e g) := by
  show (columnsOf members es).map _ = _
  rw [columnsOf, List.map_zipWith, List.zip, List.zipWith_map]

theorem value_first {e : SqlExpr} (h : e.callsAggregate = false) (r : Row V) (g : List (Row V)) :
    (F.grouping lifted).value e (r :: g) = (F.meaning lifted).value e [r] := by
  show (F.meaning lifted).value e (if e.callsAggregate then _ else _) = _
  rw [h]
  rfl

theorem value_aggregate {e : SqlExpr} (h : e.callsAggregate = true) (g : List (Row V)) :
    (F.grouping lifted).value e g = (F.meaning lifted).value e g := by
  show (F.meaning lifted).value e (if e.callsAggregate then _ else _) = _
  rw [h]
  rfl

/-- The select list of a grouping over rows that have their keys in common. -/
theorem values_group (hkeys : ∀ k ∈ keys, k.callsAggregate = false)
    (haggregates : ∀ a ∈ aggregates, a.callsAggregate = true) {r : Row V} {g : List (Row V)} (hne : g ≠ [])
    (hsame : ∀ r' ∈ g, F.keyTuple lifted keys r' = F.keyTuple lifted keys r) :
    (F.grouping lifted).values (columnsOf members (keys ++ aggregates)) g =
      F.groupRow lifted (members.map (·.name)) (F.keyTuple lifted keys r) aggregates g := by
  obtain ⟨first, rest, rfl⟩ := List.exists_cons_of_ne_nil hne
  have htuple : keys.map (fun k => (F.grouping lifted).value k (first :: rest)) = F.keyTuple lifted keys r := by
    rw [← hsame first (.head _)]
    exact List.map_congr_left fun k hk => F.value_first (hkeys k hk) first rest
  have hvalues : aggregates.map (fun a => (F.grouping lifted).value a (first :: rest)) =
      aggregates.map fun a => (F.meaning lifted).value a (first :: rest) :=
    List.map_congr_left fun a ha => F.value_aggregate (haggregates a ha) _
  rw [values_columnsOf, List.map_append, htuple, hvalues, groupRow]

/-! ## Keys that are listed -/

/-- Each value of a constant key refers to no column. -/
abbrev ConstantKeys : List Expr → List SqlExpr → Prop :=
  List.Forall₂ fun key v => isConstant key = true → v.columns = []

theorem groupKeys_cons (key : Expr) (keys : List Expr) (v : SqlExpr) (values : List SqlExpr) :
    groupKeys (key :: keys) (v :: values) =
      if isConstant key then groupKeys keys values else v :: groupKeys keys values := by
  unfold groupKeys
  rw [List.zip_cons_cons, List.filter_cons]
  cases isConstant key <;> rfl

theorem groupKeys_eq_nil {keys : List Expr} {values : List SqlExpr} (h : keys.length = values.length) :
    groupKeys keys values = [] ↔ keys.all isConstant = true := by
  induction keys generalizing values with
  | nil => simp [groupKeys]
  | cons key keys ih =>
    obtain ⟨v, values, rfl⟩ := List.exists_cons_of_length_pos (l := values) (by simp [← h])
    rw [groupKeys_cons, List.all_cons]
    cases hkey : isConstant key with
    | true => simpa using ih (Nat.succ.inj h)
    | false => simp

omit [DecidableEq V] in
/-- Rows agree in all keys when they agree in those that are listed. -/
theorem keyTuple_groupKeys {exprs : List Expr} (h : ConstantKeys exprs keys) (r r' : Row V) :
    F.keyTuple lifted (groupKeys exprs keys) r = F.keyTuple lifted (groupKeys exprs keys) r' ↔
      F.keyTuple lifted keys r = F.keyTuple lifted keys r' := by
  induction h with
  | nil => exact .rfl
  | @cons key v exprs keys hkey _ ih =>
    rw [groupKeys_cons]
    simp only [keyTuple, List.map_cons, List.cons.injEq] at ih ⊢
    cases hconstant : isConstant key with
    | true =>
      rw [if_pos rfl, F.value_of_no_columns (hkey hconstant) [r] [r']]
      simpa using ih
    | false => simpa using fun _ => ih

omit [DecidableEq V] in
theorem keyTuple_constants {exprs : List Expr} (h : ConstantKeys exprs keys)
    (hall : exprs.all isConstant = true) (r r' : Row V) : F.keyTuple lifted keys r = F.keyTuple lifted keys r' := by
  rw [← keyTuple_groupKeys F h, (groupKeys_eq_nil h.length_eq).mpr hall]
  rfl

/-! ## Stages -/

/-- A stage that takes a grouping has no clause that is applied after it. -/
theorem select_ofCompatible {s : Stage} (h : Clause.groupBy.compatible s = true) (columns : List Column)
    (listed : List SqlExpr) (rows : List (Row V)) :
    (F.grouping lifted).select { s with projection := some columns, groupBy := some listed } rows =
      ((F.grouping lifted).groups listed columns ((F.grouping lifted).kept s rows)).map
        ((F.grouping lifted).values columns) := by
  simp only [Clause.compatible, Bool.and_eq_true, Option.isNone_iff_eq_none, Bool.not_eq_true'] at h
  obtain ⟨⟨⟨⟨-, hdistinct⟩, horder⟩, hskip⟩, hlimit⟩ := h
  simp only [Meaning.select, Meaning.window, Meaning.deduped, Meaning.outputs, Meaning.kept, hdistinct, horder,
    hskip, hlimit, Option.bind_none, Option.getD_none, List.drop_zero, takeTo, Meaning.ordered,
    Bool.false_eq_true, if_false, List.map_map]
  rfl

theorem exprs_columnsOf {es : List SqlExpr} (h : members.length = es.length) :
    (columnsOf members es).map (·.expr) = es := by
  induction members generalizing es with
  | nil => exact (List.length_eq_zero_iff.mp h.symm).symm
  | cons m members ih =>
    obtain ⟨e, es, rfl⟩ := List.exists_cons_of_length_pos (l := es) (by simp [← h])
    exact congrArg (e :: ·) (ih (Nat.succ.inj h))

/-- The select list of a grouping calls an aggregate if there is one. -/
theorem any_callsAggregate (hkeys : ∀ k ∈ keys, k.callsAggregate = false)
    (haggregates : ∀ a ∈ aggregates, a.callsAggregate = true)
    (hlength : members.length = (keys ++ aggregates).length) :
    (columnsOf members (keys ++ aggregates)).any (·.expr.callsAggregate) = !aggregates.isEmpty := by
  have hany : (columnsOf members (keys ++ aggregates)).any (·.expr.callsAggregate) =
      ((columnsOf members (keys ++ aggregates)).map (·.expr)).any (·.callsAggregate) := by
    rw [List.any_map]
    rfl
  have hnone : keys.any (·.callsAggregate) = false := by simpa using hkeys
  rw [hany, exprs_columnsOf hlength, List.any_append, hnone, Bool.false_or]
  cases aggregates with
  | nil => rfl
  | cons a aggregates => rw [List.any_cons, haggregates a (.head _)]; rfl

/-- The row of a grouping without keys that tell rows apart, over no rows. -/
theorem values_nil (hkeys : ∀ k ∈ keys, k.callsAggregate = false)
    (haggregates : ∀ a ∈ aggregates, a.callsAggregate = true) :
    (F.grouping lifted).values (columnsOf members (keys ++ aggregates)) [] =
      F.groupRow lifted (members.map (·.name)) (keys.map ((F.meaning lifted).value · [])) aggregates [] := by
  have htuple : keys.map (fun k => (F.grouping lifted).value k []) = keys.map ((F.meaning lifted).value · []) := by
    refine List.map_congr_left fun k hk => ?_
    show (F.meaning lifted).value k (if k.callsAggregate then _ else _) = _
    rw [hkeys k hk]
    rfl
  have hvalues : aggregates.map (fun a => (F.grouping lifted).value a []) =
      aggregates.map fun a => (F.meaning lifted).value a [] :=
    List.map_congr_left fun a ha => F.value_aggregate (haggregates a ha) _
  rw [values_columnsOf, List.map_append, htuple, hvalues, groupRow]

section

variable {exprs : List Expr} (hconstants : ConstantKeys exprs keys)
  (hkeys : ∀ k ∈ keys, k.callsAggregate = false) (haggregates : ∀ a ∈ aggregates, a.callsAggregate = true)

include hconstants hkeys haggregates

/-- Grouping by the keys that are listed gives one row for each tuple of all keys. -/
theorem map_groupsOf_listed (rows : List (Row V)) :
    ((distinctBy (F.keyTuple lifted (groupKeys exprs keys)) rows).map
        (sameKey (F.keyTuple lifted (groupKeys exprs keys)) rows)).map
      ((F.grouping lifted).values (columnsOf members (keys ++ aggregates))) =
      F.groupedRows lifted (members.map (·.name)) keys aggregates rows := by
  have hsame (r r' : Row V) : F.keyTuple lifted (groupKeys exprs keys) r = F.keyTuple lifted (groupKeys exprs keys) r' ↔
      F.keyTuple lifted keys r = F.keyTuple lifted keys r' := F.keyTuple_groupKeys hconstants r r'
  rw [groupedRows, distinctBy_congr fun a _ b _ => hsame a b, List.map_map]
  refine List.map_congr_left fun r hr => ?_
  have hgroup : sameKey (F.keyTuple lifted (groupKeys exprs keys)) rows r = sameKey (F.keyTuple lifted keys) rows r :=
    List.filter_congr fun r' _ => decide_eq_decide.mpr (hsame r' r)
  show (F.grouping lifted).values _ (sameKey _ rows r) = _
  rw [hgroup]
  refine F.values_group hkeys haggregates ?_ fun r' hr' => (mem_sameKey.mp hr').2
  exact List.ne_nil_of_mem (mem_sameKey.mpr ⟨mem_of_mem_distinctBy hr, rfl⟩)

/-- Where all keys are constants, the only group is all rows, as long as there are any. -/
theorem values_all (hall : exprs.all isConstant = true) (r : Row V) (rows : List (Row V)) :
    [(F.grouping lifted).values (columnsOf members (keys ++ aggregates)) (r :: rows)] =
      F.groupedRows lifted (members.map (·.name)) keys aggregates (r :: rows) := by
  have hsame (r r' : Row V) : F.keyTuple lifted keys r = F.keyTuple lifted keys r' :=
    F.keyTuple_constants hconstants hall r r'
  have hgroup : sameKey (F.keyTuple lifted keys) (r :: rows) r = r :: rows :=
    List.filter_eq_self.mpr fun r' _ => decide_eq_true (hsame r' r)
  rw [groupedRows, distinctBy_const fun r' _ => hsame r' r, List.map_singleton, hgroup]
  congr 1
  exact F.values_group hkeys haggregates (List.cons_ne_nil r rows) fun r' _ => hsame r' r

/-- What a stage with a grouping selects, if some key is listed or there is an aggregate. -/
theorem select_grouped {s : Stage} (hcompatible : Clause.groupBy.compatible s = true)
    (hlength : members.length = (keys ++ aggregates).length)
    (hsome : (∃ key ∈ exprs, isConstant key = false) ∨ aggregates ≠ []) (rows : List (Row V)) :
    (F.grouping lifted).select
        { s with
          projection := some (columnsOf members (keys ++ aggregates))
          groupBy := some (groupKeys exprs keys) } rows =
      if exprs.all isConstant = true ∧ (F.grouping lifted).kept s rows = [] then
        [F.groupRow lifted (members.map (·.name)) (keys.map ((F.meaning lifted).value · [])) aggregates []]
      else F.groupedRows lifted (members.map (·.name)) keys aggregates ((F.grouping lifted).kept s rows) := by
  rw [select_ofCompatible F hcompatible]
  show (groupsOf _ _ _ _).map _ = _
  rw [groupsOf, any_callsAggregate hkeys haggregates hlength]
  have hlisted := groupKeys_eq_nil hconstants.length_eq
  cases hall : exprs.all isConstant with
  | false =>
    have hne : groupKeys exprs keys ≠ [] := by
      rw [Ne, hlisted, hall]
      exact Bool.false_ne_true
    rw [if_pos (by simpa using hne), if_neg (by simp)]
    exact F.map_groupsOf_listed hconstants hkeys haggregates _
  | true =>
    have haggregated : aggregates ≠ [] := by
      refine hsome.resolve_left ?_
      rintro ⟨key, hkey, hconstant⟩
      rw [List.all_eq_true.mp hall key hkey] at hconstant
      cases hconstant
    rw [hlisted.mpr hall, if_neg (by simp), if_pos (by simpa using haggregated), List.map_singleton]
    cases (F.grouping lifted).kept s rows with
    | nil =>
      rw [if_pos ⟨rfl, rfl⟩]
      exact congrArg ([·]) (F.values_nil hkeys haggregates)
    | cons r rows =>
      rw [if_neg (by simp)]
      exact F.values_all hconstants hkeys haggregates hall r rows

end

end Functions

end Sql

/-! ## Groupings -/

namespace Compile

variable {c : Context} {s t : State} {n : Nat}

/-- The step gives this, in some context and from some state. -/
def Compiled {α : Type} (m : CompileM α) (a : α) : Prop := ∃ c s t, Gives m c s a t

theorem exists_of_mem_forall₂ {α β : Type} {R : α → β → Prop} {as : List α} {bs : List β}
    (h : List.Forall₂ R as bs) {b : β} (hb : b ∈ bs) : ∃ a ∈ as, R a b := by
  induction h with
  | nil => cases hb
  | cons hab _ ih =>
    rcases List.mem_cons.mp hb with rfl | hb
    · exact ⟨_, .head _, hab⟩
    · obtain ⟨a, ha, hab⟩ := ih hb
      exact ⟨a, .tail _ ha, hab⟩

theorem forall₂_valuesOf {f : Expr → CompileM SqlExpr} {es : List Expr} {values : List SqlExpr}
    (h : Gives (valuesOf f es) c s values t) : List.Forall₂ (fun e v => Compiled (f e) v) es values := by
  induction es generalizing s values with
  | nil =>
    obtain ⟨rfl, -⟩ := gives_pure.mp h
    exact .nil
  | cons e es ih =>
    obtain ⟨a, u, ha, h⟩ := gives_bind.mp h
    obtain ⟨as, v, has, h⟩ := gives_bind.mp h
    obtain ⟨rfl, rfl⟩ := gives_pure.mp h
    exact .cons ⟨_, _, _, ha⟩ (ih has)

theorem forall₂_aggregateValues {p : Parts} {aggregates : List Aggregate} {values : List SqlExpr}
    (h : Gives (aggregateValues p aggregates) c s values t) :
    List.Forall₂ (fun a v => Compiled (aggregateValue p.value a) v) aggregates values := by
  induction aggregates generalizing s values with
  | nil =>
    obtain ⟨rfl, -⟩ := gives_pure.mp h
    exact .nil
  | cons a aggregates ih =>
    obtain ⟨v, u, hv, h⟩ := gives_bind.mp h
    obtain ⟨vs, w, hvs, h⟩ := gives_bind.mp h
    obtain ⟨rfl, rfl⟩ := gives_pure.mp h
    exact .cons ⟨_, _, _, hv⟩ (ih hvs)

theorem no_columns_constantValue {v : Value} {e : SqlExpr} (h : Gives (constantValue v) c s e t) :
    e.columns = [] ∧ e.callsAggregate = false := by
  unfold constantValue at h
  rw [gives_read_bind] at h
  split at h
  · obtain ⟨name, u, -, h⟩ := gives_bind.mp h
    obtain ⟨rfl, -⟩ := gives_pure.mp h
    exact ⟨rfl, rfl⟩
  · obtain ⟨rfl, -⟩ := gives_pure.mp h
    exact ⟨rfl, rfl⟩

/-- An aggregate is a call of one. -/
theorem callsAggregate_aggregateValue {f : Expr → CompileM SqlExpr} {a : Aggregate} {e : SqlExpr}
    (h : Gives (aggregateValue f a) c s e t) : e.callsAggregate = true := by
  have hcall {name : String} (hname : name ∈ aggregateFunctions) (args : List SqlExpr) :
      (SqlExpr.call name args).callsAggregate = true := by
    rw [SqlExpr.callsAggregate, List.contains_iff_mem.mpr hname, Bool.true_or]
  unfold aggregateValue at h
  split at h
  · have hstring : "string_agg" ∈ aggregateFunctions := by decide
    unfold stringAggValue at h
    split at h
    · obtain ⟨x, u, -, h⟩ := gives_bind.mp h
      obtain ⟨rfl, -⟩ := gives_pure.mp h
      exact hcall hstring _
    · obtain ⟨x, u, -, h⟩ := gives_bind.mp h
      obtain ⟨y, v, -, h⟩ := gives_bind.mp h
      obtain ⟨rfl, -⟩ := gives_pure.mp h
      exact hcall hstring _
    · exact (not_gives_fail h).elim
  · split at h
    · exact (not_gives_fail h).elim
    · rename_i name hname
      split at h
      · obtain ⟨x, u, -, h⟩ := gives_bind.mp h
        obtain ⟨type, v, -, h⟩ := gives_bind.mp h
        obtain ⟨rfl, -⟩ := gives_pure.mp h
        rw [SqlExpr.callsAggregate]
        refine hcall (List.mem_append_left _ ?_) _
        split at hname
        · obtain ⟨l, r, heq, -⟩ := List.lookup_eq_some_iff.mp hname
          exact List.mem_map.mpr ⟨(_, name), heq ▸ List.mem_append_right _ (.head _), rfl⟩
        · cases hname
      · exact (not_gives_fail h).elim

/-- No key is compiled to a call of an aggregate. -/
def PlainKeys (n : Nat) (keys : List Expr) : Prop :=
  ∀ key ∈ keys, ∀ v, Compiled ((partsTo n).value key) v → v.callsAggregate = false

theorem callsAggregate_propertyValue {base : Expr} {name : String} {e : SqlExpr}
    (h : Gives (propertyValue base name) c s e t) : e.callsAggregate = false := by
  unfold propertyValue at h
  rw [gives_read_bind] at h
  split at h
  · obtain ⟨owner, id, node, u, path, -, -, -, -, rfl⟩ := boundColumn_inv h
    rfl
  · split at h
    · split at h
      · obtain ⟨rfl, -⟩ := gives_pure.mp h
        rfl
      · exact (not_gives_fail h).elim
    · exact (not_gives_fail h).elim

/-- Columns and constants are not calls of aggregates. -/
theorem plainKeys_of_columns (n : Nat) {keys : List Expr}
    (h : ∀ key ∈ keys, isConstant key = true ∨ ∃ base name type, key = .property base name type) :
    PlainKeys n keys := by
  rintro key hkey v ⟨c, s, t, hrun⟩
  cases n with
  | zero => exact (not_gives_fail hrun).elim
  | succ n =>
    rcases h key hkey with hconstant | ⟨base, name, type, rfl⟩
    · cases key with
      | constant value => exact (no_columns_constantValue hrun).2
      | _ => cases hconstant
    · exact callsAggregate_propertyValue hrun

theorem columns_of_isConstant {key : Expr} {v : SqlExpr} (h : Compiled ((partsTo n).value key) v)
    (hconstant : isConstant key = true) : v.columns = [] := by
  obtain ⟨c, s, t, hrun⟩ := h
  cases n with
  | zero => exact (not_gives_fail hrun).elim
  | succ n =>
    cases key with
    | constant value => exact (no_columns_constantValue hrun).1
    | _ => cases hconstant

/-- A grouping gives one row for each tuple of its keys that occurs, with the keys and aggregates of the rows
    that have it, if some key is not a constant or there is an aggregate. Just where all keys are constants, it
    gives one row over no rows too. Its input are the rows that pass the WHERE clause of the stage that took
    the grouping. -/
theorem select_groupRows {input : GroupBinding} {keys : List Expr} {aggregates : List Aggregate} {type : DataType}
    {var : String} {node : NodeId} (h : Gives (groupRows (partsTo n) input keys aggregates type var) c s node t)
    (hkeys : PlainKeys n keys) (hsome : (∃ key ∈ keys, isConstant key = false) ∨ aggregates ≠ []) :
    ∃ members keyValues values, type.members? = some members ∧
      List.Forall₂ (fun key v => Compiled ((partsTo n).value key) v) keys keyValues ∧
      List.Forall₂ (fun a v => Compiled (aggregateValue (partsTo n).value a) v) aggregates values ∧
      ∀ {V : Type} [DecidableEq V] (F : Functions V) (lifted : List Value) (rows : List (Row V)),
        let stage := t.stages.get (nodeAt t.nodes node).last.stage
        (F.grouping lifted).select stage rows =
          if keys.all isConstant = true ∧ (F.grouping lifted).kept stage rows = [] then
            [F.groupRow lifted (members.map (·.name)) (keyValues.map ((F.meaning lifted).value · [])) values []]
          else
            F.groupedRows lifted (members.map (·.name)) keyValues values ((F.grouping lifted).kept stage rows) := by
  obtain ⟨members, keyValues, values, hmembers, hlength, ⟨_, _, _, hkeyValues⟩, ⟨_, _, _, hvalues⟩, stage,
    hcompatible, hstage⟩ := gives_groupRows h
  have hkeysRun := forall₂_valuesOf hkeyValues
  have hvaluesRun := forall₂_aggregateValues hvalues
  have hplain : ∀ v ∈ keyValues, v.callsAggregate = false := by
    intro v hv
    obtain ⟨key, hkey, hrun⟩ := exists_of_mem_forall₂ hkeysRun hv
    exact hkeys key hkey v hrun
  have haggregates : ∀ v ∈ values, v.callsAggregate = true := by
    intro v hv
    obtain ⟨a, -, c, s, t, hrun⟩ := exists_of_mem_forall₂ hvaluesRun hv
    exact callsAggregate_aggregateValue hrun
  have hconstants : Functions.ConstantKeys keys keyValues := hkeysRun.imp fun _ _ => columns_of_isConstant
  have hmembersLength : members.length = (keyValues ++ values).length := by
    rw [List.length_append, ← hkeysRun.length_eq, ← hvaluesRun.length_eq, hlength]
  have hsome : (∃ key ∈ keys, isConstant key = false) ∨ values ≠ [] := by
    refine hsome.imp_right fun hne hnil => ?_
    subst hnil
    exact hne (List.forall₂_nil_right_iff.mp hvaluesRun)
  refine ⟨members, keyValues, values, hmembers, hkeysRun, hvaluesRun, fun F lifted rows => ?_⟩
  rw [hstage]
  exact F.select_grouped hconstants hplain haggregates hcompatible hmembersLength hsome rows

namespace Films

/-- Constants, and the number of rows. -/
def counting : Functions Int :=
  { Functions.integers with
    apply := fun e columns =>
      match e with
      | .constant v => v.int?.getD 0
      | _ => (columns.headD []).length }

def keyed : DataType := .ofMembers [⟨"Kind", integer⟩, ⟨"Rating", integer⟩, ⟨"N", integer⟩]

/-- Films counted by the given keys, which are the first members of the rows. -/
def countedBy (keys : List Expr) (type : DataType) : CompileM NodeId :=
  groupRows (partsTo 5) ⟨.scan films, "f", "g"⟩ keys
    [.ofArg "Count" (.property (.varRef "g" integer) "Id" integer) integer] (.ofElement type) "q"

def kindKey : Expr := .constant (.int32 7)

def ratingKey : Expr := .property (.varRef "f" integer) "Rating" integer

theorem select_ratings :
    ∃ node t, Gives (countedBy [kindKey, ratingKey] keyed) { mode := .query, liftConstants := true } {} node t ∧
      let stage := t.stages.get (nodeAt t.nodes node).last.stage
      (∃ keyValues values, ∀ rows, (counting.grouping t.lifted).select stage rows =
        counting.groupedRows t.lifted ["Kind", "Rating", "N"] keyValues values
          ((counting.grouping t.lifted).kept stage rows)) ∧
      (counting.grouping t.lifted).select stage [[("Rating", 4)], [("Rating", 5)], [("Rating", 4)]] =
        [[("Kind", 7), ("Rating", 4), ("N", 2)], [("Kind", 7), ("Rating", 5), ("N", 1)]] := by
  obtain ⟨⟨node, t⟩, hrun, hrows⟩ : ∃ r : NodeId × State,
      (countedBy [kindKey, ratingKey] keyed).run { mode := .query, liftConstants := true } {} = .ok r ∧
        (counting.grouping r.2.lifted).select (r.2.stages.get (nodeAt r.2.nodes r.1).last.stage)
          [[("Rating", 4)], [("Rating", 5)], [("Rating", 4)]] =
          [[("Kind", 7), ("Rating", 4), ("N", 2)], [("Kind", 7), ("Rating", 5), ("N", 1)]] :=
    exists_ok (by decide +kernel)
  have hplain : PlainKeys 5 [kindKey, ratingKey] :=
    plainKeys_of_columns 5 (by simp [kindKey, ratingKey, isConstant])
  obtain ⟨members, keyValues, values, hmembers, -, -, hselect⟩ :=
    select_groupRows hrun hplain (.inl ⟨ratingKey, .tail _ (.head _), rfl⟩)
  cases hmembers
  exact ⟨node, t, hrun, ⟨keyValues, values, fun rows => hselect counting t.lifted rows⟩, hrows⟩

/-- Counted under a constant key, no films are one group, though none of them has the key. -/
theorem one_row_of_none :
    ∃ node t, Gives (countedBy [kindKey] (.ofMembers [⟨"Kind", integer⟩, ⟨"N", integer⟩]))
        { mode := .query, liftConstants := true } {} node t ∧
      (counting.grouping t.lifted).select (t.stages.get (nodeAt t.nodes node).last.stage) [] =
        [[("Kind", 7), ("N", 0)]] ∧
      ∀ names keyValues values, counting.groupedRows t.lifted names keyValues values [] = [] := by
  obtain ⟨⟨node, t⟩, hrun, hselect⟩ : ∃ r : NodeId × State,
      (countedBy [kindKey] (.ofMembers [⟨"Kind", integer⟩, ⟨"N", integer⟩])).run
        { mode := .query, liftConstants := true } {} = .ok r ∧
        (counting.grouping r.2.lifted).select (r.2.stages.get (nodeAt r.2.nodes r.1).last.stage) [] =
          [[("Kind", 7), ("N", 0)]] := exists_ok (by decide +kernel)
  exact ⟨node, t, hrun, hselect, fun _ _ _ => rfl⟩

/-- Under a constant key and not counted, all films are one group, but each of them gives a row. -/
theorem one_row_each :
    ∃ node t, Gives
        (groupRows (partsTo 5) ⟨.scan films, "f", "g"⟩ [kindKey] [] (.ofElement (.ofMembers [⟨"Kind", integer⟩])) "q")
        { mode := .query, liftConstants := true } {} node t ∧
      (counting.grouping t.lifted).select (t.stages.get (nodeAt t.nodes node).last.stage)
        [[("Rating", 4)], [("Rating", 5)]] = [[("Kind", 7)], [("Kind", 7)]] ∧
      ∃ key, Compiled ((partsTo 5).value kindKey) key ∧
        counting.groupedRows t.lifted ["Kind"] [key] [] [[("Rating", 4)], [("Rating", 5)]] = [[("Kind", 7)]] := by
  obtain ⟨⟨node, t⟩, hrun, hselect, hgrouped⟩ : ∃ r : NodeId × State,
      (groupRows (partsTo 5) ⟨.scan films, "f", "g"⟩ [kindKey] [] (.ofElement (.ofMembers [⟨"Kind", integer⟩])) "q").run
        { mode := .query, liftConstants := true } {} = .ok r ∧
        (counting.grouping r.2.lifted).select (r.2.stages.get (nodeAt r.2.nodes r.1).last.stage)
          [[("Rating", 4)], [("Rating", 5)]] = [[("Kind", 7)], [("Kind", 7)]] ∧
        counting.groupedRows r.2.lifted ["Kind"] [.verbatim (placeholder (liftedName 0))] []
          [[("Rating", 4)], [("Rating", 5)]] = [[("Kind", 7)]] := exists_ok (by decide +kernel)
  exact ⟨node, t, hrun, hselect, _, ⟨{ mode := .query, liftConstants := true }, {}, _, rfl⟩, hgrouped⟩

end Films

end Compile

end TreeSql
