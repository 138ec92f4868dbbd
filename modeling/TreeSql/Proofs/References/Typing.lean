import Mathlib.Data.List.Perm.Subperm
import TreeSql.Compile.Relation
import TreeSql.Proofs.Expr.Reads
import TreeSql.Proofs.References.Closed

/-
  TreeSql.Proofs.References.Typing — which columns the rows of a query have, and who may refer to them.

  A `Face` says of a relational expression, without compiling it, what its node will be like: which
  clauses the open stage takes, and which columns can be looked up from outside. A column is looked up
  in the innermost stage of a node, so that the columns of a grouping can be looked up only if all
  stages inside it without a select list have columns of these names.

  `resolves` checks that every property is taken of a variable in scope that has the column.
-/
namespace TreeSql

open Sql Compile

/-- The names of the members of a row type. -/
def DataType.memberNames (t : DataType) : List String := (t.members?.getD []).map (·.name)

/-! ## Faces -/

/-- The names of columns: some, or any name at all. -/
abbrev Columns := Option (List String)

namespace Columns

def has (columns : Columns) (name : String) : Bool := columns.all (·.contains name)

/-- The given columns, if columns are asked for. -/
def of (schema : Option Schema) (names : List String) : Columns := schema.map fun _ => names

/-- The columns that are in the bounds too. -/
def within (columns bounds : Columns) : Columns :=
  match columns with
  | none => bounds
  | some names => some (names.filter bounds.has)

theorem has_of {schema : Option Schema} {names : List String} {name : String} :
    (of schema names).has name = true ↔ (schema.isSome → name ∈ names) := by
  cases schema <;> simp [of, has]

theorem has_within {columns bounds : Columns} {name : String} :
    (columns.within bounds).has name = true ↔ columns.has name = true ∧ bounds.has name = true := by
  cases columns <;> simp [within, has]

end Columns

/-- The variables in scope, with the columns that their rows have. -/
abbrev Scope := List (String × Columns)

/-- What the node of a relational expression is like from outside. -/
structure Face where
  /-- The clauses of the open stage. -/
  clauses : Stage := {}
  /-- The columns that can be looked up. -/
  columns : Columns := some []
  /-- There are stages of the node inside the open one. -/
  wrapped : Bool := false
  /-- What can be pulled through these. -/
  below : Columns := none
  /-- The select list of the innermost stage. -/
  inner : List String := []
  /-- The variables bound inside that can still be referred to. -/
  sides : Scope := []
  /-- The members of the rows. -/
  members : List String := []
  /-- The open stage exposes all members. -/
  listed : Bool := false
  /-- The open stage selects from a stage that does not. -/
  loose : Bool := false

namespace Face

/-- What can be pulled through all stages. A stage with a select list is not changed by that. -/
def passing (f : Face) : Columns := if f.clauses.projection.isSome then f.below else f.columns

def wrap (f : Face) : Face :=
  { f with clauses := {}, wrapped := true, below := f.passing, listed := false, loose := !f.listed }

/-- The face that takes a clause: wrapped, if the open stage cannot take it. -/
def openFor (clause : Clause) (f : Face) : Face := if clause.compatible f.clauses then f else f.wrap

/-- A clause on the open stage. -/
def attach (f : Face) (clause : Stage → Stage) : Face := { f with clauses := clause f.clauses }

/-- The face with a variable for its rows. -/
def bind (var : String) (f : Face) : Face := { f with sides := (var, f.columns) :: f.sides }

/-- The variables that an input of a join brings into scope. A tree of joins has one node. -/
def sideScope (f : Face) (tree : Bool) (var : String) : Scope := if tree then f.sides else (f.bind var).sides

/-- A source with the given columns. -/
def ofSource (schema : Option Schema) (names : List String) : Face :=
  { columns := .of schema names, members := names }

def filter (f : Face) : Face := f.openFor .filter

def sort (f : Face) : Face := (f.openFor .sort).attach fun s => { s with orderBy := some [] }

def skip (f : Face) : Face :=
  (f.openFor .skip).attach fun s => { s with orderBy := some [], skip := some (.list []) }

def limit (f : Face) : Face := f.attach fun s => { s with limit := some (.list []) }

def distinct (f : Face) : Face :=
  if Clause.distinct.compatible f.clauses then f.attach fun s => { s with distinct := true }
  else { f.wrap with clauses := { distinct := true }, listed := f.listed }

/-- A select list makes a new innermost stage. -/
def project (schema : Option Schema) (names : List String) (f : Face) : Face where
  clauses := { (f.openFor .project).clauses with projection := some [] }
  columns := .of schema names
  inner := names
  members := names
  listed := true

/-- The select list of a grouping is innermost only if no stage is inside. -/
def groupBy (schema : Option Schema) (names : List String) (f : Face) : Face :=
  let f := f.openFor .groupBy
  { f with
    clauses := { f.clauses with projection := some [], groupBy := some [] }
    columns := (Columns.of schema names).within f.below
    inner := if f.wrapped then f.inner else names
    sides := []
    members := names
    listed := true }

end Face

namespace Expr

/-- The select list of a row constructor. -/
def rowNames : Expr → List String
  | newInstance t _ => t.memberNames
  | _ => []

section

variable (schema : Option Schema)

mutual

def face : Expr → Face
  | scan set => .ofSource schema (set.columns.map (·.name))
  | filter ⟨e, v⟩ _ => (e.face.bind v).filter
  | project ⟨e, v⟩ row => (e.face.bind v).project schema row.rowNames
  | sort ⟨e, v⟩ _ => (e.face.bind v).sort
  | skip ⟨e, v⟩ _ _ => (e.face.bind v).skip
  | limit e _ => e.face.limit
  | distinct e => e.face.distinct
  | groupBy ⟨e, v, _⟩ _ _ t => (e.face.bind v).groupBy schema t.memberNames
  | join kind ⟨l, lv⟩ ⟨r, rv⟩ _ =>
    { sides := l.face.sideScope l.isJoin lv ++ r.face.sideScope (r.isJoin && !kind.isApply) rv }
  | setOp _ l _ => .ofSource schema l.face.members
  | newInstance t args =>
    match elementFace? args with
    | some f => f.limit
    | none => { columns := none, members := t.memberNames }
  | call _ _ t => { columns := none, members := t.memberNames }
  | _ => {}
termination_by structural e => e

def elementFace? : List Expr → Option Face
  | [element e] => some e.face
  | _ => none
termination_by structural es => es

end

theorem elementFace?_eq_none {args : List Expr} (h : ∀ e, args ≠ [element e]) : elementFace? schema args = none := by
  unfold elementFace?
  split
  · exact (h _ rfl).elim
  · rfl

end

/-! ## Well-scoped expressions -/

section

variable (schema : Option Schema)

/-- Whether the first column of a limited relation can be pulled through all stages. -/
def carried : Expr → Bool
  | limit e _ => (e.face schema).inner.head?.all (e.face schema).passing.has
  | _ => true

/-- Whether the open stage of an operand of a set operation can expose all columns. -/
def combinable (e : Expr) : Bool :=
  schema.isNone || (e.resultType.memberNames == (e.face schema).members &&
    ((e.face schema).listed || !(e.face schema).loose))

/-- The property is a column of a variable in scope. -/
def inScope (scope : Scope) (base : Expr) (name : String) : Bool :=
  match propertyOwner base with
  | .ok owner => scope.any fun x => x.1 == owner && x.2.has name
  | .error _ => false

theorem exists_of_inScope {scope : Scope} {base : Expr} {name owner : String} (h : inScope scope base name = true)
    (howner : propertyOwner base = .ok owner) : ∃ columns, (owner, columns) ∈ scope ∧ columns.has name = true := by
  rw [inScope, howner] at h
  simpa [and_left_comm] using h

mutual

/-- Whether properties are taken of variables in scope that have the column, and scans declare columns
    that the tables have. -/
def resolves (scope : Scope) : Expr → Bool
  | scan set => schema.all fun columns => set.columns.all fun m => (columns (tableSql set)).contains m.name
  | property base name _ => inScope scope base name
  | filter ⟨e, v⟩ p => resolves scope e && (resolves (((e.face schema).bind v).sides ++ scope) p && p.carried schema)
  | project ⟨e, v⟩ row => resolves scope e && resolves (((e.face schema).bind v).sides ++ scope) row
  | sort ⟨e, v⟩ ks => resolves scope e && resolvesKeys (((e.face schema).bind v).sides ++ scope) ks
  | skip ⟨e, v⟩ ks n =>
    resolves scope e && resolvesKeys (((e.face schema).bind v).sides ++ scope) ks &&
      (resolves scope n && n.carried schema)
  | limit e n => resolves scope e && (resolves scope n && n.carried schema)
  | groupBy ⟨e, v, g⟩ ks aggs _ =>
    let inner := (((e.face schema).bind v).bind g).sides ++ scope
    resolves scope e && resolvesAll inner ks && resolvesAggregates inner aggs
  | join kind ⟨l, lv⟩ ⟨r, rv⟩ c =>
    let left := (l.face schema).sideScope l.isJoin lv
    let right := (r.face schema).sideScope (r.isJoin && !kind.isApply) rv
    resolves scope l && resolves (if kind.isApply then left ++ scope else scope) r &&
      resolvesOption (left ++ right ++ scope) c
  | setOp kind l r => resolves scope l && resolves scope r && (setOpOperands kind l r).all (combinable schema)
  | distinct e => resolves scope e
  | comparison _ l r | and l r | or l r | like l r =>
    (resolves scope l && l.carried schema) && (resolves scope r && r.carried schema)
  | newInstance _ es | call _ es _ | arithmetic _ es => resolvesAll scope es
  | element e | not e | isNull e | isEmpty e | cast e _ => resolves scope e && e.carried schema
  | isIn e es => (resolves scope e && e.carried schema) && resolvesAll scope es
  | caseOf ws ts o => resolvesAll scope ws && resolvesAll scope ts && (resolves scope o && o.carried schema)
  | constant _ | null _ | paramRef .. | varRef .. => true
termination_by structural e => e

def resolvesAll (scope : Scope) : List Expr → Bool
  | [] => true
  | e :: es => (resolves scope e && e.carried schema) && resolvesAll scope es
termination_by structural es => es

def resolvesKeys (scope : Scope) : List (SortKeyOf Expr) → Bool
  | [] => true
  | ⟨e, _⟩ :: ks => (resolves scope e && e.carried schema) && resolvesKeys scope ks
termination_by structural ks => ks

def resolvesAggregates (scope : Scope) : List (AggregateOf Expr) → Bool
  | [] => true
  | ⟨_, args, _, _⟩ :: aggs => resolvesAll scope args && resolvesAggregates scope aggs
termination_by structural aggs => aggs

def resolvesOption (scope : Scope) : Option Expr → Bool
  | none => true
  | some e => resolves scope e && e.carried schema
termination_by structural e => e

end

end

/-! ## Binders -/

mutual

/-- The variables that are bound in an expression. -/
def binders : Expr → List String
  | scan _ | constant _ | null _ | paramRef .. | varRef .. => []
  | filter ⟨e, v⟩ p => v :: (e.binders ++ p.binders)
  | project ⟨e, v⟩ p => v :: (e.binders ++ p.binders)
  | sort ⟨e, v⟩ ks => v :: (e.binders ++ bindersOfKeys ks)
  | skip ⟨e, v⟩ ks n => v :: (e.binders ++ bindersOfKeys ks ++ n.binders)
  | limit e n => e.binders ++ n.binders
  | groupBy ⟨e, v, g⟩ ks aggs _ => v :: g :: (e.binders ++ bindersOfAll ks ++ bindersOfAggregates aggs)
  | join _ ⟨l, lv⟩ ⟨r, rv⟩ c => lv :: rv :: (l.binders ++ r.binders ++ bindersOfOption c)
  | setOp _ l r | comparison _ l r | and l r | or l r | like l r => l.binders ++ r.binders
  | newInstance _ es | call _ es _ | arithmetic _ es => bindersOfAll es
  | distinct e | element e | not e | isNull e | isEmpty e | cast e _ => e.binders
  | property .. => []
  | isIn e es => e.binders ++ bindersOfAll es
  | caseOf ws ts o => bindersOfAll ws ++ bindersOfAll ts ++ o.binders
termination_by structural e => e

def bindersOfAll : List Expr → List String
  | [] => []
  | e :: es => e.binders ++ bindersOfAll es
termination_by structural es => es

def bindersOfKeys : List (SortKeyOf Expr) → List String
  | [] => []
  | ⟨e, _⟩ :: ks => e.binders ++ bindersOfKeys ks
termination_by structural ks => ks

def bindersOfAggregates : List (AggregateOf Expr) → List String
  | [] => []
  | ⟨_, args, _, _⟩ :: aggs => bindersOfAll args ++ bindersOfAggregates aggs
termination_by structural aggs => aggs

def bindersOfOption : Option Expr → List String
  | none => []
  | some e => e.binders
termination_by structural e => e

end

/-- The binders of the input, and then those of all the rest. -/
theorem binders_skip {e count : Expr} {v : String} {keys : List SortKey} :
    (skip ⟨e, v⟩ keys count).binders = v :: (e.binders ++ (bindersOfKeys keys ++ count.binders)) :=
  congrArg (v :: ·) (List.append_assoc ..)

theorem binders_groupBy {e : Expr} {v g : String} {keys : List Expr} {aggregates : List Aggregate} {type : DataType} :
    (groupBy ⟨e, v, g⟩ keys aggregates type).binders =
      v :: g :: (e.binders ++ (bindersOfAll keys ++ bindersOfAggregates aggregates)) :=
  congrArg (v :: g :: ·) (List.append_assoc ..)

/-! ## Values -/

/-- The expression resolves in place of a value. -/
def Valued (schema : Option Schema) (scope : Scope) (e : Expr) : Prop :=
  e.resolves schema scope = true ∧ e.carried schema = true

variable {schema : Option Schema} {scope : Scope}

theorem resolvesAll_iff {es : List Expr} :
    resolvesAll schema scope es = true ↔ ∀ e ∈ es, Valued schema scope e := by
  induction es with
  | nil => simp [resolvesAll]
  | cons e es ih => simp [resolvesAll, ih, Valued]

theorem resolves_caseOf {ws ts : List Expr} {o : Expr} :
    (caseOf ws ts o).resolves schema scope = true ↔
      (∀ e ∈ ws, Valued schema scope e) ∧ (∀ e ∈ ts, Valued schema scope e) ∧ Valued schema scope o := by
  rw [resolves, Bool.and_eq_true, Bool.and_eq_true, resolvesAll_iff, resolvesAll_iff, and_assoc]
  simp [Valued]

/-! ## Reduced CASE expressions -/

theorem valued_coalesceArgs {e : Expr} (h : Valued schema scope e) :
    ∀ a ∈ coalesceArgs e, Valued schema scope a := by
  cases e with
  | call f args t =>
    by_cases hf : isCoalesce f = true
    · rw [coalesceArgs, if_pos hf]
      exact resolvesAll_iff.mp h.1
    · rw [coalesceArgs, if_neg hf]
      simpa using h
  | _ => simpa [coalesceArgs] using h

theorem valued_coalesce {a b : Expr} (ha : Valued schema scope a) (hb : Valued schema scope b) :
    Valued schema scope (coalesce a b) := by
  refine ⟨resolvesAll_iff.mpr fun e he => ?_, rfl⟩
  rcases List.mem_append.mp he with he | he
  · exact valued_coalesceArgs ha e he
  · exact valued_coalesceArgs hb e he

theorem valued_collapse {ws ts : List Expr} {o : Expr} (hw : ∀ e ∈ ws, Valued schema scope e)
    (ht : ∀ e ∈ ts, Valued schema scope e) (ho : Valued schema scope o) :
    Valued schema scope (collapse ws ts o) := by
  have hcase {ws ts : List Expr} {o : Expr} (hw : ∀ e ∈ ws, Valued schema scope e)
      (ht : ∀ e ∈ ts, Valued schema scope e) (ho : Valued schema scope o) :
      Valued schema scope (caseOf ws.reverse ts.reverse o) :=
    ⟨resolves_caseOf.mpr ⟨fun e he => hw e (List.mem_reverse.mp he),
      fun e he => ht e (List.mem_reverse.mp he), ho⟩, rfl⟩
  have harg {arg : Expr} (h : Valued schema scope (isNull arg)) : Valued schema scope arg := by
    simpa [Valued, resolves] using h.1
  fun_induction collapse ws ts o with
  | case1 arg ws t ts o h hnil => exact valued_coalesce (harg (hw _ (.head _))) (ht t (.head _))
  | case2 arg ws t ts o h hnil ih =>
    refine ih (fun e he => hw e (.tail _ he)) (fun e he => ht e (.tail _ he)) ?_
    exact valued_coalesce (harg (hw _ (.head _))) (ht t (.head _))
  | case3 arg ws t ts o h => exact hcase hw ht ho
  | case4 ws ts o h => exact hcase hw ht ho

mutual

theorem valued_reduce : ∀ {e : Expr}, Valued schema scope e → Valued schema scope (reduce e)
  | caseOf ws ts o, h => by
    obtain ⟨hw, ht, ho⟩ := resolves_caseOf.mp h.1
    refine valued_collapse (fun e he => ?_) (fun e he => ?_) (valued_reduce ho)
    · exact valued_reduceAll hw e (List.mem_reverse.mp he)
    · exact valued_reduceAll ht e (List.mem_reverse.mp he)
  | isNull e, h => by
    have he : Valued schema scope e := by simpa [Valued, resolves] using h.1
    have hreduce := valued_reduce he
    exact ⟨by simpa [Valued, reduce, resolves] using hreduce, rfl⟩
  | scan _, h | filter .., h | project .., h | sort .., h | skip .., h | limit .., h
  | distinct _, h | groupBy .., h | join .., h | setOp .., h | newInstance .., h | element _, h
  | call .., h | comparison .., h | arithmetic .., h | and .., h | or .., h | not _, h
  | isEmpty _, h | like .., h | isIn .., h | cast .., h | constant _, h | null _, h
  | paramRef .., h | varRef .., h | property .., h => h

theorem valued_reduceAll : ∀ {es : List Expr}, (∀ e ∈ es, Valued schema scope e) →
    ∀ e ∈ reduceAll es, Valued schema scope e
  | [], _ => fun _ he => by cases he
  | e :: es, h => fun x hx => by
    rcases List.mem_cons.mp hx with rfl | hx
    · exact valued_reduce (h e (.head _))
    · exact valued_reduceAll (fun e he => h e (.tail _ he)) x hx

end

theorem bindersOfAll_eq_flatMap (es : List Expr) : bindersOfAll es = es.flatMap binders := by
  induction es with
  | nil => rfl
  | cons e es ih => rw [bindersOfAll, ih, List.flatMap_cons]

theorem bindersOfAll_reverse (es : List Expr) : (bindersOfAll es.reverse).Perm (bindersOfAll es) := by
  rw [bindersOfAll_eq_flatMap, bindersOfAll_eq_flatMap]
  exact (List.reverse_perm es).flatMap_right _

theorem binders_coalesceArgs (e : Expr) : bindersOfAll (coalesceArgs e) = e.binders := by
  cases e with
  | call f args t =>
    by_cases hf : isCoalesce f = true
    · rw [coalesceArgs, if_pos hf]
      rfl
    · rw [coalesceArgs, if_neg hf, bindersOfAll, bindersOfAll, List.append_nil]
  | _ => simp [coalesceArgs, bindersOfAll]

theorem binders_coalesce (a b : Expr) : (coalesce a b).binders = a.binders ++ b.binders := by
  rw [coalesce, binders, bindersOfAll_eq_flatMap, List.flatMap_append, ← bindersOfAll_eq_flatMap,
    ← bindersOfAll_eq_flatMap, binders_coalesceArgs, binders_coalesceArgs]

theorem count_collapse (x : String) (ws ts : List Expr) (o : Expr) : (collapse ws ts o).binders.count x ≤
    (bindersOfAll ws).count x + (bindersOfAll ts).count x + o.binders.count x := by
  have hcase (ws ts : List Expr) (o : Expr) : (caseOf ws.reverse ts.reverse o).binders.count x =
      (bindersOfAll ws).count x + (bindersOfAll ts).count x + o.binders.count x := by
    rw [binders, List.count_append, List.count_append, (bindersOfAll_reverse ws).count_eq,
      (bindersOfAll_reverse ts).count_eq]
  fun_induction collapse ws ts o with
  | case1 arg ws t ts o h hnil =>
    simp only [binders_coalesce, bindersOfAll, binders, List.count_append]
    omega
  | case2 arg ws t ts o h hnil ih =>
    simp only [binders_coalesce, bindersOfAll, binders, List.count_append] at ih ⊢
    omega
  | case3 arg ws t ts o h => exact Nat.le_of_eq (hcase _ _ _)
  | case4 ws ts o h => exact Nat.le_of_eq (hcase _ _ _)

mutual

theorem count_reduce (x : String) : ∀ e : Expr, (reduce e).binders.count x ≤ e.binders.count x
  | caseOf ws ts o => by
    have hw := count_reduceAll x ws
    have ht := count_reduceAll x ts
    have ho := count_reduce x o
    have hc := count_collapse x (reduceAll ws).reverse (reduceAll ts).reverse (reduce o)
    rw [(bindersOfAll_reverse _).count_eq, (bindersOfAll_reverse _).count_eq] at hc
    rw [reduce, binders, List.count_append, List.count_append]
    omega
  | isNull e => count_reduce x e
  | scan _ | filter .. | project .. | sort .. | skip .. | limit .. | distinct _ | groupBy ..
  | join .. | setOp .. | newInstance .. | element _ | call .. | comparison .. | arithmetic ..
  | and .. | or .. | not _ | isEmpty _ | like .. | isIn .. | cast .. | constant _ | null _
  | paramRef .. | varRef .. | property .. => Nat.le_refl _

theorem count_reduceAll (x : String) :
    ∀ es : List Expr, (bindersOfAll (reduceAll es)).count x ≤ (bindersOfAll es).count x
  | [] => Nat.le_refl _
  | e :: es => by
    have := count_reduce x e
    have := count_reduceAll x es
    simp only [reduceAll, bindersOfAll, List.count_append]
    omega

end

/-- Reducing binds no variable that was not bound before, nor one twice. -/
theorem binders_reduce (e : Expr) : (reduce e).binders.Subperm e.binders :=
  List.subperm_ext_iff.mpr fun x _ => count_reduce x e

end Expr

end TreeSql
