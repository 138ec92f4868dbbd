import TreeSql.Compile.Clause
import TreeSql.Proofs.Compile.Congruence

/-
  TreeSql.Proofs.Renaming.Stages — stages with other names for their aliases.

  A renamed stage has other names for the items of its `FROM` clause and for the qualifiers of its references,
  and is the same otherwise: the columns that it exposes keep their names. It takes the same clauses, and as
  long as the new names are distinct it exposes the same columns when more are pulled through it
  (`pull_renamed`). A renamed state has renamed stages and bindings.
-/
namespace TreeSql

namespace Sql

variable {f : String → String}

/-! ## Expressions -/

namespace SqlExpr

mutual

/-- The expression with its qualifiers renamed. -/
def renamed (f : String → String) : SqlExpr → SqlExpr
  | verbatim text => verbatim text
  | seq parts => seq (renamedAll f parts)
  | list items => list (renamedAll f items)
  | paren e => paren (renamed f e)
  | constant v => constant v
  | column e name t => column (renamed f e) name t
  | columnRef qualifier name => columnRef (f qualifier) name
  | property name => property name
  | call name args => call name (renamedAll f args)
  | cast e t => cast (renamed f e) t
  | binary op l r => binary op (renamed f l) (renamed f r)
  | leading op e => leading op (renamed f e)
  | trailing op e => trailing op (renamed f e)
  | exists_ e => exists_ (renamed f e)
  | stage id => stage id
termination_by structural e => e

def renamedAll (f : String → String) : List SqlExpr → List SqlExpr
  | [] => []
  | e :: es => renamed f e :: renamedAll f es
termination_by structural es => es

end

theorem renamedAll_eq_map (es : List SqlExpr) : renamedAll f es = es.map (renamed f) := by
  induction es with
  | nil => rfl
  | cons e es ih => rw [renamedAll, ih, List.map_cons]

theorem renamedAll_of_forall₂ {as bs : List SqlExpr} (h : List.Forall₂ (fun a b => b = a.renamed f) as bs) :
    bs = renamedAll f as := by
  induction h with
  | nil => rfl
  | cons h _ ih => rw [renamedAll, h, ih]

theorem renamed_negate (e : SqlExpr) : (e.renamed f).negate = e.negate.renamed f := by
  cases e with
  | binary op l r =>
    simp only [renamed, negate]
    split <;> simp [renamed]
  | leading op e => cases op <;> rfl
  | _ => rfl

theorem renamed_followedBy (e : SqlExpr) (text : String) :
    (e.renamed f).followedBy text = (e.followedBy text).renamed f := by
  cases e with
  | seq parts => simp [renamed, followedBy, renamedAll_eq_map]
  | _ => rfl

end SqlExpr

/-! ## Stages -/

def Column.renamed (f : String → String) (c : Column) : Column := { c with expr := c.expr.renamed f }

def OrderItem.renamed (f : String → String) (i : OrderItem) : OrderItem := { i with expr := i.expr.renamed f }

def Pulled.renamed (f : String → String) (p : Pulled) : Pulled := { p with source := f p.source }

def Source.renamed (f : String → String) : Source → Source
  | stage id => stage id
  | table text => table text
  | function call => function (call.renamed f)
  | rows e => rows (e.renamed f)
  | setOp kind operands => setOp kind operands

def FromItem.renamed (f : String → String) (i : FromItem) : FromItem :=
  { i with source := i.source.renamed f, name := f i.name }

def FromTree.renamed (f : String → String) : FromTree → FromTree
  | item i => item (i.renamed f)
  | join l kind r c => join (l.renamed f) kind (r.renamed f) (c.map (·.renamed f))

/-- The stage with its aliases renamed. -/
def Stage.renamed (f : String → String) (s : Stage) : Stage where
  distinct := s.distinct
  projection := s.projection.map (·.map (·.renamed f))
  pulled := s.pulled.map (·.renamed f)
  from_ := s.from_.map (·.renamed f)
  where_ := s.where_.map (·.renamed f)
  groupBy := s.groupBy.map (·.map (·.renamed f))
  orderBy := s.orderBy.map (·.map (·.renamed f))
  skip := s.skip.map (·.renamed f)
  limit := s.limit.map (·.renamed f)

theorem Stages.get_renamed (stages : Stages) (id : StageId) :
    Stages.get (stages.map (·.renamed f)) id = (stages.get id).renamed f := by
  unfold Stages.get
  rw [List.getElem?_map]
  cases stages[id]? <;> rfl

theorem Stage.outputNames_renamed (s : Stage) : (s.renamed f).outputNames = s.outputNames := by
  unfold outputNames renamed
  cases s.projection with
  | none => simp [Function.comp_def, Pulled.renamed]
  | some columns => simp [Function.comp_def, Column.renamed]

theorem Stage.exposedName?_renamed (hf : Function.Injective f) (s : Stage) (source column : String) :
    (s.renamed f).exposedName? (f source) column = s.exposedName? source column := by
  unfold exposedName? renamed
  rw [List.find?_map, Option.map_map]
  have htest : ((fun p : Pulled => p.source == f source && p.column == column) ∘ Pulled.renamed f) =
      fun p => p.source == source && p.column == column := by
    funext p
    simp only [Function.comp_apply, Pulled.renamed]
    rw [Bool.eq_iff_iff]
    simp [hf.eq_iff]
  rw [htest]
  rfl

/-- Which column is pulled, and under which name, does not depend on the names of aliases. -/
theorem Stage.pull_renamed (hf : Function.Injective f) (s : Stage) (source column : String) (k : Nat) :
    (s.renamed f).pull (f source) column k =
      ((s.pull source column k).1, (s.pull source column k).2.1.renamed f, (s.pull source column k).2.2) := by
  have hnames : (s.renamed f).pulled.map (·.name) = s.pulled.map (·.name) := by
    simp [renamed, Function.comp_def, Pulled.renamed]
  unfold pull
  rw [exposedName?_renamed hf, hnames]
  split
  · rfl
  · simp [renamed, Pulled.renamed]

theorem Stage.expose_renamed (hf : Function.Injective f) (s : Stage) (source : String) (columns : List String) :
    (s.renamed f).expose (f source) columns = (s.expose source columns).renamed f := by
  unfold expose
  induction columns generalizing s with
  | nil => rfl
  | cons column columns ih =>
    rw [List.foldl_cons, List.foldl_cons, exposedName?_renamed hf, ← ih]
    split
    · rfl
    · simp [renamed, Pulled.renamed]

end Sql

namespace Compile

open Sql

variable {f : String → String}

theorem congruence_renamed (f : String → String) : Congruence fun a b => b = a.renamed f where
  verbatim _ := rfl
  int _ := rfl
  seq h := congrArg SqlExpr.seq (SqlExpr.renamedAll_of_forall₂ h)
  list h := congrArg SqlExpr.list (SqlExpr.renamedAll_of_forall₂ h)
  paren h _ := congrArg SqlExpr.paren h
  column h name t := congrArg (SqlExpr.column · name t) h
  call name _ _ h := congrArg (SqlExpr.call name) (SqlExpr.renamedAll_of_forall₂ h)
  cast h t := congrArg (SqlExpr.cast · t) h
  binary op _ _ _ _ ha hb := congrArg₂ (SqlExpr.binary op) ha hb
  leading op _ _ h := congrArg (SqlExpr.leading op) h
  trailing op _ _ h := congrArg (SqlExpr.trailing op) h
  exists_ h := congrArg SqlExpr.exists_ h
  negate h := by rw [h, SqlExpr.renamed_negate]
  followedBy h _ _ := by rw [h, SqlExpr.renamed_followedBy]

/-! ## Clauses -/

theorem Clause.compatible_renamed (c : Clause) (s : Stage) : c.compatible (s.renamed f) = c.compatible s := by
  cases c <;> simp [compatible, Stage.renamed]

theorem addCondition_renamed (condition : SqlExpr) (s : Stage) :
    addCondition (condition.renamed f) (s.renamed f) = (addCondition condition s).renamed f := by
  cases h : s.where_ <;> simp [addCondition, Stage.renamed, SqlExpr.renamed, h]

theorem addLimit_renamed (limit : SqlExpr) (s : Stage) :
    addLimit (limit.renamed f) (s.renamed f) = (addLimit limit s).renamed f := by
  cases h : s.limit <;> simp [addLimit, Stage.renamed, SqlExpr.renamed, SqlExpr.renamedAll, h]

/-! ## States -/

def AliasedStage.renamed (f : String → String) (a : AliasedStage) : AliasedStage := { a with name := f a.name }

def Node.renamed (f : String → String) (n : Node) : Node :=
  { n with first := n.first.renamed f, wrappers := n.wrappers.map (·.renamed f) }

theorem Node.selects_renamed (n : Node) : (n.renamed f).selects = n.selects.map (·.renamed f) := rfl

theorem Node.joinParent_renamed (n : Node) : (n.renamed f).joinParent = n.joinParent := rfl

theorem Node.last_renamed (n : Node) : (n.renamed f).last = n.last.renamed f := by
  unfold Node.last Node.renamed
  rw [List.getLast?_map]
  cases n.wrappers.getLast? <;> rfl

/-- The state with its variables and aliases renamed. -/
def State.renamed (f : String → String) (s : State) : State :=
  { s with
    stages := s.stages.map (·.renamed f)
    nodes := s.nodes.map (·.renamed f)
    bindings := s.bindings.map fun b => (f b.1, b.2) }

theorem lookup_renamed (hf : Function.Injective f) (bindings : List (String × NodeId)) (x : String) :
    (bindings.map fun b => (f b.1, b.2)).lookup (f x) = bindings.lookup x := by
  induction bindings with
  | nil => rfl
  | cons b bindings ih =>
    rw [List.map_cons, List.lookup_cons, List.lookup_cons, ih]
    have htest : (f x == f b.1) = (x == b.1) := Bool.eq_iff_iff.mpr (by simp [hf.eq_iff])
    rw [htest]

/-- A change of an element goes through a map. -/
theorem modify_map {α β : Type} {g : α → β} {h : α → α} {h' : β → β} (hg : ∀ a, h' (g a) = g (h a)) (l : List α) (i : Nat) :
    (l.map g).modify i h' = (l.modify i h).map g := by
  refine List.ext_getElem? fun j => ?_
  rw [List.getElem?_modify, List.getElem?_map, List.getElem?_map, List.getElem?_modify]
  cases l[j]? with
  | none => rfl
  | some a =>
    by_cases hij : i = j
    · simp [hij, hg]
    · simp [hij]

end Compile

end TreeSql
