import TreeSql.Command.Basic
import TreeSql.Proofs.Expr.Reads

/-
  TreeSql.Proofs.Expr.Nodes — tests of all nodes of an expression.

  `everyNode` tests an expression and all expressions inside it, which `nodes` lists. Reducing `CASE` expressions only puts
  together what was there, so it keeps a test that lets every `CASE`, `IS NULL` and call pass
  (`everyNode_reduce`).
-/
namespace TreeSql

namespace Expr

mutual

/-- Whether a test holds of every node of an expression. -/
def everyNode (test : Expr → Bool) (e : Expr) : Bool :=
  test e && match e with
    | scan _ | constant _ | null _ | paramRef .. | varRef .. => true
    | filter ⟨e, _⟩ p => everyNode test e && everyNode test p
    | project ⟨e, _⟩ row => everyNode test e && everyNode test row
    | sort ⟨e, _⟩ ks => everyNode test e && everyNodeOfKeys test ks
    | skip ⟨e, _⟩ ks n => everyNode test e && everyNodeOfKeys test ks && everyNode test n
    | limit e n => everyNode test e && everyNode test n
    | groupBy ⟨e, _, _⟩ ks aggs _ =>
      everyNode test e && everyNodeOfAll test ks && everyNodeOfAggregates test aggs
    | join _ ⟨l, _⟩ ⟨r, _⟩ c => everyNode test l && everyNode test r && everyNodeOfOption test c
    | setOp _ l r | comparison _ l r | and l r | or l r | like l r => everyNode test l && everyNode test r
    | newInstance _ es | call _ es _ | arithmetic _ es => everyNodeOfAll test es
    | distinct e | element e | not e | isNull e | isEmpty e | cast e _ | property e _ _ => everyNode test e
    | isIn e es => everyNode test e && everyNodeOfAll test es
    | caseOf ws ts o => everyNodeOfAll test ws && everyNodeOfAll test ts && everyNode test o
termination_by structural e

def everyNodeOfAll (test : Expr → Bool) : List Expr → Bool
  | [] => true
  | e :: es => everyNode test e && everyNodeOfAll test es
termination_by structural es => es

def everyNodeOfKeys (test : Expr → Bool) : List (SortKeyOf Expr) → Bool
  | [] => true
  | ⟨e, _⟩ :: ks => everyNode test e && everyNodeOfKeys test ks
termination_by structural ks => ks

def everyNodeOfAggregates (test : Expr → Bool) : List (AggregateOf Expr) → Bool
  | [] => true
  | ⟨_, args, _, _⟩ :: aggs => everyNodeOfAll test args && everyNodeOfAggregates test aggs
termination_by structural aggs => aggs

def everyNodeOfOption (test : Expr → Bool) : Option Expr → Bool
  | none => true
  | some e => everyNode test e
termination_by structural e => e

end

mutual

/-- An expression and all expressions inside it. -/
def nodes (e : Expr) : List Expr :=
  e :: match e with
    | scan _ | constant _ | null _ | paramRef .. | varRef .. => []
    | filter ⟨e, _⟩ p => nodes e ++ nodes p
    | project ⟨e, _⟩ row => nodes e ++ nodes row
    | sort ⟨e, _⟩ ks => nodes e ++ nodesOfKeys ks
    | skip ⟨e, _⟩ ks n => nodes e ++ nodesOfKeys ks ++ nodes n
    | limit e n => nodes e ++ nodes n
    | groupBy ⟨e, _, _⟩ ks aggs _ => nodes e ++ nodesOfAll ks ++ nodesOfAggregates aggs
    | join _ ⟨l, _⟩ ⟨r, _⟩ c => nodes l ++ nodes r ++ nodesOfOption c
    | setOp _ l r | comparison _ l r | and l r | or l r | like l r => nodes l ++ nodes r
    | newInstance _ es | call _ es _ | arithmetic _ es => nodesOfAll es
    | distinct e | element e | not e | isNull e | isEmpty e | cast e _ | property e _ _ => nodes e
    | isIn e es => nodes e ++ nodesOfAll es
    | caseOf ws ts o => nodesOfAll ws ++ nodesOfAll ts ++ nodes o
termination_by structural e

def nodesOfAll : List Expr → List Expr
  | [] => []
  | e :: es => nodes e ++ nodesOfAll es
termination_by structural es => es

def nodesOfKeys : List (SortKeyOf Expr) → List Expr
  | [] => []
  | ⟨e, _⟩ :: ks => nodes e ++ nodesOfKeys ks
termination_by structural ks => ks

def nodesOfAggregates : List (AggregateOf Expr) → List Expr
  | [] => []
  | ⟨_, args, _, _⟩ :: aggs => nodesOfAll args ++ nodesOfAggregates aggs
termination_by structural aggs => aggs

def nodesOfOption : Option Expr → List Expr
  | none => []
  | some e => nodes e
termination_by structural e => e

end

mutual

/-- A test holds of every node if it holds of those that are listed. -/
theorem everyNode_eq_all (test : Expr → Bool) : ∀ e : Expr, e.everyNode test = e.nodes.all test
  | scan _ | constant _ | null _ | paramRef .. | varRef .. => by
    simp only [everyNode, nodes, List.all_cons, List.all_nil]
  | filter ⟨e, _⟩ p | project ⟨e, _⟩ p | limit e p | setOp _ e p | comparison _ e p | and e p | or e p | like e p => by
    simp only [everyNode, nodes, List.all_cons, List.all_append, everyNode_eq_all test e, everyNode_eq_all test p]
  | sort ⟨e, _⟩ ks => by
    simp only [everyNode, nodes, List.all_cons, List.all_append, everyNode_eq_all test e,
      everyNodeOfKeys_eq_all test ks]
  | skip ⟨e, _⟩ ks n => by
    simp only [everyNode, nodes, List.all_cons, List.all_append, everyNode_eq_all test e,
      everyNodeOfKeys_eq_all test ks, everyNode_eq_all test n]
  | groupBy ⟨e, _, _⟩ ks aggs _ => by
    simp only [everyNode, nodes, List.all_cons, List.all_append, everyNode_eq_all test e,
      everyNodeOfAll_eq_all test ks, everyNodeOfAggregates_eq_all test aggs]
  | join _ ⟨l, _⟩ ⟨r, _⟩ c => by
    simp only [everyNode, nodes, List.all_cons, List.all_append, everyNode_eq_all test l, everyNode_eq_all test r,
      everyNodeOfOption_eq_all test c]
  | newInstance _ es | call _ es _ | arithmetic _ es => by
    simp only [everyNode, nodes, List.all_cons, everyNodeOfAll_eq_all test es]
  | distinct e | element e | not e | isNull e | isEmpty e | cast e _ | property e _ _ => by
    simp only [everyNode, nodes, List.all_cons, everyNode_eq_all test e]
  | isIn e es => by
    simp only [everyNode, nodes, List.all_cons, List.all_append, everyNode_eq_all test e,
      everyNodeOfAll_eq_all test es]
  | caseOf ws ts o => by
    simp only [everyNode, nodes, List.all_cons, List.all_append, everyNodeOfAll_eq_all test ws,
      everyNodeOfAll_eq_all test ts, everyNode_eq_all test o]

theorem everyNodeOfAll_eq_all (test : Expr → Bool) : ∀ es : List Expr, everyNodeOfAll test es = (nodesOfAll es).all test
  | [] => rfl
  | e :: es => by
    simp only [everyNodeOfAll, nodesOfAll, List.all_append, everyNode_eq_all test e, everyNodeOfAll_eq_all test es]

theorem everyNodeOfKeys_eq_all (test : Expr → Bool) :
    ∀ ks : List SortKey, everyNodeOfKeys test ks = (nodesOfKeys ks).all test
  | [] => rfl
  | ⟨e, _⟩ :: ks => by
    simp only [everyNodeOfKeys, nodesOfKeys, List.all_append, everyNode_eq_all test e, everyNodeOfKeys_eq_all test ks]

theorem everyNodeOfAggregates_eq_all (test : Expr → Bool) :
    ∀ aggs : List Aggregate, everyNodeOfAggregates test aggs = (nodesOfAggregates aggs).all test
  | [] => rfl
  | ⟨_, args, _, _⟩ :: aggs => by
    simp only [everyNodeOfAggregates, nodesOfAggregates, List.all_append, everyNodeOfAll_eq_all test args,
      everyNodeOfAggregates_eq_all test aggs]

theorem everyNodeOfOption_eq_all (test : Expr → Bool) :
    ∀ e : Option Expr, everyNodeOfOption test e = (nodesOfOption e).all test
  | none => rfl
  | some e => everyNode_eq_all test e

end

section

variable {test : Expr → Bool}

theorem everyNodeOfAll_iff {es : List Expr} :
    everyNodeOfAll test es = true ↔ ∀ e ∈ es, e.everyNode test = true := by
  induction es with
  | nil => simp [everyNodeOfAll]
  | cons e es ih => simp [everyNodeOfAll, ih]

theorem everyNodeOfKeys_iff {ks : List SortKey} :
    everyNodeOfKeys test ks = true ↔ ∀ k ∈ ks, k.expr.everyNode test = true := by
  induction ks with
  | nil => simp [everyNodeOfKeys]
  | cons k ks ih => simp [everyNodeOfKeys, ih]

theorem everyNodeOfAggregates_iff {aggs : List Aggregate} :
    everyNodeOfAggregates test aggs = true ↔ ∀ a ∈ aggs, ∀ e ∈ a.args, e.everyNode test = true := by
  induction aggs with
  | nil => simp [everyNodeOfAggregates]
  | cons a aggs ih => simp [everyNodeOfAggregates, everyNodeOfAll_iff, ih]

theorem everyNodeOfOption_iff {e : Option Expr} :
    everyNodeOfOption test e = true ↔ ∀ e' ∈ e, e'.everyNode test = true := by
  cases e <;> simp [everyNodeOfOption]

theorem test_of_everyNode {e : Expr} (h : e.everyNode test = true) : test e = true := by
  unfold everyNode at h
  exact (Bool.and_eq_true_iff.mp h).1

theorem everyNode_iff {e : Expr} : e.everyNode test = true ↔ ∀ x ∈ e.nodes, test x = true := by
  rw [everyNode_eq_all, List.all_eq_true]

/-- A weaker test holds too. -/
theorem everyNode_imp {test' : Expr → Bool} (himp : ∀ e, test e = true → test' e = true) {e : Expr}
    (h : e.everyNode test = true) : e.everyNode test' = true :=
  everyNode_iff.mpr fun x hx => himp x (everyNode_iff.mp h x hx)

/-- A test that always holds does so at every node. -/
theorem everyNode_true (e : Expr) : e.everyNode (fun _ => true) = true := everyNode_iff.mpr fun _ _ => rfl

/-! ## Reduced CASE expressions -/

theorem everyNode_coalesceArgs {e : Expr} (h : e.everyNode test = true) :
    ∀ a ∈ coalesceArgs e, a.everyNode test = true := by
  cases e with
  | call f args t =>
    by_cases hf : isCoalesce f = true
    · rw [coalesceArgs, if_pos hf]
      simp only [everyNode, Bool.and_eq_true] at h
      exact everyNodeOfAll_iff.mp h.2
    · rw [coalesceArgs, if_neg hf]
      simpa using h
  | _ => simpa [coalesceArgs] using h

/-- The test lets pass what reducing puts together. -/
structure PassesChoices (test : Expr → Bool) : Prop where
  caseOf (ws ts : List Expr) (o : Expr) : test (caseOf ws ts o) = true
  isNull (e : Expr) (h : test (isNull e) = true) : test (isNull (reduce e)) = true
  call (f : FunctionRef) (args : List Expr) (t : DataType) : test (call f args t) = true

theorem everyNode_coalesce (htest : PassesChoices test) {a b : Expr} (ha : a.everyNode test = true)
    (hb : b.everyNode test = true) :
    (coalesce a b).everyNode test = true := by
  rw [coalesce, everyNode, htest.call, Bool.true_and, everyNodeOfAll_iff]
  intro e he
  exact (List.mem_append.mp he).elim (everyNode_coalesceArgs ha e) (everyNode_coalesceArgs hb e)

theorem everyNode_collapse (htest : PassesChoices test) {ws ts : List Expr} {o : Expr}
    (hw : ∀ e ∈ ws, e.everyNode test = true) (ht : ∀ e ∈ ts, e.everyNode test = true)
    (ho : o.everyNode test = true) :
    (collapse ws ts o).everyNode test = true := by
  have hcase {ws ts : List Expr} {o : Expr} (hw : ∀ e ∈ ws, e.everyNode test = true)
      (ht : ∀ e ∈ ts, e.everyNode test = true) (ho : o.everyNode test = true) :
      (Expr.caseOf ws.reverse ts.reverse o).everyNode test = true := by
    rw [everyNode, htest.caseOf, Bool.true_and, everyNodeOfAll_iff.mpr fun e he => hw e (List.mem_reverse.mp he),
      everyNodeOfAll_iff.mpr fun e he => ht e (List.mem_reverse.mp he), ho]
    rfl
  have harg {arg : Expr} (h : (Expr.isNull arg).everyNode test = true) : arg.everyNode test = true := by
    rw [everyNode] at h
    exact (Bool.and_eq_true_iff.mp h).2
  fun_induction collapse ws ts o with
  | case1 arg ws t ts o h hnil => exact everyNode_coalesce htest (harg (hw _ (.head _))) (ht t (.head _))
  | case2 arg ws t ts o h hnil ih =>
    refine ih (fun e he => hw e (.tail _ he)) (fun e he => ht e (.tail _ he)) ?_
    exact everyNode_coalesce htest (harg (hw _ (.head _))) (ht t (.head _))
  | case3 arg ws t ts o h => exact hcase hw ht ho
  | case4 ws ts o h => exact hcase hw ht ho

theorem everyNode_caseOf {ws ts : List Expr} {o : Expr} (h : (Expr.caseOf ws ts o).everyNode test = true) :
    (∀ e ∈ ws, e.everyNode test = true) ∧ (∀ e ∈ ts, e.everyNode test = true) ∧ o.everyNode test = true := by
  rw [everyNode, Bool.and_eq_true, Bool.and_eq_true, Bool.and_eq_true] at h
  exact ⟨everyNodeOfAll_iff.mp h.2.1.1, everyNodeOfAll_iff.mp h.2.1.2, h.2.2⟩

mutual

theorem everyNode_reduce (htest : PassesChoices test) :
    ∀ {e : Expr}, e.everyNode test = true → (reduce e).everyNode test = true
  | .caseOf ws ts o, h => by
    obtain ⟨hw, ht, ho⟩ := everyNode_caseOf h
    refine everyNode_collapse htest (fun e he => ?_) (fun e he => ?_) (everyNode_reduce htest ho)
    · exact everyNode_reduceAll htest hw e (List.mem_reverse.mp he)
    · exact everyNode_reduceAll htest ht e (List.mem_reverse.mp he)
  | .isNull e, h => by
    rw [everyNode, Bool.and_eq_true] at h
    rw [reduce, everyNode, htest.isNull e h.1, everyNode_reduce htest h.2]
    rfl
  | scan _, h | filter .., h | project .., h | sort .., h | skip .., h | limit .., h
  | distinct _, h | groupBy .., h | join .., h | setOp .., h | newInstance .., h | element _, h
  | .call .., h | comparison .., h | arithmetic .., h | and .., h | or .., h | not _, h
  | isEmpty _, h | like .., h | isIn .., h | cast .., h | constant _, h | null _, h
  | paramRef .., h | varRef .., h | property .., h => h

theorem everyNode_reduceAll (htest : PassesChoices test) : ∀ {es : List Expr},
    (∀ e ∈ es, e.everyNode test = true) → ∀ e ∈ reduceAll es, e.everyNode test = true
  | [], _ => by simp [reduceAll]
  | e :: es, h => by
    rw [reduceAll, List.forall_mem_cons]
    exact ⟨everyNode_reduce htest (h e (.head _)), everyNode_reduceAll htest fun e he => h e (.tail _ he)⟩

end

end

end Expr

/-! ## Command trees -/

def Assignment.everyNode (test : Expr → Bool) (a : Assignment) : Bool :=
  a.property.everyNode test && a.value.everyNode test

def CommandBody.everyNode (test : Expr → Bool) : CommandBody → Bool
  | .query e => e.everyNode test
  | .insert c =>
    c.target.expr.everyNode test && c.assignments.all (·.everyNode test) && c.returning.all (·.everyNode test)
  | .update c =>
    c.target.expr.everyNode test && c.assignments.all (·.everyNode test) && c.predicate.all (·.everyNode test) &&
      c.returning.all (·.everyNode test)
  | .delete c => c.target.expr.everyNode test && c.predicate.all (·.everyNode test)

theorem CommandBody.everyNode_true (body : CommandBody) : body.everyNode (fun _ => true) = true := by
  have hoption (e : Option Expr) : e.all (fun _ => true) = true := by cases e <;> rfl
  have hassignments (as : List Assignment) : as.all (·.everyNode fun _ => true) = true :=
    List.all_eq_true.mpr fun a _ => by simp only [Assignment.everyNode, Expr.everyNode_true, Bool.and_self]
  cases body <;> simp only [CommandBody.everyNode, Expr.everyNode_true, hoption, hassignments, Bool.and_self]

end TreeSql
