import TreeSql.Compile.Tree
import TreeSql.Proofs.Renaming.Steps

/-
  TreeSql.Proofs.Renaming.Values — values under other names.

  Operators and functions are put together of the values of their operands, and look at an operand itself only
  for a constant, which has no names. So a call and the call with renamed arguments are compiled side by side,
  argument by argument (`mirrors_callValue`). A list, a CASE or an aggregate with renamed parts is the same one
  where every part is compiled under its new names (`Parts.under`). `Mirrored` says of two compilers that the
  second one mirrors the first one on renamed expressions; then so do the steps for values made from them
  (`mirrors_valueStep`).
-/
namespace TreeSql.Compile

open Sql Postgres TreeSql.Expr

variable {r : VarRenaming} {v : Expr → CompileM SqlExpr}

/-! ## Functions of renamed arguments -/

theorem valuesOf_rename (es : List Expr) :
    valuesOf v (es.map (rename r)) = valuesOf (fun e => v (e.rename r)) es := by
  induction es with
  | nil => rfl
  | cons e es ih => rw [List.map_cons, valuesOf, valuesOf, ih]

theorem rankWeights_rename (es : List Expr) : rankWeights (es.map (rename r)) = rankWeights es := by
  induction es with
  | nil => rfl
  | cons e es ih =>
    have hweight : rankWeight (e.rename r) = rankWeight e := by cases e <;> rfl
    rw [List.map_cons, rankWeights, rankWeights, ih, hweight]

/-- Functions read the same constants from renamed arguments. -/
theorem readsEach_rename (f : String → String) (es : List Expr) : (mirroring f).ReadsEach es (es.map (rename r)) where
  letters := by
    rw [List.map_map]
    exact List.map_congr_left fun e _ => by cases e <;> rfl
  options := by
    rw [List.map_map]
    exact List.map_congr_left fun e _ => by cases e <;> rfl
  targets := by
    rw [List.map_map]
    exact List.map_congr_left fun e _ => by cases e <;> rfl
  weights n w := by
    rw [← List.map_take, rankWeights_rename]
    exact (Comparison.readsEach_same es).weights n w

/-- An aggregate with its arguments renamed. -/
def renamedAggregate (r : VarRenaming) (a : Aggregate) : Aggregate := { a with args := a.args.map (rename r) }

theorem renameAggregates_eq_map (aggs : List Aggregate) :
    renameAggregates r aggs = aggs.map (renamedAggregate r) := by
  induction aggs with
  | nil => rfl
  | cons a aggs ih => rw [renameAggregates, ih, renameAll_eq_map, List.map_cons, renamedAggregate]

theorem aggregateValue_rename (a : Aggregate) :
    aggregateValue v (renamedAggregate r a) = aggregateValue (fun e => v (e.rename r)) a := by
  obtain ⟨f, args, d, t⟩ := a
  rcases args with _ | ⟨a, _ | ⟨b, _ | ⟨e, args⟩⟩⟩ <;> simp [aggregateValue, stringAggValue, renamedAggregate]

/-! ## Operators and CASE -/

/-- A compiler for expressions that are still to be renamed. -/
def Parts.under (r : VarRenaming) (p : Parts) : Parts where
  value e := p.value (e.rename r)
  rows e var := p.rows (e.rename r) (r.name var)

variable {p : Parts}

theorem isInValue_rename (item : Expr) (list : List Expr) :
    isInValue p (item.rename r) (list.map (rename r)) = isInValue (p.under r) item list := by
  simp only [isInValue, List.isEmpty_map, valuesOf_rename, Parts.under]

theorem branchParts_rename (branches : List (Expr × Expr)) :
    branchParts p (branches.map (Prod.map (rename r) (rename r))) = branchParts (p.under r) branches := by
  induction branches with
  | nil => rfl
  | cons branch branches ih => rw [List.map_cons, Prod.map, branchParts, branchParts, ih, Parts.under]

theorem caseValue_rename (ws ts : List Expr) (o : Expr) :
    reducedCaseValue p ((caseOf ws ts o).rename r) = reducedCaseValue (p.under r) (caseOf ws ts o) := by
  have helse : elseParts p (o.rename r) = elseParts (p.under r) o := by cases o <;> rfl
  simp only [rename, renameAll_eq_map, reducedCaseValue, List.isEmpty_map, List.length_map, List.zip_map,
    branchParts_rename, helse]

/-! ## Compilers that mirror each other -/

/-- The second compiler does on renamed expressions what the first one does on the expressions. -/
structure Mirrored (r : VarRenaming) (vars : List String) (p p' : Parts) : Prop where
  value {e : Expr} (h : e.everyNode (renamable vars) = true) (w : Nat) :
    Mirrors r.name w (p.value e) (p'.value (e.rename r)) fun _ a b => b = a.renamed r.name
  rows {e : Expr} (h : e.everyNode (renamable vars) = true) {var : String} (hvar : Occurs vars var) (w : Nat) :
    Mirrors r.name w (p.rows e var) (p'.rows (e.rename r) (r.name var)) SameNode
  /-- A variable has no value. -/
  bare (x : String) (t : DataType) (w : Nat) :
    Mirrors r.name w (p.value (.varRef x t)) (p'.value ((varRef x t).rename r)) fun _ _ _ => False

variable {vars : List String} {p' : Parts} {w : Nat}

theorem Mirrored.compiles (h : Mirrored r vars p p') {es : List Expr}
    (hes : ∀ e ∈ es, e.everyNode (renamable vars) = true) :
    (mirroring r.name).Compiles p.value (p'.under r).value es :=
  fun e he w => h.value (hes e he) w

theorem Mirrored.compilesAll (h : Mirrored r vars p p') {es : List Expr}
    (hes : everyNodeOfAll (renamable vars) es = true) : (mirroring r.name).Compiles p.value (p'.under r).value es :=
  h.compiles (everyNodeOfAll_iff.mp hes)

theorem Mirrored.compilesEach (h : Mirrored r vars p p') {es : List Expr}
    (hes : everyNodeOfAll (renamable vars) es = true) :
    (mirroring r.name).CompilesEach p.value p'.value es (es.map (rename r)) :=
  List.forall₂_map_right_iff.mpr
    (List.forall₂_same.mpr fun e he w => h.value (everyNodeOfAll_iff.mp hes e he) w)

theorem mirrors_callValue (h : Mirrored r vars p p') (f : FunctionRef) {args : List Expr}
    (hargs : everyNodeOfAll (renamable vars) args = true) (t : DataType) :
    Mirrors r.name w (callValue p.value f args t) (callValue p'.value f (args.map (rename r)) t)
      fun _ a b => b = a.renamed r.name :=
  Comparison.steps_callValue_each (C := mirroring r.name) f t (h.compilesEach hargs) (readsEach_rename r.name args)

/-! ## Subqueries -/

/-- What is done with rows that have an alias of their own. -/
theorem mirrors_aliasedRows (hr : Renames r vars) (h : Mirrored r vars p p') {e : Expr}
    (he : e.everyNode (renamable vars) = true) {α : Type} {R : Nat → α → α → Prop} {g g' : NodeId → CompileM α}
    (hg : ∀ {u node : Nat}, w ≤ u → node < u → Mirrors r.name u (g node) (g' node) R) :
    Mirrors r.name w (nextAlias >>= fun label => p.rows e label >>= g)
      (nextAlias >>= fun label => p'.rows (e.rename r) label >>= g') R := by
  refine mirrors_bind (mirrors_nextAlias hr) fun hu hlabel => ?_
  obtain ⟨rfl, hlabel⟩ := hlabel
  refine mirrors_bind (h.rows he hlabel _) fun hu' hnode => ?_
  obtain ⟨rfl, hnode⟩ := hnode
  exact hg (Nat.le_trans hu hu') hnode

theorem mirrors_subqueryValue (hr : Renames r vars) (h : Mirrored r vars p p') {e : Expr}
    (he : e.everyNode (renamable vars) = true) :
    Mirrors r.name w (subqueryValue p e) (subqueryValue p' (e.rename r)) fun _ a b => b = a.renamed r.name := by
  refine mirrors_aliasedRows hr h he fun _ hnode => ?_
  refine mirrors_bind (mirrors_openStage hnode) fun _ hlast => ?_
  subst hlast
  exact mirrors_pure fun _ _ => rfl

theorem mirrors_pullAll (hr : r.Faithful) (path : ColumnPath) (stages : List AliasedStage) :
    Mirrors r.name w (pullAll path stages) (pullAll (path.renamed r.name) (stages.map (·.renamed r.name)))
      fun _ _ _ => True := by
  induction stages generalizing w path with
  | nil => exact mirrors_pure fun _ _ => trivial
  | cons stage stages ih =>
    refine mirrors_bind (mirrors_pullThrough hr.name_inj path stage) fun _ hpath => ?_
    subst hpath
    exact ih _

theorem mirrors_limitValue (hr : Renames r vars) (h : Mirrored r vars p p') {e : Expr}
    (he : e.everyNode (renamable vars) = true) :
    Mirrors r.name w (limitValue p e) (limitValue p' (e.rename r)) fun _ a b => b = a.renamed r.name := by
  refine mirrors_aliasedRows hr h he fun _ hnode => ?_
  refine mirrors_bind (mirrors_getNode hnode) fun _ hn => ?_
  obtain ⟨rfl, -⟩ := hn
  rw [Node.last_renamed]
  refine mirrors_bind (mirrors_getStage _) @fun _ s _ _ hstage => ?_
  subst hstage
  rcases hprojection : s.projection with _ | _ | ⟨column, columns⟩
  · simp only [Stage.renamed, hprojection]
    exact mirrors_pure fun _ _ => rfl
  · simp only [Stage.renamed, hprojection]
    exact mirrors_pure fun _ _ => rfl
  · simp only [Stage.renamed, hprojection]
    refine mirrors_bind (mirrors_pullAll hr.toFaithful _ _) fun _ _ => ?_
    exact mirrors_pure fun _ _ => rfl

/-! ## All scalar expressions -/

theorem mirrors_reducedCaseValue (h : Mirrored r vars p p') {e : Expr} (he : e.everyNode (renamable vars) = true) :
    Mirrors r.name w (reducedCaseValue p e) (reducedCaseValue p' (e.rename r)) fun _ a b => b = a.renamed r.name := by
  cases e with
  | caseOf ws ts o =>
    obtain ⟨hw, ht, ho⟩ := everyNode_caseOf he
    rw [caseValue_rename]
    exact Comparison.steps_caseValue (C := mirroring r.name) (h.compiles hw) (h.compiles ht)
      (h.compiles (List.forall_mem_singleton.mpr ho))
  | _ => exact h.value he w

theorem mirrors_constantValue (f : String → String) (x : Value) :
    Mirrors f w (constantValue x) (constantValue x) fun _ a b => b = a.renamed f := by
  refine mirrors_read_bind fun c _ => ?_
  split
  · refine mirrors_bind (mirrors_liftConstant x) fun _ hname => ?_
    subst hname
    exact mirrors_pure fun _ _ => rfl
  · exact mirrors_pure fun _ _ => rfl

theorem mirrors_nullValue (f : String → String) (t : DataType) :
    Mirrors f w (nullValue t) (nullValue t) fun _ a b => b = a.renamed f := by
  refine mirrors_read_bind fun c hc => ?_
  rw [hc]
  refine mirrors_bind (mirrors_except _) fun _ htype => ?_
  subst htype
  exact mirrors_pure fun _ _ => rfl

theorem mirrors_valueStep (hr : Renames r vars) (h : Mirrored r vars p p') {e : Expr}
    (he : e.everyNode (renamable vars) = true) :
    Mirrors r.name w (valueStep p e) (valueStep p' (e.rename r)) fun _ a b => b = a.renamed r.name := by
  have hpair {a b : Expr} (ha : a.everyNode (renamable vars) = true) (hb : b.everyNode (renamable vars) = true)
      (op : BinaryOp) : Mirrors r.name w (binaryValue p op a b) (binaryValue p' op (a.rename r) (b.rename r))
        fun _ a b => b = a.renamed r.name :=
    Comparison.steps_binaryValue_each (C := mirroring r.name) op (.cons (h.value ha) (.cons (h.value hb) .nil))
  have hone {a : Expr} (ha : a.everyNode (renamable vars) = true) {f : SqlExpr → SqlExpr}
      (hf : ∀ x, (f x).renamed r.name = f (x.renamed r.name)) :
      Mirrors r.name w (do return f (← p.value a)) (do return f (← p'.value (a.rename r)))
        fun _ a b => b = a.renamed r.name := by
    refine mirrors_bind (h.value ha w) fun _ hx => ?_
    subst hx
    exact mirrors_pure fun _ _ => (hf _).symm
  have hall := he
  unfold everyNode at he
  obtain ⟨-, he⟩ := Bool.and_eq_true_iff.mp he
  cases e with
  | constant x => exact mirrors_constantValue r.name x
  | null t => exact mirrors_nullValue r.name t
  | paramRef name t => exact mirrors_pure fun _ _ => rfl
  | varRef name t => exact mirrors_fail _ _
  | property base name t => exact mirrors_propertyValue hr.toFaithful base name
  | comparison op a b | and a b | or a b | like a b =>
    obtain ⟨ha, hb⟩ := Bool.and_eq_true_iff.mp he
    exact hpair ha hb _
  | arithmetic op args =>
    rw [rename, renameAll_eq_map]
    exact Comparison.steps_arithmeticValue_each (C := mirroring r.name) op (h.compilesEach he)
  | not e => exact hone he fun x => (SqlExpr.renamed_negate x).symm
  | isNull e => exact hone he fun _ => rfl
  | isEmpty e => exact hone he fun x => (SqlExpr.renamed_negate _).symm
  | isIn item list =>
    obtain ⟨hitem, hlist⟩ := Bool.and_eq_true_iff.mp he
    rw [rename, renameAll_eq_map]
    show Mirrors r.name w (isInValue p item list) (isInValue p' (item.rename r) (list.map (rename r))) _
    rw [isInValue_rename]
    exact Comparison.steps_isInValue (C := mirroring r.name)
      (h.compiles (List.forall_mem_cons.mpr ⟨hitem, everyNodeOfAll_iff.mp hlist⟩))
  | cast e t =>
    refine mirrors_bind (h.value he w) fun _ hx => ?_
    subst hx
    refine mirrors_bind (mirrors_except _) fun _ htype => ?_
    subst htype
    exact mirrors_pure fun _ _ => rfl
  | caseOf ws ts o =>
    show Mirrors r.name w (reducedCaseValue p (reduce (caseOf ws ts o)))
      (reducedCaseValue p' (reduce ((caseOf ws ts o).rename r))) _
    rw [reduce_rename hr.toFaithful _ hall]
    exact mirrors_reducedCaseValue h (everyNode_reduce passesChoices_renamable hall)
  | call f args t =>
    rw [rename, renameAll_eq_map]
    exact mirrors_callValue h f he t
  | element e => exact hone he fun _ => rfl
  | limit e n => exact mirrors_limitValue hr h hall
  | newInstance t args =>
    rw [rename, valueStep, valueStep]
    split
    · exact mirrors_subqueryValue hr h hall
    · exact mirrors_fail _ _
  | scan | filter | project | sort | skip | distinct | groupBy | join | setOp =>
    exact mirrors_subqueryValue hr h hall

end TreeSql.Compile
