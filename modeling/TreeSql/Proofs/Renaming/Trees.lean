import TreeSql.Proofs.Expr.Coalesce
import TreeSql.Proofs.Expr.Nodes

/-
  TreeSql.Proofs.Renaming.Trees — expressions with other names for their variables.

  `Expr.rename` gives new names to the binders of an expression, to its references and to the members of joins,
  which are variables in the place of the owner of a property. The types of variables change with them; all
  other types are kept. Renaming keeps the size, the shape and, where it is not taken from a variable
  (`typedByVars`), the type of an expression. Distinct names stay apart, so equivalent expressions stay
  equivalent and no others become so (`equivalent_rename`), and renaming goes through the reduction of `CASE`
  expressions (`reduce_rename`).
-/
namespace TreeSql

/-- New names for variables, and the types that their rows have then. -/
structure VarRenaming where
  name : String → String
  rowType : String → DataType → DataType

/-- Variables stay apart, and so do the types of each. -/
structure VarRenaming.Faithful (r : VarRenaming) : Prop where
  name_inj : Function.Injective r.name
  sameType (x : String) (t u : DataType) : (r.rowType x t).SameType (r.rowType x u) ↔ t.SameType u

/-- The renamings agree on the variables. -/
def VarRenaming.AgreeOn (r r' : VarRenaming) (vars : List String) : Prop :=
  ∀ x ∈ vars, r.name x = r'.name x ∧ r.rowType x = r'.rowType x

/-- Two variables of the same type are the same two variables of the same type. -/
theorem VarRenaming.Faithful.same {r : VarRenaming} (hr : r.Faithful) (x y : String) (t u : DataType) :
    (decide ((r.rowType x t).SameType (r.rowType y u)) && r.name x == r.name y) =
      (decide (t.SameType u) && x == y) := by
  by_cases h : x = y
  · simp [h, hr.sameType]
  · simp [beq_eq_false_iff_ne.mpr h, beq_eq_false_iff_ne.mpr (hr.name_inj.ne h)]

/-! ## Row types that repeat variables -/

namespace DataType

variable {f : String → String}

mutual

/-- The type with other names for the members of its rows. -/
def renameMembers (f : String → String) : DataType → DataType
  | primitive kind facets => primitive kind facets
  | row members facets => row (renameMembersOf f members) facets
  | collection element facets => collection (renameMembers f element) facets
termination_by structural t => t

def renameMembersOf (f : String → String) : List (Named DataType) → List (Named DataType)
  | [] => []
  | ⟨name, t⟩ :: members => ⟨f name, renameMembers f t⟩ :: renameMembersOf f members
termination_by structural members => members

end

mutual

theorem renameMembers_inj (hf : f.Injective) : ∀ {t u : DataType}, renameMembers f t = renameMembers f u → t = u
  | primitive .., primitive .., h => h
  | row members _, row members' _, h => by
    injection h with hmembers hfacets
    rw [renameMembersOf_inj hf hmembers, hfacets]
  | collection t _, collection u _, h => by
    injection h with helement hfacets
    rw [renameMembers_inj hf helement, hfacets]
  | primitive .., row .., h | primitive .., collection .., h | row .., primitive .., h | row .., collection .., h
  | collection .., primitive .., h | collection .., row .., h => by cases h

theorem renameMembersOf_inj (hf : f.Injective) :
    ∀ {as bs : List Member}, renameMembersOf f as = renameMembersOf f bs → as = bs
  | [], [], _ => rfl
  | [], _ :: _, h | _ :: _, [], h => by cases h
  | ⟨_, t⟩ :: as, ⟨_, u⟩ :: bs, h => by
    injection h with hmember hrest
    injection hmember with hname htype
    rw [hf hname, renameMembers_inj hf htype, renameMembersOf_inj hf hrest]

end

theorem sameType_renameMembers (hf : f.Injective) (t u : DataType) :
    (t.renameMembers f).SameType (u.renameMembers f) ↔ t.SameType u := by
  have hwithout (t : DataType) : (t.renameMembers f).withFacets {} = (t.withFacets {}).renameMembers f := by
    cases t <;> rfl
  rw [SameType, SameType, hwithout, hwithout]
  exact ⟨renameMembers_inj hf, congrArg _⟩

end DataType

/-- New names, also for the members of rows that go by them. -/
def VarRenaming.ofNames (f : String → String) : VarRenaming := ⟨f, fun _ t => t.renameMembers f⟩

namespace Expr

/-- A property that other properties are taken of is a member of a join: it goes by the name of a variable. -/
def memberRenamed (r : VarRenaming) : Expr → Expr
  | property base x t => property base (r.name x) (r.rowType x t)
  | e => e

mutual

/-- The expression with its variables renamed. -/
def rename (r : VarRenaming) : Expr → Expr
  | scan set => scan set
  | filter ⟨e, v⟩ p => filter ⟨rename r e, r.name v⟩ (rename r p)
  | project ⟨e, v⟩ row => project ⟨rename r e, r.name v⟩ (rename r row)
  | sort ⟨e, v⟩ ks => sort ⟨rename r e, r.name v⟩ (renameKeys r ks)
  | skip ⟨e, v⟩ ks n => skip ⟨rename r e, r.name v⟩ (renameKeys r ks) (rename r n)
  | limit e n => limit (rename r e) (rename r n)
  | distinct e => distinct (rename r e)
  | groupBy ⟨e, v, g⟩ ks aggs t =>
    groupBy ⟨rename r e, r.name v, r.name g⟩ (renameAll r ks) (renameAggregates r aggs) t
  | join k ⟨a, v⟩ ⟨b, w⟩ c => join k ⟨rename r a, r.name v⟩ ⟨rename r b, r.name w⟩ (renameOption r c)
  | setOp k a b => setOp k (rename r a) (rename r b)
  | newInstance t es => newInstance t (renameAll r es)
  | element e => element (rename r e)
  | call f es t => call f (renameAll r es) t
  | comparison op a b => comparison op (rename r a) (rename r b)
  | arithmetic op es => arithmetic op (renameAll r es)
  | and a b => and (rename r a) (rename r b)
  | or a b => or (rename r a) (rename r b)
  | not e => not (rename r e)
  | isNull e => isNull (rename r e)
  | isEmpty e => isEmpty (rename r e)
  | like a b => like (rename r a) (rename r b)
  | isIn e es => isIn (rename r e) (renameAll r es)
  | cast e t => cast (rename r e) t
  | caseOf ws ts o => caseOf (renameAll r ws) (renameAll r ts) (rename r o)
  | constant v => constant v
  | null t => null t
  | paramRef x t => paramRef x t
  | varRef x t => varRef (r.name x) (r.rowType x t)
  | property base x t => property (memberRenamed r (rename r base)) x t
termination_by structural e => e

def renameAll (r : VarRenaming) : List Expr → List Expr
  | [] => []
  | e :: es => rename r e :: renameAll r es
termination_by structural es => es

def renameKeys (r : VarRenaming) : List (SortKeyOf Expr) → List (SortKeyOf Expr)
  | [] => []
  | ⟨e, up⟩ :: ks => ⟨rename r e, up⟩ :: renameKeys r ks
termination_by structural ks => ks

def renameAggregates (r : VarRenaming) : List (AggregateOf Expr) → List (AggregateOf Expr)
  | [] => []
  | ⟨f, args, d, t⟩ :: aggs => ⟨f, renameAll r args, d, t⟩ :: renameAggregates r aggs
termination_by structural aggs => aggs

def renameOption (r : VarRenaming) : Option Expr → Option Expr
  | none => none
  | some e => some (rename r e)
termination_by structural e => e

end

variable {r : VarRenaming}

theorem renameAll_eq_map (es : List Expr) : renameAll r es = es.map (rename r) := by
  induction es with
  | nil => rfl
  | cons e es ih => rw [renameAll, ih, List.map_cons]

/-! ## What renaming keeps -/

theorem kind_rename (e : Expr) : (e.rename r).kind = e.kind := by
  cases e <;> rfl

theorem isRelational_rename (e : Expr) : (e.rename r).isRelational = e.isRelational := by
  cases e <;> rfl

theorem size_memberRenamed (e : Expr) : (memberRenamed r e).size = e.size := by
  cases e <;> rfl

mutual

theorem size_rename : ∀ e : Expr, (e.rename r).size = e.size
  | scan _ | constant _ | null _ | paramRef .. | varRef .. => rfl
  | filter ⟨e, _⟩ p | project ⟨e, _⟩ p => by simp only [rename, size, size_rename e, size_rename p]
  | sort ⟨e, _⟩ ks => by simp only [rename, size, size_rename e, sizeOfKeys_renameKeys ks]
  | skip ⟨e, _⟩ ks n => by simp only [rename, size, size_rename e, sizeOfKeys_renameKeys ks, size_rename n]
  | groupBy ⟨e, _, _⟩ ks aggs _ => by
    simp only [rename, size, size_rename e, sizeOfAll_renameAll ks, sizeOfAggregates_renameAggregates aggs]
  | join _ ⟨a, _⟩ ⟨b, _⟩ c => by simp only [rename, size, size_rename a, size_rename b, sizeOfOption_renameOption c]
  | limit a b | setOp _ a b | comparison _ a b | and a b | or a b | like a b => by
    simp only [rename, size, size_rename a, size_rename b]
  | newInstance _ es | call _ es _ | arithmetic _ es => by simp only [rename, size, sizeOfAll_renameAll es]
  | distinct e | element e | not e | isNull e | isEmpty e | cast e _ => by simp only [rename, size, size_rename e]
  | property e _ _ => by simp only [rename, size, size_memberRenamed, size_rename e]
  | isIn e es => by simp only [rename, size, size_rename e, sizeOfAll_renameAll es]
  | caseOf ws ts o => by
    simp only [rename, size, sizeOfAll_renameAll ws, sizeOfAll_renameAll ts, size_rename o]

theorem sizeOfAll_renameAll : ∀ es : List Expr, sizeOfAll (renameAll r es) = sizeOfAll es
  | [] => rfl
  | e :: es => by rw [renameAll, sizeOfAll, sizeOfAll, size_rename e, sizeOfAll_renameAll es]

theorem sizeOfKeys_renameKeys : ∀ ks : List SortKey, sizeOfKeys (renameKeys r ks) = sizeOfKeys ks
  | [] => rfl
  | ⟨e, _⟩ :: ks => by rw [renameKeys, sizeOfKeys, sizeOfKeys, size_rename e, sizeOfKeys_renameKeys ks]

theorem sizeOfAggregates_renameAggregates :
    ∀ aggs : List Aggregate, sizeOfAggregates (renameAggregates r aggs) = sizeOfAggregates aggs
  | [] => rfl
  | ⟨_, args, _, _⟩ :: aggs => by
    rw [renameAggregates, sizeOfAggregates, sizeOfAggregates, sizeOfAll_renameAll args,
      sizeOfAggregates_renameAggregates aggs]

theorem sizeOfOption_renameOption : ∀ e : Option Expr, sizeOfOption (renameOption r e) = sizeOfOption e
  | none => rfl
  | some e => size_rename e

end

/-! ## Types -/

/-- Whether the type of the expression is taken from a variable, or from the row of a join, which has the
    variables of its sides as members. -/
def typedByVars : Expr → Bool
  | varRef .. | join .. => true
  | filter ⟨e, _⟩ _ | sort ⟨e, _⟩ _ | skip ⟨e, _⟩ _ _ | limit e _ | distinct e | element e => e.typedByVars
  | project _ row => row.typedByVars
  | setOp _ a _ => a.typedByVars
  | arithmetic _ (e :: _) | caseOf _ (e :: _) _ => e.typedByVars
  | caseOf _ [] o => o.typedByVars
  | _ => false

theorem resultType_rename : ∀ e : Expr, e.typedByVars = false → (e.rename r).resultType = e.resultType
  | filter ⟨e, _⟩ _, h | sort ⟨e, _⟩ _, h | skip ⟨e, _⟩ _ _, h | limit e _, h | distinct e, h =>
    resultType_rename e h
  | element e, h => congrArg DataType.elementOrSelf (resultType_rename e h)
  | project ⟨_, _⟩ row, h => congrArg DataType.ofElement (resultType_rename row h)
  | setOp _ a _, h => resultType_rename a h
  | arithmetic _ [], _ => rfl
  | arithmetic _ (e :: _), h | caseOf _ (e :: _) _, h => resultType_rename e h
  | caseOf _ [] o, h => resultType_rename o h
  | varRef .., h | join .., h => by cases h
  | scan _, _ | constant _, _ | null _, _ | paramRef .., _ | groupBy .., _ | newInstance .., _ | call .., _
  | comparison .., _ | and .., _ | or .., _ | not _, _ | isNull _, _ | isEmpty _, _ | like .., _ | isIn .., _
  | cast .., _ | property .., _ => rfl

/-! ## Equivalent expressions -/

theorem equivalent_eq_false {a b : Expr} (h : a.kind ≠ b.kind) : equivalent a b = false := by
  cases a <;> cases b <;> first
    | rfl
    | exact absurd rfl h
    | simp [equivalent, sameShape, beq_eq_false_iff_ne.mpr h]

theorem equivalent_rename_of_kind {a b : Expr} (h : a.kind ≠ b.kind) :
    equivalent (a.rename r) (b.rename r) = equivalent a b := by
  rw [equivalent_eq_false h, equivalent_eq_false (by rwa [kind_rename, kind_rename])]

theorem equivalent_memberRenamed (hr : r.Faithful) (a b : Expr) :
    equivalent (memberRenamed r a) (memberRenamed r b) = equivalent a b := by
  by_cases hkind : a.kind = b.kind
  · cases a with
    | property x n t =>
      cases b with
      | property y m u => exact congrArg (· && equivalent x y) (hr.same n m t u)
      | _ => cases hkind
    | _ =>
      cases b with
      | property => cases hkind
      | _ => rfl
  · have hkept (e : Expr) : (memberRenamed r e).kind = e.kind := by cases e <;> rfl
    rw [equivalent_eq_false hkind, equivalent_eq_false (by rwa [hkept, hkept])]

/-- Arithmetic has the type of its first operand, which equivalent operands share. -/
theorem equivalent_arithmetic (op op' : ArithmeticOp) (as bs : List Expr) :
    equivalent (arithmetic op as) (arithmetic op' bs) = (decide (op = op') && allEquivalent as bs) := by
  have htype (h : allEquivalent as bs = true) :
      (arithmetic op as).resultType.SameType (arithmetic op' bs).resultType := by
    cases as with
    | nil =>
      cases bs with
      | nil => exact .rfl
      | cons => cases h
    | cons a as =>
      cases bs with
      | nil => cases h
      | cons b bs =>
        rw [allEquivalent, Bool.and_eq_true] at h
        exact sameType_of_equivalent (a := a) (b := b) h.1
  rw [equivalent, sameShape]
  by_cases h : allEquivalent as bs = true
  · simp only [h, htype h, kind, decide_true, Bool.and_true]
    exact Bool.eq_iff_iff.mpr (by simp)
  · simp [h]

mutual

theorem equivalent_rename (hr : r.Faithful) : ∀ a b : Expr, equivalent (a.rename r) (b.rename r) = equivalent a b
  | call f as t, b => by
    cases b with
    | call g bs u => exact congrArg (_ && ·) (allEquivalent_renameAll hr as bs)
    | _ => exact equivalent_rename_of_kind (by simp [kind])
  | comparison op x y, b => by
    cases b with
    | comparison op' x' y' =>
      simp only [rename, equivalent, equivalent_rename hr x x', equivalent_rename hr y y']
      rfl
    | _ => exact equivalent_rename_of_kind (by simp [kind])
  | and x y, b => by
    cases b with
    | and x' y' => simp only [rename, equivalent, equivalent_rename hr x x', equivalent_rename hr y y']
    | _ => exact equivalent_rename_of_kind (by simp [kind])
  | or x y, b => by
    cases b with
    | or x' y' => simp only [rename, equivalent, equivalent_rename hr x x', equivalent_rename hr y y']
    | _ => exact equivalent_rename_of_kind (by simp [kind])
  | arithmetic op as, b => by
    cases b with
    | arithmetic op' bs => rw [rename, rename, equivalent_arithmetic, equivalent_arithmetic, allEquivalent_renameAll hr as bs]
    | _ => exact equivalent_rename_of_kind (by simp [kind])
  | not x, b => by
    cases b with
    | not y => simp only [rename, equivalent, equivalent_rename hr x y]
    | _ => exact equivalent_rename_of_kind (by simp [kind])
  | isNull x, b => by
    cases b with
    | isNull y => simp only [rename, equivalent, equivalent_rename hr x y]
    | _ => exact equivalent_rename_of_kind (by simp [kind])
  | cast x t, b => by
    cases b with
    | cast y u => exact congrArg (_ && ·) (equivalent_rename hr x y)
    | _ => exact equivalent_rename_of_kind (by simp [kind])
  | property x n t, b => by
    cases b with
    | property y m u =>
      exact congrArg (_ && ·) ((equivalent_memberRenamed hr _ _).trans (equivalent_rename hr x y))
    | _ => exact equivalent_rename_of_kind (by simp [kind])
  | varRef n t, b => by
    cases b with
    | varRef m u => exact hr.same n m t u
    | _ => exact equivalent_rename_of_kind (by simp [kind])
  | paramRef .., b | constant _, b => by
    cases b with
    | paramRef | constant => rfl
    | _ => exact equivalent_rename_of_kind (by simp [kind])
  | scan _, _ | filter .., _ | project .., _ | sort .., _ | skip .., _ | limit .., _ | distinct _, _ | groupBy .., _
  | join .., _ | setOp .., _ | newInstance .., _ | element _, _ | isEmpty _, _ | like .., _ | isIn .., _
  | caseOf .., _ | null _, _ => rfl

theorem allEquivalent_renameAll (hr : r.Faithful) :
    ∀ as bs : List Expr, allEquivalent (renameAll r as) (renameAll r bs) = allEquivalent as bs
  | [], [] | [], _ :: _ | _ :: _, [] => rfl
  | a :: as, b :: bs => by
    simp only [renameAll, allEquivalent, equivalent_rename hr a b, allEquivalent_renameAll hr as bs]

end

/-! ## Reduced CASE expressions -/

theorem coalesceArgs_rename (e : Expr) : coalesceArgs (e.rename r) = (coalesceArgs e).map (rename r) := by
  cases e with
  | call f args t =>
    simp only [rename, coalesceArgs, renameAll_eq_map]
    split <;> simp [rename, renameAll_eq_map]
  | _ => rfl

theorem coalesce_rename {a : Expr} (h : a.typedByVars = false) (b : Expr) :
    coalesce (a.rename r) (b.rename r) = (coalesce a b).rename r := by
  rw [coalesce, coalesce, rename, renameAll_eq_map, List.map_append, coalesceArgs_rename, coalesceArgs_rename,
    resultType_rename a h]

theorem collapse_eq_caseOf {ws ts : List Expr} {o : Expr}
    (h : ∀ (a : Expr) (ws' : List Expr) (t : Expr) (ts' : List Expr), ws = isNull a :: ws' → ts = t :: ts' → False) :
    collapse ws ts o = caseOf ws.reverse ts.reverse o := by
  unfold collapse
  split
  · exact (h _ _ _ _ rfl rfl).elim
  · rfl

theorem collapse_rename (hr : r.Faithful) (ws ts : List Expr) (o : Expr)
    (htyped : ∀ a, isNull a ∈ ws → a.typedByVars = false) :
    collapse (ws.map (rename r)) (ts.map (rename r)) (o.rename r) = (collapse ws ts o).rename r := by
  have hcase (ws ts : List Expr) (o : Expr) :
      caseOf (ws.map (rename r)).reverse (ts.map (rename r)).reverse (o.rename r) =
        (caseOf ws.reverse ts.reverse o).rename r := by
    rw [rename, renameAll_eq_map, renameAll_eq_map, List.map_reverse, List.map_reverse]
  have hbranch {a o : Expr} {ws ts : List Expr} :
      (ws.map (rename r)).length = (ts.map (rename r)).length ∧ equivalent (a.rename r) (o.rename r) = true ↔
        ws.length = ts.length ∧ equivalent a o = true := by
    rw [List.length_map, List.length_map, equivalent_rename hr]
  induction ws, ts, o using collapse.induct with
  | case1 a ws t ts o h hnil =>
    rw [collapse, if_pos h, if_pos hnil, ← coalesce_rename (htyped a (.head _))]
    simp only [List.map_cons, rename]
    rw [collapse, if_pos (hbranch.mpr h), if_pos (by rwa [List.isEmpty_map])]
  | case2 a ws t ts o h hnil ih =>
    rw [collapse, if_pos h, if_neg hnil, ← ih fun b hb => htyped b (.tail _ hb),
      ← coalesce_rename (htyped a (.head _))]
    simp only [List.map_cons, rename]
    rw [collapse, if_pos (hbranch.mpr h), if_neg (by rwa [List.isEmpty_map])]
  | case3 a ws t ts o h =>
    rw [collapse, if_neg h, ← hcase]
    simp only [List.map_cons, rename]
    rw [collapse, if_neg (mt hbranch.mp h)]
  | case4 ws ts o h =>
    rw [collapse_eq_caseOf h, ← hcase]
    refine collapse_eq_caseOf fun a ws' t ts' hw ht => ?_
    obtain ⟨w, ws, rfl, hw, -⟩ := List.map_eq_cons_iff.mp hw
    obtain ⟨t, ts, rfl, -, -⟩ := List.map_eq_cons_iff.mp ht
    cases w with
    | isNull b => exact h b ws t ts rfl rfl
    | _ => cases hw

theorem typedByVars_collapse {ws ts : List Expr} {o : Expr} (h : (collapse ws ts o).typedByVars = true) :
    (caseOf ws.reverse ts.reverse o).typedByVars = true := by
  induction ws, ts, o using collapse.induct with
  | case1 a ws t ts o h' hnil =>
    rw [collapse, if_pos h', if_pos hnil] at h
    cases h
  | case2 a ws t ts o h' hnil ih =>
    rw [collapse, if_pos h', if_neg hnil] at h
    have hlast := ih h
    cases hts : ts.reverse with
    | nil =>
      rw [hts] at hlast
      cases hlast
    | cons =>
      rw [hts] at hlast
      rw [List.reverse_cons, List.reverse_cons, hts]
      exact hlast
  | case3 a ws t ts o h' => rwa [collapse, if_neg h'] at h
  | case4 ws ts o h' => rwa [collapse_eq_caseOf h'] at h

/-- Reducing gives no expression a type from a variable. -/
theorem typedByVars_reduce : ∀ e : Expr, (reduce e).typedByVars = true → e.typedByVars = true
  | caseOf ws ts o, h => by
    have h := typedByVars_collapse h
    rw [List.reverse_reverse, List.reverse_reverse] at h
    cases ts with
    | nil => exact typedByVars_reduce o h
    | cons t ts => exact typedByVars_reduce t h
  | isNull _, h => h
  | scan _, h | filter .., h | project .., h | sort .., h | skip .., h | limit .., h | distinct _, h | groupBy .., h
  | join .., h | setOp .., h | newInstance .., h | element _, h | call .., h | comparison .., h | arithmetic .., h
  | and .., h | or .., h | not _, h | isEmpty _, h | like .., h | isIn .., h | cast .., h | constant _, h | null _, h
  | paramRef .., h | varRef .., h | property .., h => h

/-! ## Expressions that can be renamed -/

/-- The variables that a node binds or refers to. -/
def namesHere : Expr → List String
  | filter ⟨_, v⟩ _ | project ⟨_, v⟩ _ | sort ⟨_, v⟩ _ | skip ⟨_, v⟩ _ _ | varRef v _
  | property (property _ v _) _ _ => [v]
  | groupBy ⟨_, v, g⟩ .. => [v, g]
  | join _ ⟨_, v⟩ ⟨_, w⟩ _ => [v, w]
  | _ => []

/-- What a node is compiled to has no column or type that is taken from a variable: operands of set operations
    have rows of columns, and so do constant rows and what is tested for null. -/
def keepsTypes : Expr → Bool
  | setOp _ a b => !a.typedByVars && !b.typedByVars
  | newInstance _ [element _] => true
  | newInstance _ es => es.all fun e => e.kind == .varRef || !e.typedByVars
  | isNull e => !e.typedByVars
  | _ => true

/-- The test for expressions that can be renamed, with variables among the given ones. -/
def renamable (vars : List String) (e : Expr) : Bool := e.namesHere.all vars.contains && e.keepsTypes

variable {vars : List String}

theorem passesChoices_renamable : PassesChoices (renamable vars) where
  caseOf _ _ _ := rfl
  isNull e h := by
    have h : (!e.typedByVars) = true := h
    show (!(reduce e).typedByVars) = true
    rw [Bool.not_eq_true'] at h ⊢
    exact Bool.eq_false_iff.mpr fun hreduce => Bool.eq_false_iff.mp h (typedByVars_reduce e hreduce)
  call _ _ _ := rfl

theorem typedByVars_of_isNull {a : Expr} (h : (isNull a).everyNode (renamable vars) = true) : a.typedByVars = false := by
  have h : (!a.typedByVars) = true := test_of_everyNode h
  rwa [Bool.not_eq_true'] at h

mutual

theorem reduce_rename (hr : r.Faithful) :
    ∀ e : Expr, e.everyNode (renamable vars) = true → reduce (e.rename r) = (reduce e).rename r
  | caseOf ws ts o, h => by
    obtain ⟨hw, ht, ho⟩ := everyNode_caseOf h
    rw [rename, reduce, reduce, renameAll_eq_map, renameAll_eq_map, reduceAll_rename hr ws hw,
      reduceAll_rename hr ts ht, reduce_rename hr o ho, ← List.map_reverse, ← List.map_reverse]
    exact collapse_rename hr _ _ _ fun a ha => typedByVars_of_isNull
      (everyNode_reduceAll passesChoices_renamable hw _ (List.mem_reverse.mp ha))
  | isNull e, h => by
    rw [everyNode, Bool.and_eq_true] at h
    rw [rename, reduce, reduce, rename, reduce_rename hr e h.2]
  | scan _, _ | filter .., _ | project .., _ | sort .., _ | skip .., _ | limit .., _ | distinct _, _ | groupBy .., _
  | join .., _ | setOp .., _ | newInstance .., _ | element _, _ | call .., _ | comparison .., _ | arithmetic .., _
  | and .., _ | or .., _ | not _, _ | isEmpty _, _ | like .., _ | isIn .., _ | cast .., _ | constant _, _ | null _, _
  | paramRef .., _ | varRef .., _ | property .., _ => rfl

theorem reduceAll_rename (hr : r.Faithful) :
    ∀ es : List Expr, (∀ e ∈ es, e.everyNode (renamable vars) = true) →
      reduceAll (es.map (rename r)) = (reduceAll es).map (rename r)
  | [], _ => rfl
  | e :: es, h => by
    rw [List.map_cons, reduceAll, reduceAll, List.map_cons, reduce_rename hr e (h e (.head _)),
      reduceAll_rename hr es fun e' he' => h e' (.tail _ he')]

end

/-! ## Renamings that agree -/

theorem mem_of_everyNode {e : Expr} (h : e.everyNode (renamable vars) = true) : ∀ x ∈ e.namesHere, x ∈ vars := by
  have h := test_of_everyNode h
  simp only [renamable, Bool.and_eq_true, List.all_eq_true, List.contains_iff_mem] at h
  exact h.1

theorem everyNode_renamable_subset {vars' : List String} (hsub : vars ⊆ vars') {e : Expr}
    (h : e.everyNode (renamable vars) = true) : e.everyNode (renamable vars') = true := by
  refine everyNode_imp (fun e he => ?_) h
  simp only [renamable, Bool.and_eq_true, List.all_eq_true, List.contains_iff_mem] at he ⊢
  exact ⟨fun x hx => hsub (he.1 x hx), he.2⟩

variable {r' : VarRenaming}

mutual

theorem rename_congr (hagree : r.AgreeOn r' vars) :
    ∀ {e : Expr}, e.everyNode (renamable vars) = true → rename r e = rename r' e
  | filter ⟨e, v⟩ p, h | project ⟨e, v⟩ p, h => by
    have hv := (hagree v (mem_of_everyNode h v (.head _))).1
    simp only [everyNode, Bool.and_eq_true] at h
    simp only [rename, hv, rename_congr hagree h.2.1, rename_congr hagree h.2.2]
  | sort ⟨e, v⟩ ks, h => by
    have hv := (hagree v (mem_of_everyNode h v (.head _))).1
    simp only [everyNode, Bool.and_eq_true] at h
    simp only [rename, hv, rename_congr hagree h.2.1, renameKeys_congr hagree h.2.2]
  | skip ⟨e, v⟩ ks n, h => by
    have hv := (hagree v (mem_of_everyNode h v (.head _))).1
    simp only [everyNode, Bool.and_eq_true] at h
    simp only [rename, hv, rename_congr hagree h.2.1.1, renameKeys_congr hagree h.2.1.2, rename_congr hagree h.2.2]
  | groupBy ⟨e, v, g⟩ ks aggs _, h => by
    have hv := (hagree v (mem_of_everyNode h v (.head _))).1
    have hg := (hagree g (mem_of_everyNode h g (.tail _ (.head _)))).1
    simp only [everyNode, Bool.and_eq_true] at h
    simp only [rename, hv, hg, rename_congr hagree h.2.1.1, renameAll_congr hagree h.2.1.2,
      renameAggregates_congr hagree h.2.2]
  | join _ ⟨a, v⟩ ⟨b, w⟩ c, h => by
    have hv := (hagree v (mem_of_everyNode h v (.head _))).1
    have hw := (hagree w (mem_of_everyNode h w (.tail _ (.head _)))).1
    simp only [everyNode, Bool.and_eq_true] at h
    simp only [rename, hv, hw, rename_congr hagree h.2.1.1, rename_congr hagree h.2.1.2, renameOption_congr hagree h.2.2]
  | varRef v t, h => by
    have hv := hagree v (mem_of_everyNode h v (.head _))
    simp only [rename, hv]
  | property base x t, h => by
    have hmember (y : String) (hy : y ∈ (property base x t).namesHere) := hagree y (mem_of_everyNode h y hy)
    simp only [everyNode, Bool.and_eq_true] at h
    rw [rename, rename, rename_congr hagree h.2]
    cases base with
    | property b y u => simp only [rename, memberRenamed, hmember y (.head _)]
    | _ => rfl
  | limit a b, h | setOp _ a b, h | comparison _ a b, h | and a b, h | or a b, h | like a b, h => by
    simp only [everyNode, Bool.and_eq_true] at h
    simp only [rename, rename_congr hagree h.2.1, rename_congr hagree h.2.2]
  | newInstance _ es, h | call _ es _, h | arithmetic _ es, h => by
    simp only [everyNode, Bool.and_eq_true] at h
    simp only [rename, renameAll_congr hagree h.2]
  | distinct e, h | element e, h | not e, h | isNull e, h | isEmpty e, h | cast e _, h => by
    simp only [everyNode, Bool.and_eq_true] at h
    simp only [rename, rename_congr hagree h.2]
  | isIn e es, h => by
    simp only [everyNode, Bool.and_eq_true] at h
    simp only [rename, rename_congr hagree h.2.1, renameAll_congr hagree h.2.2]
  | caseOf ws ts o, h => by
    simp only [everyNode, Bool.and_eq_true] at h
    simp only [rename, renameAll_congr hagree h.2.1.1, renameAll_congr hagree h.2.1.2, rename_congr hagree h.2.2]
  | scan _, _ | constant _, _ | null _, _ | paramRef .., _ => rfl

theorem renameAll_congr (hagree : r.AgreeOn r' vars) :
    ∀ {es : List Expr}, everyNodeOfAll (renamable vars) es = true → renameAll r es = renameAll r' es
  | [], _ => rfl
  | e :: es, h => by
    simp only [everyNodeOfAll, Bool.and_eq_true] at h
    rw [renameAll, renameAll, rename_congr hagree h.1, renameAll_congr hagree h.2]

theorem renameKeys_congr (hagree : r.AgreeOn r' vars) :
    ∀ {ks : List SortKey}, everyNodeOfKeys (renamable vars) ks = true → renameKeys r ks = renameKeys r' ks
  | [], _ => rfl
  | ⟨e, _⟩ :: ks, h => by
    simp only [everyNodeOfKeys, Bool.and_eq_true] at h
    rw [renameKeys, renameKeys, rename_congr hagree h.1, renameKeys_congr hagree h.2]

theorem renameAggregates_congr (hagree : r.AgreeOn r' vars) : ∀ {aggs : List Aggregate},
    everyNodeOfAggregates (renamable vars) aggs = true → renameAggregates r aggs = renameAggregates r' aggs
  | [], _ => rfl
  | ⟨_, args, _, _⟩ :: aggs, h => by
    simp only [everyNodeOfAggregates, Bool.and_eq_true] at h
    rw [renameAggregates, renameAggregates, renameAll_congr hagree h.1, renameAggregates_congr hagree h.2]

theorem renameOption_congr (hagree : r.AgreeOn r' vars) :
    ∀ {e : Option Expr}, everyNodeOfOption (renamable vars) e = true → renameOption r e = renameOption r' e
  | none, _ => rfl
  | some _, h => congrArg some (rename_congr hagree h)

end

end Expr

end TreeSql
