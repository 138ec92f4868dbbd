import TreeSql.Proofs.Compile.Comparison
import TreeSql.Proofs.Compile.Operators
import TreeSql.Proofs.Expr.Nodes
import TreeSql.Proofs.References.Routes

/-
  TreeSql.Proofs.Compile.Target — a scalar expression over the target of a change, and over a scan of it.

  In a change, a property of the variable is a column by its name alone, and a null takes its type from the
  column that it is for. In a query, the property is a column of the alias that the variable is scanned under,
  and the null is cast to its type. Otherwise a scalar expression is compiled to the same: `onTarget` makes
  these two replacements, and takes what the query has for the expression to what the change has
  (`value_of_target`). A null by itself stands nowhere in a query (`nullsTyped`), so the casts of a null that
  `onTarget` finds are those that nulls were compiled to.

  A change resolves fewer properties and needs no types for its nulls. So it is from its success that the
  success of the query follows, if nulls have types that values can have.
-/
namespace TreeSql

/-! ## Replacing columns and nulls -/

namespace Sql.SqlExpr

/-- A null without a type. -/
def isBareNull : SqlExpr → Bool
  | verbatim text => text == "NULL"
  | _ => false

mutual

/-- The expression over the target of a change: columns of the variable by their names alone, and nulls
    without their types. -/
def onTarget (var : String) : SqlExpr → SqlExpr
  | verbatim text => verbatim text
  | seq parts => seq (onTargetAll var parts)
  | list items => list (onTargetAll var items)
  | paren e => paren (onTarget var e)
  | constant v => constant v
  | column e name t => column (onTarget var e) name t
  | columnRef qualifier name => if qualifier = var then property name else columnRef qualifier name
  | property name => property name
  | call name args => call name (onTargetAll var args)
  | cast e t => if e.isBareNull then e else cast (onTarget var e) t
  | binary op l r => binary op (onTarget var l) (onTarget var r)
  | leading op e => leading op (onTarget var e)
  | trailing op e => trailing op (onTarget var e)
  | exists_ e => exists_ (onTarget var e)
  | stage id => stage id
termination_by structural e => e

def onTargetAll (var : String) : List SqlExpr → List SqlExpr
  | [] => []
  | e :: es => onTarget var e :: onTargetAll var es
termination_by structural es => es

end

mutual

/-- Whether every null has a type: it is the operand of a cast. -/
def nullsTyped : SqlExpr → Bool
  | verbatim text => text != "NULL"
  | seq es | list es | call _ es => nullsTypedAll es
  | paren e | column e _ _ | leading _ e | trailing _ e | exists_ e => nullsTyped e
  | cast e _ => e.isBareNull || nullsTyped e
  | binary _ l r => nullsTyped l && nullsTyped r
  | constant _ | columnRef .. | property _ | stage _ => true
termination_by structural e => e

def nullsTypedAll : List SqlExpr → Bool
  | [] => true
  | e :: es => nullsTyped e && nullsTypedAll es
termination_by structural es => es

end

variable {var : String}

theorem onTargetAll_eq_map (es : List SqlExpr) : onTargetAll var es = es.map (onTarget var) := by
  induction es with
  | nil => rfl
  | cons e es ih => rw [onTargetAll, ih, List.map_cons]

theorem nullsTypedAll_eq_all (es : List SqlExpr) : nullsTypedAll es = es.all nullsTyped := by
  induction es with
  | nil => rfl
  | cons e es ih => rw [nullsTypedAll, ih, List.all_cons]

theorem onTarget_negate (e : SqlExpr) : e.negate.onTarget var = (e.onTarget var).negate := by
  cases e with
  | binary op l r => cases h : op.negated? <;> simp [negate, onTarget, h]
  | leading op e => cases op <;> rfl
  | columnRef qualifier name =>
    simp only [negate, onTarget]
    split <;> rfl
  | cast e t =>
    simp only [negate, onTarget]
    split
    · cases e with
      | verbatim => rfl
      | _ => contradiction
    · rfl
  | _ => rfl

theorem nullsTyped_negate (e : SqlExpr) : e.negate.nullsTyped = e.nullsTyped := by
  cases e with
  | binary op l r => cases h : op.negated? <;> simp [negate, nullsTyped, h]
  | leading op e => cases op <;> rfl
  | _ => rfl

theorem onTarget_followedBy (e : SqlExpr) (text : String) :
    (e.followedBy text).onTarget var = (e.onTarget var).followedBy text := by
  cases e with
  | seq parts => simp [followedBy, onTarget, onTargetAll_eq_map]
  | columnRef qualifier name =>
    simp only [followedBy, onTarget, onTargetAll]
    split <;> rfl
  | cast e t =>
    simp only [followedBy, onTarget, onTargetAll]
    split
    · cases e with
      | verbatim => rfl
      | _ => contradiction
    · rfl
  | _ => rfl

theorem nullsTyped_followedBy (e : SqlExpr) (text : String) :
    (e.followedBy text).nullsTyped = (e.nullsTyped && text != "NULL") := by
  cases e with
  | seq parts => simp [followedBy, nullsTyped, nullsTypedAll_eq_all]
  | _ => simp [followedBy, nullsTyped, nullsTypedAll]

theorem not_isBareNull {e : SqlExpr} (h : e.nullsTyped = true) : e.isBareNull = false := by
  cases e with
  | verbatim text => simpa [nullsTyped, isBareNull] using h
  | _ => rfl

end Sql.SqlExpr

namespace Compile

open Sql SqlExpr Postgres

/-! ## What a query has and what a change has -/

/-- The second expression is the first one over the target, in which all nulls have types. -/
def Retargeted (var : String) (q d : SqlExpr) : Prop := q.nullsTyped = true ∧ d = q.onTarget var

theorem congruence_retargeted (var : String) : Congruence (Retargeted var) := by
  have hall {as bs : List SqlExpr} (h : List.Forall₂ (Retargeted var) as bs) :
      nullsTypedAll as = true ∧ bs = onTargetAll var as := by
    induction h with
    | nil => exact ⟨rfl, rfl⟩
    | cons h _ ih =>
      refine ⟨?_, ?_⟩
      · rw [nullsTypedAll, h.1, ih.1]
        rfl
      · rw [onTargetAll, h.2, ih.2]
  have hone {f : SqlExpr → SqlExpr} {a d : SqlExpr} (h : Retargeted var a d) (htyped : (f a).nullsTyped = a.nullsTyped)
      (hf : (f a).onTarget var = f (a.onTarget var)) : Retargeted var (f a) (f d) :=
    ⟨htyped.trans h.1, by rw [hf, h.2]⟩
  constructor
  case verbatim => exact fun h => ⟨by simpa [nullsTyped] using h.2, rfl⟩
  case int => exact fun _ => ⟨rfl, rfl⟩
  case seq => exact fun h => ⟨(hall h).1, congrArg seq (hall h).2⟩
  case list => exact fun h => ⟨(hall h).1, congrArg list (hall h).2⟩
  case call => exact fun name _ _ h => ⟨(hall h).1, congrArg (call name) (hall h).2⟩
  case paren => exact fun h _ => hone h rfl rfl
  case column => exact fun h name t => hone (f := (column · name t)) h rfl rfl
  case cast =>
    intro a b h t
    have hbare := not_isBareNull h.1
    exact hone (f := (SqlExpr.cast · t)) h (by rw [nullsTyped, hbare, Bool.false_or]) (by simp [onTarget, hbare])
  case binary =>
    intro op a b a' b' ha hb
    exact ⟨by rw [nullsTyped, ha.1, hb.1]; rfl, by rw [onTarget, ha.2, hb.2]⟩
  case leading => exact fun op _ _ h => hone h rfl rfl
  case trailing => exact fun op _ _ h => hone h rfl rfl
  case exists_ => exact fun h => hone h rfl rfl
  case negate => exact fun h => hone h (nullsTyped_negate _) (onTarget_negate _)
  case followedBy =>
    intro a b h text htext
    have htyped : (a.followedBy text).nullsTyped = a.nullsTyped := by
      rw [nullsTyped_followedBy, bne_iff_ne.mpr htext.2, Bool.and_true]
    exact hone (f := (·.followedBy text)) h htyped (onTarget_followedBy a text)

/-! ## Steps in a query and in a change -/

/-- The variable is bound to rows whose innermost stage goes by its name and is in scope. -/
def Scanned (var : String) (c : Context) (s : State) : Prop :=
  ∃ node stage, s.bindings.lookup var = some node ∧ (nodeAt s.nodes node).first = ⟨var, stage⟩ ∧ stage ∈ c.scopes

/-- A context in a query, and one in a change of the variable. -/
structure Beside (var : String) (c d : Context) : Prop where
  query : c.mode = .query
  target : d.mode = .target var
  lift : c.liftConstants = d.liftConstants

/-- Where the second step succeeds in a change, the first one does in a query. Both lift the same constants, and
    in the query nothing else changes. -/
def Matches {α : Type} (var : String) (m m' : CompileM α) (R : α → α → Prop) : Prop :=
  ∀ c d s s' b t', Beside var c d → Scanned var c s → s.lifted = s'.lifted → Gives m' d s' b t' →
    ∃ a, Gives m c s a { s with lifted := t'.lifted } ∧ R a b

section

variable {α β : Type} {var : String} {R : α → α → Prop}

theorem matches_pure {a b : α} (h : R a b) : Matches var (pure a) (pure b) R := by
  intro c d s s' b' t' _ _ hlifted hrun
  obtain ⟨rfl, rfl⟩ := gives_pure.mp hrun
  rw [← hlifted]
  exact ⟨a, gives_pure.mpr ⟨rfl, rfl⟩, h⟩

theorem matches_bind {m m' : CompileM α} {f f' : α → CompileM β} {R' : β → β → Prop} (hm : Matches var m m' R)
    (hf : ∀ {a b}, R a b → Matches var (f a) (f' b) R') : Matches var (m >>= f) (m' >>= f') R' := by
  intro c d s s' r' t' hcd hs hlifted hrun
  obtain ⟨b, u', hfirst', hrest'⟩ := gives_bind.mp hrun
  obtain ⟨a, hfirst, hab⟩ := hm c d s s' b u' hcd hs hlifted hfirst'
  obtain ⟨r, hrest, hr⟩ := hf hab c d { s with lifted := u'.lifted } u' r' t' hcd hs rfl hrest'
  exact ⟨r, gives_bind.mpr ⟨a, _, hfirst, hrest⟩, hr⟩

/-- What fails in a change may do anything in a query. -/
theorem matches_fail {m : CompileM α} (e : Error) : Matches var m (.fail e) R :=
  fun _ _ _ _ _ _ _ _ _ hrun => (not_gives_fail hrun).elim

end

/-- A query beside a change of the variable. -/
def targeting (var : String) : Comparison where
  World := Unit
  Le _ _ := True
  Alike _ := Retargeted var
  Steps _ m m' R := Matches var m m' (R ())
  refl _ := trivial
  trans _ _ := trivial
  later _ h := h
  congruence _ := congruence_retargeted var
  pure h := matches_pure (h () trivial)
  bind hm hf := matches_bind hm fun hab => hf trivial hab
  fail e := matches_fail e

variable {var : String}

/-! ## Constants, nulls and columns -/

theorem placeholder_ne_null (name : String) : placeholder name ≠ "NULL" := by
  intro h
  have hhead := congrArg (·.toList.head?) h
  simp [placeholder] at hhead

theorem matches_constantValue (v : Value) :
    Matches var (constantValue v) (constantValue v) (Retargeted var) := by
  intro c d s s' b t' hcd _ hlifted hrun
  unfold constantValue at hrun ⊢
  simp only [gives_read_bind] at hrun ⊢
  rw [hcd.lift]
  split at hrun
  · obtain ⟨name, u', hlift, hpure⟩ := gives_bind.mp hrun
    obtain ⟨rfl, rfl⟩ := gives_liftConstant.mp hlift
    obtain ⟨rfl, rfl⟩ := gives_pure.mp hpure
    rename_i hc
    rw [if_pos hc]
    refine ⟨_, gives_bind.mpr ⟨_, _, gives_liftConstant.mpr ⟨rfl, rfl⟩, gives_pure.mpr ⟨rfl, ?_⟩⟩, ?_, ?_⟩
    · rw [hlifted]
    · rw [hlifted, nullsTyped]
      exact bne_iff_ne.mpr (placeholder_ne_null _)
    · rw [hlifted]
      rfl
  · obtain ⟨rfl, rfl⟩ := gives_pure.mp hrun
    rename_i hc
    rw [if_neg hc, ← hlifted]
    exact ⟨_, gives_pure.mpr ⟨rfl, rfl⟩, rfl, rfl⟩

theorem matches_nullValue {t : DataType} (ht : t.kind?.isSome = true) :
    Matches var (nullValue t) (nullValue t) (Retargeted var) := by
  intro c d s s' b t' hcd _ hlifted hrun
  unfold nullValue at hrun ⊢
  simp only [gives_read_bind] at hrun ⊢
  rw [hcd.target] at hrun
  rw [hcd.query]
  obtain ⟨rfl, rfl⟩ := gives_pure.mp hrun
  rw [← hlifted]
  cases t with
  | primitive kind facets =>
    exact ⟨.cast (.verbatim "NULL") (castName kind), gives_bind.mpr ⟨_, _, gives_lift.mpr ⟨rfl, rfl⟩, rfl⟩, rfl, rfl⟩
  | row | collection => cases ht

theorem gives_pullFrom_scanned {c : Context} {s : State} {node : NodeId} (path : ColumnPath)
    (h : (nodeAt s.nodes node).first.stage ∈ c.scopes) : Gives (pullFrom node path) c s path s := by
  unfold pullFrom
  rw [gives_getNode_bind]
  refine gives_bind.mpr ⟨(path, true), s, ?_, gives_pure.mpr ⟨rfl, rfl⟩⟩
  rw [Node.selects, pullToScope, gives_read_bind, if_pos (by simpa using h)]
  exact gives_pure.mpr ⟨rfl, rfl⟩

theorem gives_boundColumn_scanned {c : Context} {s : State} (h : Scanned var c s) (t : DataType) (name : String) :
    Gives (boundColumn (.varRef var t) name) c s (.columnRef var name) s := by
  obtain ⟨node, stage, hbound, hfirst, hscope⟩ := h
  refine gives_bind.mpr ⟨var, s, gives_lift.mpr ⟨rfl, rfl⟩, ?_⟩
  rw [gives_boundNode_bind, hbound]
  rw [gives_getNode_bind, hfirst]
  refine gives_bind.mpr ⟨⟨var, name⟩, s, gives_pullFrom_scanned _ ?_, gives_pure.mpr ⟨rfl, rfl⟩⟩
  rw [hfirst]
  exact hscope

theorem matches_propertyValue (base : Expr) (name : String) :
    Matches var (propertyValue base name) (propertyValue base name) (Retargeted var) := by
  intro c d s s' b t' hcd hs hlifted hrun
  unfold propertyValue at hrun ⊢
  simp only [gives_read_bind] at hrun ⊢
  rw [hcd.target] at hrun
  rw [hcd.query]
  cases base with
  | varRef owner t =>
    dsimp only at hrun ⊢
    split at hrun
    · rename_i howner
      subst howner
      obtain ⟨rfl, rfl⟩ := gives_pure.mp hrun
      rw [← hlifted]
      exact ⟨_, gives_boundColumn_scanned hs t name, rfl, by simp [onTarget]⟩
    · exact (not_gives_fail hrun).elim
  | _ => exact (not_gives_fail hrun).elim

/-! ## Scalar expressions -/

/-- No relation, and no null of a type that values cannot have. A call is written as a call whatever its type
    is. -/
def isScalar : Expr → Bool
  | .call .. => true
  | .null t => t.kind?.isSome
  | e => !e.isRelational

theorem passesChoices_isScalar : Expr.PassesChoices isScalar where
  caseOf _ _ _ := rfl
  isNull _ _ := rfl
  call _ _ _ := rfl

section

variable {p p' : Parts}

/-- The parts are compiled in a query to what they are in a change, up to the replacements. -/
def PartsMatch (var : String) (p p' : Parts) : Prop :=
  ∀ e : Expr, e.everyNode isScalar = true → Matches var (p.value e) (p'.value e) (Retargeted var)

theorem PartsMatch.compiles (h : PartsMatch var p p') {es : List Expr}
    (hes : ∀ e ∈ es, e.everyNode isScalar = true) : (targeting var).Compiles p.value p'.value es :=
  fun e he _ => h e (hes e he)

theorem PartsMatch.compilesAll (h : PartsMatch var p p') {es : List Expr}
    (hes : Expr.everyNodeOfAll isScalar es = true) : (targeting var).Compiles p.value p'.value es :=
  h.compiles (Expr.everyNodeOfAll_iff.mp hes)

theorem matches_reducedCaseValue (h : PartsMatch var p p') {e : Expr} (he : e.everyNode isScalar = true) :
    Matches var (reducedCaseValue p e) (reducedCaseValue p' e) (Retargeted var) := by
  cases e with
  | caseOf ws ts o =>
    obtain ⟨hw, ht, ho⟩ := Expr.everyNode_caseOf he
    exact Comparison.steps_caseValue (C := targeting var) (w := ()) (h.compiles hw) (h.compiles ht)
      (h.compiles (List.forall_mem_singleton.mpr ho))
  | _ => exact h _ he

theorem matches_valueStep (h : PartsMatch var p p') {e : Expr} (he : e.everyNode isScalar = true) :
    Matches var (valueStep p e) (valueStep p' e) (Retargeted var) := by
  have hR := congruence_retargeted var
  have hone {a : Expr} (ha : a.everyNode isScalar = true) {f : SqlExpr → SqlExpr}
      (hf : ∀ {x y}, Retargeted var x y → Retargeted var (f x) (f y)) :
      Matches var (do return f (← p.value a)) (do return f (← p'.value a)) (Retargeted var) :=
    matches_bind (h a ha) fun hx => matches_pure (hf hx)
  have hpair {a b : Expr} (ha : a.everyNode isScalar = true) (hb : b.everyNode isScalar = true) (op : BinaryOp) :
      Matches var (binaryValue p op a b) (binaryValue p' op a b) (Retargeted var) :=
    Comparison.steps_binaryValue (C := targeting var) (w := ()) op
      (h.compiles (List.forall_mem_cons.mpr ⟨ha, List.forall_mem_singleton.mpr hb⟩))
  have hall := he
  unfold Expr.everyNode at he
  obtain ⟨htest, he⟩ := Bool.and_eq_true_iff.mp he
  cases e with
  | constant v => exact matches_constantValue v
  | null t => exact matches_nullValue htest
  | paramRef name t => exact matches_pure ⟨bne_iff_ne.mpr (placeholder_ne_null name), rfl⟩
  | varRef name t => exact matches_fail _
  | property base name t => exact matches_propertyValue base name
  | comparison op a b | and a b | or a b | like a b =>
    obtain ⟨ha, hb⟩ := Bool.and_eq_true_iff.mp he
    exact hpair ha hb _
  | arithmetic op args => exact Comparison.steps_arithmeticValue (C := targeting var) (w := ()) op (h.compilesAll he)
  | not e => exact hone he hR.negate
  | isNull e => exact hone he (hR.trailing _)
  | isEmpty e => exact hone he fun hx => hR.negate (hR.exists_ hx)
  | element e => exact hone he fun hx => ⟨hx.1, congrArg SqlExpr.paren hx.2⟩
  | isIn item list =>
    obtain ⟨hitem, hlist⟩ := Bool.and_eq_true_iff.mp he
    exact Comparison.steps_isInValue (C := targeting var) (w := ())
      (h.compiles (List.forall_mem_cons.mpr ⟨hitem, Expr.everyNodeOfAll_iff.mp hlist⟩))
  | cast e t =>
    refine matches_bind (h e he) fun hx => ?_
    refine matches_bind (Comparison.steps_lift (C := targeting var) (w := ()) _) fun htype => ?_
    subst htype
    exact matches_pure (hR.cast hx _)
  | caseOf ws ts o =>
    exact matches_reducedCaseValue h (Expr.everyNode_reduce passesChoices_isScalar hall)
  | call f args t => exact Comparison.steps_callValue (C := targeting var) (w := ()) f t (h.compilesAll he)
  | newInstance t args =>
    have hrow : t.element?.isSome = false := by simpa [isScalar, Expr.isRelational] using htest
    rw [valueStep, valueStep, hrow]
    exact matches_fail _
  | scan | filter | project | sort | skip | limit | distinct | groupBy | join | setOp => cases htest

end

theorem partsMatch_partsTo (var : String) (n : Nat) : PartsMatch var (partsTo n) (partsTo n) := by
  induction n with
  | zero => exact fun _ _ => matches_fail _
  | succ n ih => exact fun _ he => matches_valueStep ih he

theorem matches_value (var : String) {e : Expr} (he : e.everyNode isScalar = true) :
    Matches var (value e) (value e) (Retargeted var) := partsMatch_partsTo var _ e he

/-- A scalar expression that is compiled over the target of a change is compiled in a query too, where its
    variable is scanned. It lifts the same constants, and differs as `onTarget` says and in nothing else. -/
theorem value_of_target {var : String} {e : Expr} (he : e.everyNode isScalar = true) {c d : Context}
    (hcd : Beside var c d) {s s' t' : State} (hs : Scanned var c s) (hlifted : s.lifted = s'.lifted) {b : SqlExpr}
    (h : Gives (value e) d s' b t') :
    ∃ a, Gives (value e) c s a { s with lifted := t'.lifted } ∧ a.nullsTyped = true ∧ a.onTarget var = b := by
  obtain ⟨a, ha, htyped, rfl⟩ := matches_value var he c d s s' b t' hcd hs hlifted h
  exact ⟨a, ha, htyped, rfl⟩

namespace Films

/-- `film.title = 'Dune' AND NULL IS NULL`. -/
def titled : Expr :=
  .and (.comparison .equals (.property (.varRef "film" (.ofMembers [⟨"title", .string⟩])) "title" .string)
      (.constant (.string "Dune")))
    (.isNull (.null .string))

/-- Films are scanned. -/
def scannedFilms : State where
  stages := [.ofSource (.table "films") "film"]
  nodes := [{ first := ⟨"film", 0⟩ }]
  bindings := [("film", 0)]

theorem titled_over_target :
    ∃ a, Gives (value titled) { mode := .query, liftConstants := true, scopes := [0] } scannedFilms a
        { scannedFilms with lifted := [.string "Dune"] } ∧ a.nullsTyped = true ∧
      a.onTarget "film" =
        .binary .and (.binary .equals (.property "title") (.verbatim "@p_0")) (.trailing .isNull (.verbatim "NULL")) := by
  have hchange : Gives (value titled) { mode := .target "film", liftConstants := true } {}
      (.binary .and (.binary .equals (.property "title") (.verbatim "@p_0")) (.trailing .isNull (.verbatim "NULL")))
      { lifted := [.string "Dune"] } := rfl
  have hscanned : Scanned "film" { mode := .query, liftConstants := true, scopes := [0] } scannedFilms :=
    ⟨0, 0, rfl, rfl, by decide⟩
  have hscalar : titled.everyNode isScalar = true := by decide
  have hbeside : Beside "film" { mode := .query, liftConstants := true, scopes := [0] }
      { mode := .target "film", liftConstants := true } := ⟨rfl, rfl, rfl⟩
  have hlifted : scannedFilms.lifted = ({} : State).lifted := rfl
  exact value_of_target hscalar hbeside hscanned hlifted hchange

end Films

/-- Scanning the table of the target is a way to get to where the variable is scanned. -/
theorem scanned_rows {var : String} {set : EntitySet} {c : Context} {s t : State} {node : NodeId}
    (h : Gives (rows (.scan set) var) c s node t) :
    (nodeAt t.nodes node).last = ⟨var, s.stages.length⟩ ∧
      Scanned var { c with scopes := s.stages.length :: c.scopes } t := by
  obtain ⟨u, hpush, rfl⟩ := rowsStep_inv h
  obtain ⟨rfl, rfl⟩ := gives_pushSource.mp hpush
  have hnode : nodeAt (s.nodes ++ [({ first := ⟨var, s.stages.length⟩ } : Node)]) s.nodes.length =
      { first := ⟨var, s.stages.length⟩ } := by
    rw [nodeAt, List.getElem?_concat_length, Option.getD_some]
  refine ⟨congrArg Node.last hnode, s.nodes.length, s.stages.length, ?_, congrArg Node.first hnode, .head _⟩
  simp

theorem scan_succeeds (set : EntitySet) (var : String) (c : Context) (s : State) :
    ∃ node t, Gives (rows (.scan set) var) c s node t ∧ t.lifted = s.lifted :=
  ⟨_, _, gives_bind.mpr ⟨_, _, gives_pushSource.mpr ⟨rfl, rfl⟩, gives_bind.mpr
    ⟨_, _, gives_bindVar.mpr ⟨rfl, rfl⟩, gives_pure.mpr ⟨rfl, rfl⟩⟩⟩, rfl⟩

/-- What a change computes over its target, a query computes over a scan. -/
theorem scan_of_target (set : EntitySet) {var : String} {e : Expr} (he : e.everyNode isScalar = true) {c d : Context}
    (hcd : Beside var c d) {s s' t' : State} (hlifted : s.lifted = s'.lifted) {b : SqlExpr}
    (h : Gives (value e) d s' b t') :
    ∃ a t, Gives (do
        let node ← rows (.scan set) var
        inScope (← openStage node).stage (value e)) c s a t ∧
      t.lifted = t'.lifted ∧ a.nullsTyped = true ∧ a.onTarget var = b := by
  obtain ⟨node, u, hrows, hu⟩ := scan_succeeds set var c s
  obtain ⟨hlast, hscanned⟩ := scanned_rows hrows
  have hinside : Beside var { c with scopes := s.stages.length :: c.scopes } d := ⟨hcd.query, hcd.target, hcd.lift⟩
  obtain ⟨a, ha, htyped, rfl⟩ := matches_value var he _ d u s' b t' hinside hscanned (hu.trans hlifted) h
  refine ⟨a, { u with lifted := t'.lifted }, ?_, rfl, htyped, rfl⟩
  refine gives_bind.mpr ⟨node, u, hrows, gives_bind.mpr ⟨_, u, gives_openStage.mpr ⟨hlast.symm, rfl⟩, ?_⟩⟩
  exact gives_inScope.mpr ha

end Compile

end TreeSql
