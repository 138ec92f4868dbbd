import TreeSql.Compile.Tree
import TreeSql.Proofs.Compile.ColumnComparison
import TreeSql.Proofs.Compile.Run
import TreeSql.Proofs.Compile.UpToConstants
import TreeSql.Proofs.Expr.Equivalence

/-
  TreeSql.Proofs.Compile.Interchange — equivalent expressions compile to the same SQL.

  A `CASE` is reduced to a call of `coalesce` where the value that it tests and the one that it gives are
  equivalent. `value_interchange`: two equivalent expressions both fail, or both are compiled to SQL that is
  written in the same way but for constants that are equal, if their quoted calls have the same names
  (`quotedNames`). Two such calls are compared by the space and the name of their functions only, but they are
  written with the schema and the name in the store; so they may be equivalent and call different functions.

  The two compilations run side by side (`interchanging`, a comparison) from states that differ at most in the
  constants that have been lifted. The induction is that of equivalent expressions.
-/
namespace TreeSql

open Compile Sql Postgres

/-! ## The names of quoted calls -/

namespace Expr

/-- What the function of a quoted call is written as. -/
def quotedName? : Expr → Option String
  | call f _ _ =>
    if f.isCanonical || f.isStore && (StoreFunction.ofName? f.name).isSome then none else some (callName f)
  | _ => none

/-- What the functions of the quoted calls in an expression are written as, in order. -/
def quotedNames (e : Expr) : List String := e.nodes.filterMap quotedName?

variable {a b : Expr}

theorem isSome_quotedName? (h : EqualNodes a b) : a.quotedName?.isSome = b.quotedName?.isSome := by
  cases h with
  | @call f g _ _ _ _ hspace hname _ =>
    simp only [quotedName?, FunctionRef.isCanonical, FunctionRef.isStore, hspace, hname]
    split <;> simp [*]
  | _ => rfl

theorem length_filterMap_of_forall₂ {as bs : List Expr} (h : List.Forall₂ EqualNodes as bs) :
    (as.filterMap quotedName?).length = (bs.filterMap quotedName?).length := by
  induction h with
  | nil => rfl
  | @cons a b as bs h _ ih =>
    have hsome := isSome_quotedName? h
    cases ha : a.quotedName? <;> cases hb : b.quotedName? <;> simp_all

/-- Equivalent expressions have as many quoted calls. -/
theorem length_quotedNames (h : equivalent a b = true) : a.quotedNames.length = b.quotedNames.length :=
  length_filterMap_of_forall₂ (nodes_of_equivalent h)

/-- Where the names in two pairs of equivalent expressions are the same, they are the same in each pair. -/
theorem quotedNames_of_append {as bs : List Expr} (h : equivalent a b = true)
    (hnames : (a.nodes ++ as).filterMap quotedName? = (b.nodes ++ bs).filterMap quotedName?) :
    a.quotedNames = b.quotedNames ∧ as.filterMap quotedName? = bs.filterMap quotedName? := by
  rw [List.filterMap_append, List.filterMap_append] at hnames
  exact List.append_inj hnames (length_quotedNames h)

variable {R : Expr → Expr → Prop}

/-- Equivalent expressions in which the quoted calls have the same names. -/
structure Named (R : Expr → Expr → Prop) (a b : Expr) : Prop where
  equivalent : equivalent a b = true
  related : R a b
  names : a.quotedNames = b.quotedNames

theorem named_of_all {as bs : List Expr} (h : List.Forall₂ (fun x y => equivalent x y = true ∧ R x y) as bs)
    (hnames : (nodesOfAll as).filterMap quotedName? = (nodesOfAll bs).filterMap quotedName?) :
    List.Forall₂ (Named R) as bs := by
  induction h with
  | nil => exact .nil
  | cons hxy _ ih =>
    obtain ⟨hfirst, hrest⟩ := quotedNames_of_append hxy.1 hnames
    exact .cons ⟨hxy.1, hxy.2, hfirst⟩ (ih hrest)

theorem quotedNames_of_cons {as bs : List Expr} (h : EqualNodes a b)
    (hnames : (a :: as).filterMap quotedName? = (b :: bs).filterMap quotedName?) :
    a.quotedName? = b.quotedName? ∧ as.filterMap quotedName? = bs.filterMap quotedName? := by
  have hsome := isSome_quotedName? h
  cases ha : a.quotedName? <;> cases hb : b.quotedName? <;> simp_all

/-- Where the names in two expressions are the same, they are the same at the top and in each pair of parts. -/
theorem EqualParts.named (h : EqualParts (fun x y => equivalent x y = true ∧ R x y) a b)
    (hnames : a.quotedNames = b.quotedNames) : EqualParts (Named R) a b ∧ a.quotedName? = b.quotedName? := by
  have hsplit {as bs : List Expr} (ha : a.nodes = a :: as) (hb : b.nodes = b :: bs) :
      a.quotedName? = b.quotedName? ∧ as.filterMap quotedName? = bs.filterMap quotedName? := by
    rw [Expr.quotedNames, Expr.quotedNames, ha, hb] at hnames
    exact quotedNames_of_cons (h.mono fun _ _ _ => trivial) hnames
  have hpair {x y x' y' : Expr} (hx : equivalent x x' = true ∧ R x x') (hy : equivalent y y' = true ∧ R y y')
      (hrest : (x.nodes ++ y.nodes).filterMap quotedName? = (x'.nodes ++ y'.nodes).filterMap quotedName?) :
      Named R x x' ∧ Named R y y' := by
    obtain ⟨hleft, hright⟩ := quotedNames_of_append hx.1 hrest
    exact ⟨⟨hx.1, hx.2, hleft⟩, hy.1, hy.2, hright⟩
  cases h with
  | call hspace hname hargs =>
    obtain ⟨htop, hrest⟩ := hsplit rfl rfl
    exact ⟨.call hspace hname (named_of_all hargs hrest), htop⟩
  | constant hv => exact ⟨.constant hv, rfl⟩
  | varRef name => exact ⟨.varRef name, rfl⟩
  | paramRef name => exact ⟨.paramRef name, rfl⟩
  | arithmetic op hargs => exact ⟨.arithmetic op (named_of_all hargs (hsplit rfl rfl).2), rfl⟩
  | comparison op hl hr =>
    obtain ⟨hl, hr⟩ := hpair hl hr (hsplit rfl rfl).2
    exact ⟨.comparison op hl hr, rfl⟩
  | and hl hr =>
    obtain ⟨hl, hr⟩ := hpair hl hr (hsplit rfl rfl).2
    exact ⟨.and hl hr, rfl⟩
  | or hl hr =>
    obtain ⟨hl, hr⟩ := hpair hl hr (hsplit rfl rfl).2
    exact ⟨.or hl hr, rfl⟩
  | not hx => exact ⟨.not ⟨hx.1, hx.2, (hsplit rfl rfl).2⟩, rfl⟩
  | isNull hx => exact ⟨.isNull ⟨hx.1, hx.2, (hsplit rfl rfl).2⟩, rfl⟩
  | cast hx ht => exact ⟨.cast ⟨hx.1, hx.2, (hsplit rfl rfl).2⟩ ht, rfl⟩
  | property hx name => exact ⟨.property ⟨hx.1, hx.2, (hsplit rfl rfl).2⟩ name, rfl⟩

end Expr

namespace Compile

open TreeSql.Expr (EqualNodes EqualParts equivalent)

/-! ## Steps side by side -/

/-- The same state, but that equal constants may have been lifted. -/
structure SameButLifted (s t : State) : Prop where
  stages : s.stages = t.stages
  nodes : s.nodes = t.nodes
  bindings : s.bindings = t.bindings
  aliases : s.aliases = t.aliases
  lifted : List.Forall₂ Value.Same s.lifted t.lifted

theorem sameButLifted_refl (s : State) : SameButLifted s s :=
  ⟨rfl, rfl, rfl, rfl, List.forall₂_same.mpr fun _ _ => .inl rfl⟩

/-- From states that are the same but for lifted constants, both steps fail, or both lead to such states and give
    results that are related. -/
def SideBySide {α : Type} (m m' : CompileM α) (R : α → α → Prop) : Prop :=
  ∀ (c : Context) (s s' : State), SameButLifted s s' →
    FailTogether (fun r r' => SameButLifted r.2 r'.2 ∧ R r.1 r'.1) (m.run c s) (m'.run c s')

section

variable {α β : Type} {R : α → α → Prop}

theorem sideBySide_pure {a b : α} (h : R a b) : SideBySide (pure a) (pure b) R := fun _ _ _ hs => .ok ⟨hs, h⟩

theorem sideBySide_fail (e e' : Error) : SideBySide (.fail e) (.fail e') R := fun _ _ _ _ => .error e e'

theorem sideBySide_bind {m m' : CompileM α} {f f' : α → CompileM β} {R' : β → β → Prop} (hm : SideBySide m m' R)
    (hf : ∀ {a b}, R a b → SideBySide (f a) (f' b) R') : SideBySide (m >>= f) (m' >>= f') R' := by
  intro c s s' hs
  have hfirst := hm c s s' hs
  rw [run_bind, run_bind]
  generalize m.run c s = x, m'.run c s' = y at hfirst
  cases hfirst with
  | error e e' => exact .error e e'
  | @ok r r' h => exact hf h.2 c r.2 r'.2 h.1

theorem sideBySide_lift {x y : Except Error α} (h : FailTogether R x y) : SideBySide (liftM x) (liftM y) R := by
  cases h with
  | error e e' => exact sideBySide_fail e e'
  | ok h => exact sideBySide_pure h

theorem sideBySide_pullColumn (id : StageId) (source column : String) :
    SideBySide (pullColumn id source column) (pullColumn id source column) (· = ·) := by
  intro c s s' hs
  have hstages := hs.stages
  have haliases := hs.aliases
  refine .ok ⟨⟨?_, hs.nodes, hs.bindings, ?_, hs.lifted⟩, ?_⟩ <;> simp only [Step.apply, hstages, haliases]

end

/-- Two compilations of one expression, or of two that are equivalent. -/
def interchanging : ColumnComparison where
  World := Unit
  Le _ _ := True
  Alike _ := UpToConstants
  Steps _ m m' R := SideBySide m m' (R ())
  refl _ := trivial
  trans _ _ := trivial
  later _ h := h
  congruence _ := congruence_upToConstants
  pure h := sideBySide_pure (h () trivial)
  bind hm hf := sideBySide_bind hm fun hab => hf (u := ()) trivial hab
  fail e := sideBySide_fail e e
  alike_columnRef _ := .columnRef
  alike_property _ := .property
  steps_context h := fun c s s' hs => @h c c rfl rfl c s s' hs
  steps_boundNode _ var := fun _ _ _ hs => .ok ⟨hs, congrArg (·.lookup var) hs.bindings⟩
  steps_node _ id := fun _ _ _ hs => .ok ⟨hs, congrArg (fun nodes => (nodes[id]?).getD _) hs.nodes⟩
  steps_pullColumn _ := sideBySide_pullColumn

theorem sideBySide_constantValue {v w : Value} (h : v.Same w) :
    SideBySide (constantValue v) (constantValue w) UpToConstants := by
  intro ⟨mode, lift, scopes⟩ s s' hs
  cases lift with
  | true =>
    have hname : UpToConstants (.verbatim (placeholder (liftedName s.lifted.length)))
        (.verbatim (placeholder (liftedName s'.lifted.length))) := by
      rw [hs.lifted.length_eq]
      exact .refl _
    exact .ok ⟨{ hs with lifted := List.rel_append hs.lifted (.cons h .nil) }, hname⟩
  | false => exact .ok ⟨hs, .constant h⟩

/-! ## What is read off equal arguments -/

section

variable {v w : Value} {a b : Expr} {as bs : List Expr}

/-- Constants that are equal and not the same are of a kind that is read nowhere but in the weights of a rank. -/
theorem readings_eqv (h : v.eqv w = true) :
    weightLetter? (.constant v) = weightLetter? (.constant w) ∧ regexOptions (.constant v) = regexOptions (.constant w) ∧
      castTargetName (.constant v) = castTargetName (.constant w) := by
  cases equalValues_of_eqv h <;> exact ⟨rfl, rfl, rfl⟩

theorem readings_equal (h : EqualNodes a b) :
    weightLetter? a = weightLetter? b ∧ regexOptions a = regexOptions b ∧ castTargetName a = castTargetName b := by
  cases h with
  | constant h => exact readings_eqv h
  | _ => exact ⟨rfl, rfl, rfl⟩

theorem rankWeight_eqv (h : v.eqv w = true) :
    FailTogether TextAlike (rankWeight (.constant v)) (rankWeight (.constant w)) := by
  cases equalValues_of_eqv h with
  | single | double | decimal => exact .ok (.weight (.inr h) rfl rfl)
  | moment => exact .error _ _
  | same =>
    cases rankWeight (.constant v) with
    | error e => exact .error e e
    | ok x => exact .ok (.same x)

theorem rankWeight_equal (h : EqualNodes a b) : FailTogether TextAlike (rankWeight a) (rankWeight b) := by
  cases h with
  | constant h => exact rankWeight_eqv h
  | _ => exact .error _ _

theorem rankWeights_equal (h : List.Forall₂ EqualNodes as bs) :
    FailTogether (List.Forall₂ TextAlike) (rankWeights as) (rankWeights bs) := by
  induction h with
  | nil => exact .ok .nil
  | @cons a b as bs h _ ih =>
    have hfirst := rankWeight_equal h
    rw [rankWeights, rankWeights]
    generalize rankWeight a = x, rankWeight b = y at hfirst
    cases hfirst with
    | error e e' => exact .error e e'
    | ok hxy =>
      generalize rankWeights as = xs, rankWeights bs = ys at ih
      cases ih with
      | error e e' => exact .error e e'
      | ok hrest => exact .ok (.cons hxy hrest)

theorem weightsLiteral_alike {xs ys : List String} (h : List.Forall₂ TextAlike xs ys) :
    UpToConstants (weightsLiteral xs) (weightsLiteral ys) :=
  .verbatim (((TextAlike.same _).append (.intercalate _ h)).append (.same _))

theorem map_eq_of_forall₂ {α : Type} {f : Expr → α} (hf : ∀ {x y}, EqualNodes x y → f x = f y)
    (h : List.Forall₂ EqualNodes as bs) : as.map f = bs.map f := by
  induction h with
  | nil => rfl
  | cons h _ ih => rw [List.map_cons, List.map_cons, hf h, ih]

theorem readsEach_equal (h : List.Forall₂ EqualNodes as bs) : interchanging.ReadsEach as bs where
  letters := map_eq_of_forall₂ (fun h => (readings_equal h).1) h
  options := map_eq_of_forall₂ (fun h => (readings_equal h).2.1) h
  targets := map_eq_of_forall₂ (fun h => (readings_equal h).2.2) h
  weights n _ := sideBySide_lift ((rankWeights_equal (List.forall₂_take n h)).mono fun _ _ => weightsLiteral_alike)

/-! ## Values -/

/-- Which column a property is, and how an error names its base, is the same. -/
theorem propertyValue_equal (h : EqualNodes a b) (name : String) : propertyValue a name = propertyValue b name := by
  cases h <;> rfl

theorem castTarget_sameType {t u : DataType} (h : t.SameType u) : FailTogether (· = ·) (castTarget t) (castTarget u) := by
  cases t <;> cases u <;> cases h
  · exact .ok rfl
  · exact .error _ _
  · exact .error _ _

end

/-- The type of the result shows in errors only. -/
theorem sideBySide_canonicalValue {v v' : Expr → CompileM SqlExpr} (name : String) {as bs : List Expr} (t u : DataType)
    (h : interchanging.CompilesEach v v' as bs) :
    SideBySide (canonicalValue v name as t) (canonicalValue v' name bs u) UpToConstants := by
  cases hname : CanonicalFunction.ofName? name with
  | none =>
    simp only [canonicalValue, hname]
    exact sideBySide_fail _ _
  | some f =>
    have htype : canonicalValue v' name bs u = canonicalValue v' name bs t := by
      unfold canonicalValue
      rw [hname]
      cases f <;> rcases bs with _ | ⟨_, _ | ⟨_, _ | ⟨_, _ | ⟨_, _⟩⟩⟩⟩ <;> rfl
    rw [htype]
    exact Comparison.steps_canonicalValue_each (C := interchanging.toComparison) (w := ()) name t h

theorem sideBySide_callValue {v v' : Expr → CompileM SqlExpr} {f g : FunctionRef} (hspace : f.space = g.space)
    (hname : f.name = g.name) {as bs : List Expr} {t u : DataType}
    (hquoted : (Expr.call f as t).quotedName? = (Expr.call g bs u).quotedName?)
    (h : interchanging.CompilesEach v v' as bs) (hequal : List.Forall₂ EqualNodes as bs) :
    SideBySide (callValue v f as t) (callValue v' g bs u) UpToConstants := by
  have hcanonical : f.isCanonical = g.isCanonical := by simp only [FunctionRef.isCanonical, hspace]
  have hstore : f.isStore = g.isStore := by simp only [FunctionRef.isStore, hspace]
  unfold callValue
  simp only [Expr.quotedName?] at hquoted
  rw [hcanonical, hstore, hname] at hquoted ⊢
  by_cases hg : g.isCanonical = true
  · rw [if_pos hg, if_pos hg]
    exact sideBySide_canonicalValue g.name t u h
  · rw [if_neg hg, if_neg hg]
    cases hfun : if g.isStore then StoreFunction.ofName? g.name else none with
    | some k => exact Comparison.steps_storeValue_each (C := interchanging.toComparison) (w := ()) k g.name h (readsEach_equal hequal)
    | none =>
      have hwritten : callName f = callName g := by
        cases hs : g.isStore <;> simp_all
      dsimp only
      rw [hwritten]
      exact Comparison.steps_call_each (C := interchanging.toComparison) (w := ()) h (callName g)

variable {a b : Expr}

/-- One step on parts that can be interchanged. -/
theorem sideBySide_valueStep {p : Parts}
    (h : EqualParts (fun x y => SideBySide (p.value x) (p.value y) UpToConstants ∧ EqualNodes x y) a b)
    (hquoted : a.quotedName? = b.quotedName?) :
    SideBySide (valueStep p a) (valueStep p b) UpToConstants := by
  have hpair {x y x' y' : Expr} (op : BinaryOp) (hx : SideBySide (p.value x) (p.value x') UpToConstants)
      (hy : SideBySide (p.value y) (p.value y') UpToConstants) :
      SideBySide (binaryValue p op x y) (binaryValue p op x' y') UpToConstants :=
    Comparison.steps_binaryValue_each (C := interchanging.toComparison) (w := ()) op
      (.cons (fun _ => hx) (.cons (fun _ => hy) .nil))
  have hone {x y : Expr} {f : SqlExpr → SqlExpr} (hf : ∀ {x y}, UpToConstants x y → UpToConstants (f x) (f y))
      (hx : SideBySide (p.value x) (p.value y) UpToConstants) :
      SideBySide (do return f (← p.value x)) (do return f (← p.value y)) UpToConstants :=
    sideBySide_bind hx fun hab => sideBySide_pure (hf hab)
  have hall {as bs : List Expr}
      (h : List.Forall₂ (fun x y => SideBySide (p.value x) (p.value y) UpToConstants ∧ EqualNodes x y) as bs) :
      interchanging.CompilesEach p.value p.value as bs := h.imp fun _ _ hxy _ => hxy.1
  cases h with
  | call hspace hname hargs =>
    exact sideBySide_callValue hspace hname hquoted (hall hargs) (hargs.imp fun _ _ hxy => hxy.2)
  | constant hv => exact sideBySide_constantValue (.inr hv)
  | comparison op hl hr => exact hpair _ hl.1 hr.1
  | and hl hr => exact hpair _ hl.1 hr.1
  | or hl hr => exact hpair _ hl.1 hr.1
  | arithmetic op hargs =>
    exact Comparison.steps_arithmeticValue_each (C := interchanging.toComparison) (w := ()) op (hall hargs)
  | not hx => exact hone .negate hx.1
  | isNull hx => exact hone (.trailing _) hx.1
  | cast hx ht =>
    refine sideBySide_bind hx.1 fun hab => ?_
    refine sideBySide_bind (sideBySide_lift (castTarget_sameType ht)) fun htype => ?_
    subst htype
    exact sideBySide_pure (.cast hab _)
  | property hx name =>
    rw [valueStep, valueStep, propertyValue_equal hx.2]
    exact ColumnComparison.steps_propertyValue (C := interchanging) (w := ()) _ name
  | varRef name => exact sideBySide_fail _ _
  | paramRef name => exact sideBySide_pure (.refl _)

theorem sideBySide_partsTo (h : equivalent a b = true) (hnames : a.quotedNames = b.quotedNames) (n : Nat) :
    SideBySide ((partsTo n).value a) ((partsTo n).value b) UpToConstants := by
  revert hnames n
  refine Expr.equivalent_induct (P := fun x y => x.quotedNames = y.quotedNames → ∀ n,
    SideBySide ((partsTo n).value x) ((partsTo n).value y) UpToConstants) (fun hab hnames n => ?_) h
  obtain ⟨hparts, hquoted⟩ := hab.named hnames
  cases n with
  | zero => exact sideBySide_fail _ _
  | succ n =>
    refine sideBySide_valueStep (hparts.mono fun _ _ hxy => ?_) hquoted
    exact ⟨hxy.related hxy.names n, Expr.equalNodes_of_equivalent hxy.equivalent⟩

/-- Equivalent expressions, or an expression and itself, both fail in a context, or both are compiled to SQL that is
    written in the same way but for constants that are equal. They do the same to the state. -/
theorem value_interchange (h : a = b ∨ equivalent a b = true ∧ a.quotedNames = b.quotedNames) (c : Context)
    (s : State) :
    FailTogether
      (fun r r' => UpToConstants r.1 r'.1 ∧ SameButLifted r.2 r'.2 ∧
        ∀ regime, TextAlike (r.1.render regime r.2.stages) (r'.1.render regime r'.2.stages))
      ((value a).run c s) ((value b).run c s) := by
  rcases h with rfl | ⟨h, hnames⟩
  · cases (value a).run c s with
    | error e => exact .error e e
    | ok r => exact .ok ⟨.refl _, sameButLifted_refl _, fun _ => .same _⟩
  · have hside := sideBySide_partsTo h hnames (levels a) c s s (sameButLifted_refl s)
    have hlevels : levels b = levels a := by rw [levels, levels, Expr.size_of_equivalent h]
    rw [value, value, hlevels]
    refine hside.mono fun r r' ⟨hstate, hab⟩ => ⟨hab, hstate, fun regime => ?_⟩
    rw [SqlExpr.render, SqlExpr.render, hstate.stages]
    exact hab.renderWith regime _ none

namespace Films

/-- A call of a function of the database. -/
def scoreOf (schema : String) (args : List Expr) : Expr :=
  .call { space := "Store", name := "Score", schema := some schema } args (.ofKind .decimal)

/-- A number with the given places, where `15` with one place is `1.5`. -/
def number (coefficient places : Nat) : Expr :=
  match Number.Decimal.make? false coefficient places with
  | some x => .constant (.decimal x)
  | none => .null (.ofKind .decimal)

theorem scores_alike :
    ∃ x y, Gives (value (scoreOf "old" [number 15 1])) { mode := .query, liftConstants := false } {} x {} ∧
      Gives (value (scoreOf "old" [number 150 2])) { mode := .query, liftConstants := false } {} y {} ∧
      x.render .modern [] = "\"old\".\"Score\"(1.5::numeric)" ∧
      y.render .modern [] = "\"old\".\"Score\"(1.50::numeric)" ∧
      TextAlike (x.render .modern []) (y.render .modern []) := by
  have hequivalent : equivalent (scoreOf "old" [number 15 1]) (scoreOf "old" [number 150 2]) = true := by decide +kernel
  have hnames : (scoreOf "old" [number 15 1]).quotedNames = (scoreOf "old" [number 150 2]).quotedNames := by
    decide +kernel
  have hsame := value_interchange (.inr ⟨hequivalent, hnames⟩) { mode := .query, liftConstants := false } {}
  refine ⟨_, _, rfl, rfl, by decide +kernel, by decide +kernel, ?_⟩
  cases hsame with
  | ok h => exact h.2.2 .modern

/-- Functions of two schemas are taken for one. So where the old score is tested and the new one is given, the old
    one is given. -/
theorem schemas_mixed_up :
    equivalent (scoreOf "old" []) (scoreOf "new" []) = true ∧
      (∀ (c : Context) (s : State), ∃ x y, Gives (value (scoreOf "old" [])) c s x s ∧
        Gives (value (scoreOf "new" [])) c s y s ∧ ¬UpToConstants x y ∧ ∀ regime stages,
          x.render regime stages = "\"old\".\"Score\"()" ∧ y.render regime stages = "\"new\".\"Score\"()") ∧
      Expr.reduce (.caseOf [.isNull (scoreOf "old" [])] [number 0 0] (scoreOf "new" [])) =
        .call (.store "coalesce") [scoreOf "old" [], number 0 0] (.ofKind .decimal) := by
  have hold : callName { space := "Store", name := "Score", schema := some "old" } ++ inParens (", ".intercalate []) =
      "\"old\".\"Score\"()" := by decide +kernel
  have hnew : callName { space := "Store", name := "Score", schema := some "new" } ++ inParens (", ".intercalate []) =
      "\"new\".\"Score\"()" := by decide +kernel
  refine ⟨by decide +kernel, fun c s => ⟨_, _, rfl, rfl, ?_, fun regime stages => ⟨hold, hnew⟩⟩, rfl⟩
  intro h
  cases h

end Films

end Compile

end TreeSql
