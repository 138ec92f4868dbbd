import TreeSql.Proofs.Expr.Nodes
import TreeSql.Proofs.Quoting.Steps
import TreeSql.Proofs.Quoting.Types

/-
  TreeSql.Proofs.Quoting.Values — values are compiled to safe expressions.

  One lemma for each function of `Compile.Function` and `Compile.Scalar`: the value is safe if those of the
  arguments are. The texts that are written as they are, names of functions and types, weights and letters,
  are fixed or checked; everything else is quoted.
-/
namespace TreeSql.Compile

open Sql Postgres Quoting

variable {value : Expr → CompileM SqlExpr} {a b c : SqlExpr}

/-- The arguments are compiled to safe expressions. -/
def MakesValues (value : Expr → CompileM SqlExpr) (args : List Expr) : Prop :=
  ∀ e ∈ args, Makes (value e) SqlExpr.Safe

/-! ## Arguments -/

theorem makes_valuesOf {args : List Expr} (h : MakesValues value args) :
    Makes (valuesOf value args) fun es => ∀ e ∈ es, e.Safe := by
  induction args with
  | nil => exact makes_pure (by simp)
  | cons e es ih =>
    refine makes_bind (h e (.head _)) fun v hv => ?_
    refine makes_bind (ih fun e' he' => h e' (.tail _ he')) fun vs hvs => ?_
    exact makes_pure (List.forall_mem_cons.mpr ⟨hv, hvs⟩)

theorem makes_one {e : Expr} (h : MakesValues value [e]) {f : SqlExpr → SqlExpr} (hf : ∀ x : SqlExpr, x.Safe → (f x).Safe) :
    Makes (do return f (← value e)) SqlExpr.Safe :=
  makes_bind (h e (by simp)) fun x hx => makes_pure (hf x hx)

theorem makes_two {e e' : Expr} (h : MakesValues value [e, e']) {f : SqlExpr → SqlExpr → SqlExpr}
    (hf : ∀ x y : SqlExpr, x.Safe → y.Safe → (f x y).Safe) :
    Makes (do return f (← value e) (← value e')) SqlExpr.Safe :=
  makes_bind (h e (by simp)) fun x hx => makes_bind (h e' (by simp)) fun y hy => makes_pure (hf x y hx hy)

theorem makes_three {e e' e'' : Expr} (h : MakesValues value [e, e', e'']) {f : SqlExpr → SqlExpr → SqlExpr → SqlExpr}
    (hf : ∀ x y z : SqlExpr, x.Safe → y.Safe → z.Safe → (f x y z).Safe) :
    Makes (do return f (← value e) (← value e') (← value e'')) SqlExpr.Safe :=
  makes_bind (h e (by simp)) fun x hx => makes_bind (h e' (by simp)) fun y hy =>
    makes_bind (h e'' (by simp)) fun z hz => makes_pure (hf x y z hx hy hz)

theorem makes_call {args : List Expr} {name : String} (hname : Reads name) (h : MakesValues value args) :
    Makes (do return .call name (← valuesOf value args)) SqlExpr.Safe :=
  makes_bind (makes_valuesOf h) fun _ hvs => makes_pure ⟨hname, SqlExpr.safeAll_iff.mpr hvs⟩

/-! ## Canonical functions -/

theorem safe_call {name : String} (hname : runs .clear .any 0 0 name = true) {args : List SqlExpr}
    (h : SqlExpr.SafeAll args) : (SqlExpr.call name args).Safe := ⟨runs_fixed hname, h⟩

theorem safe_cast {type : String} (htype : runs .clear .any 0 0 type = true) (h : a.Safe) : (SqlExpr.cast a type).Safe :=
  ⟨h, runs_fixed htype⟩

theorem safe_position (ha : a.Safe) (hb : b.Safe) : (position a b).Safe :=
  safe_call (by decide) ⟨SqlExpr.safe_between ha hb (runs_fixed (by decide)), trivial⟩

/-- A unit or a part, in quotes. -/
theorem safe_dateTrunc {unit : String} (hunit : runs .clear .any 0 0 ("'" ++ unit ++ "'") = true) (h : a.Safe) :
    (dateTrunc unit a).Safe := safe_call (by decide) ⟨runs_fixed hunit, h, trivial⟩

theorem safe_datePart {part : String} (hpart : runs .clear .any 0 0 ("'" ++ part ++ "'") = true) (h : a.Safe) :
    (datePart part a).Safe := safe_call (by decide) ⟨runs_fixed hpart, h, trivial⟩

theorem safe_extract {part : String} (hpart : runs .clear .clear 0 0 (part ++ " FROM ") = true) (h : a.Safe) :
    (extract part a).Safe := safe_call (by decide) ⟨SqlExpr.safe_after (runs_fixed hpart) h, trivial⟩

theorem safe_secondsOf (h : a.Safe) : (secondsOf a).Safe :=
  safe_call (by decide) ⟨SqlExpr.safe_after (runs_fixed (by decide)) h, trivial⟩

theorem safe_toInt4 (h : a.Safe) : (toInt4 a).Safe := h.followedBy (runs_fixed (by decide))

theorem safe_age {unit : String} (hunit : runs .clear .any 0 0 ("'" ++ unit ++ "'") = true) (ha : a.Safe) (hb : b.Safe) :
    (age (dateTrunc unit b) (dateTrunc unit a)).Safe :=
  safe_call (by decide) ⟨safe_dateTrunc hunit hb, safe_dateTrunc hunit ha, trivial⟩

theorem safe_spanBetween {unit : String} (hunit : runs .clear .any 0 0 ("'" ++ unit ++ "'") = true) (ha : a.Safe)
    (hb : b.Safe) : (spanBetween unit a b).Safe := ⟨safe_dateTrunc hunit hb, safe_dateTrunc hunit ha⟩

theorem safe_nullary (f : NullaryFunction) : f.sql.Safe := by
  cases f <;> exact runs_fixed (by decide)

theorem safe_unary (f : UnaryFunction) (h : a.Safe) : (f.sql a).Safe := by
  have hcall {name : String} (hname : runs .clear .any 0 0 name = true) : (SqlExpr.call name [a]).Safe :=
    safe_call hname ⟨h, trivial⟩
  cases f with
  | length => exact safe_cast (by decide) (hcall (by decide))
  | part p => cases p <;> exact safe_cast (by decide) (safe_extract (by decide) h)
  | totalOffsetMinutes => exact ⟨safe_cast (by decide) (safe_extract (by decide) h), trivial⟩
  | truncateTime => exact safe_dateTrunc (by decide) h
  | bitwiseNot => exact h
  | _ => exact hcall (by decide)

theorem safe_addUnits (unit : TimeUnit) (ha : a.Safe) (hb : b.Safe) : (addUnits unit a b).Safe := by
  cases unit with
  | nanoseconds => exact ⟨ha, ⟨hb, trivial⟩, runs_fixed (by decide)⟩
  | _ => exact ⟨ha, hb, runs_fixed (by decide)⟩

theorem safe_diffUnits (unit : TimeUnit) (ha : a.Safe) (hb : b.Safe) : (diffUnits unit a b).Safe := by
  have hspan {name : String} (hname : runs .clear .any 0 0 ("'" ++ name ++ "'") = true) :
      (secondsOf (spanBetween name a b)).Safe := safe_secondsOf (safe_spanBetween hname ha hb)
  have hfactor {text : String} (h : runs .clear .any 0 0 text = true) : (SqlExpr.verbatim text).Safe := runs_fixed h
  cases unit with
  | years => exact safe_toInt4 (safe_datePart (by decide) (safe_age (by decide) ha hb))
  | months =>
    refine safe_toInt4 (safe_call (by decide) ⟨⟨safe_secondsOf ?_, hfactor (by decide)⟩, trivial⟩)
    exact safe_age (by decide) ha hb
  | days => exact safe_toInt4 (safe_datePart (by decide) (safe_spanBetween (by decide) ha hb))
  | hours | minutes => exact ⟨safe_toInt4 (hspan (by decide)), trivial⟩
  | seconds => exact safe_toInt4 (hspan (by decide))
  | milliseconds | microseconds | nanoseconds =>
    exact safe_cast (by decide) ⟨hspan (by decide), hfactor (by decide)⟩

theorem safe_binary (f : BinaryFunction) (ha : a.Safe) (hb : b.Safe) : (f.sql a b).Safe := by
  cases f with
  | concat | bitwiseAnd | bitwiseOr | bitwiseXor => exact ⟨ha, hb⟩
  | contains | startsWith => exact ⟨safe_position hb ha, trivial⟩
  | indexOf => exact safe_position ha hb
  | left => exact safe_call (by decide) ⟨ha, trivial, hb, trivial⟩
  | right =>
    exact safe_call (by decide)
      ⟨ha, ⟨⟨safe_call (by decide) ⟨ha, trivial⟩, trivial⟩, hb⟩, trivial⟩
  | add unit => exact safe_addUnits unit ha hb
  | diff unit => exact safe_diffUnits unit ha hb
  | power | truncate => exact safe_call (by decide) ⟨ha, hb, trivial⟩

theorem safe_ternary (f : TernaryFunction) (ha : a.Safe) (hb : b.Safe) (hc : c.Safe) : (f.sql a b c).Safe := by
  cases f <;> exact safe_call (by decide) ⟨ha, hb, hc, trivial⟩

theorem makes_canonicalValue (name : String) {args : List Expr} (t : DataType) (h : MakesValues value args) :
    Makes (canonicalValue value name args t) SqlExpr.Safe := by
  unfold canonicalValue
  split
  · exact makes_pure (safe_nullary _)
  · exact makes_one h fun _ hx => safe_unary _ hx
  · exact makes_two h fun _ _ hx hy => safe_binary _ hx hy
  · exact makes_three h fun _ _ _ hx hy hz => safe_ternary _ hx hy hz
  · exact makes_one h fun _ hx => safe_call (by decide) ⟨hx, trivial⟩
  · exact makes_two h fun _ _ hx hy => safe_call (by decide) ⟨hx, hy, trivial⟩
  all_goals exact makes_fail

/-! ## Functions of PostgreSQL -/

/-- The weights of a rank are numbers. -/
theorem signed_rankWeight {e : Expr} {text : String} (h : rankWeight e = .ok text) : Signed text := by
  unfold rankWeight at h
  split at h
  · cases h
    exact signed_binaryText _
  · cases h
    exact signed_binaryText _
  · cases h
    exact signed_decimalText _
  · split at h
    · cases h
      exact signed_integer _
    · cases h
  · cases h

theorem signed_rankWeights {es : List Expr} {texts : List String} (h : rankWeights es = .ok texts) :
    ∀ text ∈ texts, Signed text := by
  induction es generalizing texts with
  | nil =>
    cases h
    simp
  | cons e es ih =>
    obtain ⟨text, htext, h⟩ := ok_of_bind h
    obtain ⟨rest, hrest, h⟩ := ok_of_bind h
    cases h
    exact List.forall_mem_cons.mpr ⟨signed_rankWeight htext, ih hrest⟩

theorem safe_weightsLiteral {weights : List String} (h : ∀ text ∈ weights, Signed text) :
    (weightsLiteral weights).Safe := by
  have hcomma : Unquoted ", " := by decide
  have htext : Unquoted (", ".intercalate weights) := by
    induction weights with
    | nil => decide
    | cons text weights ih =>
      rw [List.forall_mem_cons] at h
      cases weights with
      | nil =>
        rw [String.intercalate_singleton]
        exact h.1.unquoted
      | cons text' weights =>
        rw [String.intercalate_cons_cons, unquoted_append, unquoted_append]
        exact ⟨⟨h.1.unquoted, hcomma⟩, ih h.2⟩
  exact reads_plain 0 .afterString (by decide) htext (by decide) rfl

theorem makes_rankValue {name : String} (hname : Reads name) {args : List Expr} (h : MakesValues value args) :
    Makes (rankValue value name args) SqlExpr.Safe := by
  have hweighted : Makes (do
      let weights ← rankWeights (args.take 4)
      return .call name (weightsLiteral weights :: (← valuesOf value (args.drop 4)))) SqlExpr.Safe := by
    refine makes_bind (makes_lift fun _ hweights => signed_rankWeights hweights) fun weights hweights => ?_
    refine makes_bind (makes_valuesOf fun e he => h e (List.mem_of_mem_drop he)) fun vs hvs => ?_
    exact makes_pure ⟨hname, safe_weightsLiteral hweights, SqlExpr.safeAll_iff.mpr hvs⟩
  unfold rankValue
  split
  · exact makes_call hname h
  · exact makes_call hname h
  · exact hweighted
  · exact hweighted
  · exact makes_fail

theorem makes_matchValue {input pattern : Expr} (hinput : Makes (value input) SqlExpr.Safe)
    (hpattern : Makes (value pattern) SqlExpr.Safe) (options : RegexOptions) :
    Makes (matchValue value input pattern options) SqlExpr.Safe := by
  unfold matchValue
  split
  · exact makes_fail
  · rename_i letters _
    refine makes_bind hinput fun x hx => makes_bind hpattern fun y hy => ?_
    split
    · exact makes_pure ⟨hx, hy⟩
    · exact makes_pure ⟨hx, reads_string _, hy⟩

/-- A label in quotes is a letter. -/
theorem reads_weightLetter {e : Expr} {c : Char} (h : weightLetter? e = some c) :
    Reads ("'" ++ String.singleton c ++ "'") := by
  have hletter (hc : c ∈ ['A', 'B', 'C', 'D']) : Reads ("'" ++ String.singleton c ++ "'") := by
    simp only [List.mem_cons, List.not_mem_nil, or_false] at hc
    rcases hc with rfl | rfl | rfl | rfl <;> exact runs_fixed (by decide)
  unfold weightLetter? at h
  split at h
  · split at h
    · split at h
      · rename_i hc
        cases h
        exact hletter (List.contains_iff_mem.mp hc)
      · cases h
    · cases h
  · split at h <;> cases h <;> exact hletter (by decide)
  · cases h

theorem reads_castTargetName {e : Expr} {name : String} (h : castTargetName e = .ok name) : Reads name := by
  unfold castTargetName at h
  split at h
  · exact reads_of_check h
  · cases h

theorem mem_of_ofName {name : String} {f : StoreFunction} (h : StoreFunction.ofName? name = some f) :
    (name, f) ∈ storeFunctions := by
  obtain ⟨l, l', hl, -⟩ := List.lookup_eq_some_iff.mp h
  rw [hl]
  simp

theorem reads_rankName {name : String} (h : StoreFunction.ofName? name = some .rank) : Reads name := by
  have hname := mem_of_ofName h
  simp only [storeFunctions, List.mem_cons, Prod.mk.injEq, reduceCtorEq, and_false, and_true, List.not_mem_nil,
    or_false, false_or] at hname
  rcases hname with rfl | rfl <;> exact runs_fixed (by decide)

theorem reads_castToType {name type : String} (h : StoreFunction.ofName? name = some (.castTo type)) : Reads type := by
  have hname := mem_of_ofName h
  simp only [storeFunctions, List.mem_cons, Prod.mk.injEq, StoreFunction.castTo.injEq, reduceCtorEq, and_false,
    List.not_mem_nil, or_false, false_or] at hname
  rcases hname with ⟨-, rfl⟩ | ⟨-, rfl⟩ <;> exact runs_fixed (by decide)

theorem makes_storeValue {f : StoreFunction} {name : String} (hf : StoreFunction.ofName? name = some f)
    {args : List Expr} (h : MakesValues value args) : Makes (storeValue value f name args) SqlExpr.Safe := by
  unfold storeValue
  split
  · exact makes_two h fun _ _ hx hy => ⟨hx, hy⟩
  · exact makes_one h fun _ hx => hx
  · exact makes_one h fun _ hx => ⟨hx, reads_castToType hf⟩
  · exact makes_call (runs_fixed (by decide)) h
  · exact makes_rankValue (reads_rankName hf) h
  · split
    · exact makes_fail
    · rename_i c hc
      refine makes_bind (h _ (by simp)) fun x hx => makes_pure (safe_call (by decide) ⟨hx, ?_, trivial⟩)
      exact reads_weightLetter hc
  · exact makes_matchValue (h _ (by simp)) (h _ (by simp)) _
  · refine makes_bind (keepsSafe_lift (regexOptions _)) fun options _ => ?_
    exact makes_matchValue (h _ (by simp)) (h _ (by simp)) options
  · refine makes_bind (makes_lift fun _ htype => reads_castTargetName htype) fun type htype => ?_
    exact makes_bind (h _ (by simp)) fun x hx => makes_pure ⟨hx, htype⟩
  all_goals exact makes_fail

/-! ## All functions -/

theorem reads_callName (f : FunctionRef) : Reads (callName f) := by
  unfold callName
  split
  · have hpoint : Runs .any .clear 0 0 "." := runs_fixed (by decide)
    exact ((reads_identifier _).append hpoint).append (reads_identifier _)
  · exact runs_empty.append (reads_identifier _)

theorem makes_callValue (f : FunctionRef) {args : List Expr} (t : DataType) (h : MakesValues value args) :
    Makes (callValue value f args t) SqlExpr.Safe := by
  unfold callValue
  split
  · exact makes_canonicalValue _ t h
  · split
    · rename_i g hg
      split at hg
      · exact makes_storeValue hg h
      · cases hg
    · exact makes_call (reads_callName f) h

/-! ## Aggregates -/

theorem safe_distinctOperand (distinct : Bool) (h : a.Safe) : (distinctOperand distinct a).Safe := by
  unfold distinctOperand
  split
  · exact SqlExpr.safe_after (runs_fixed (by decide)) h
  · exact h

theorem makes_stringAggValue {a : Aggregate} (h : MakesValues value a.args) :
    Makes (stringAggValue value a) SqlExpr.Safe := by
  unfold stringAggValue
  split
  · rename_i arg hargs
    refine makes_bind (h arg (by simp [hargs])) fun x hx => makes_pure (safe_call (by decide) ?_)
    exact ⟨safe_distinctOperand _ hx, runs_fixed (by decide), trivial⟩
  · rename_i arg separator hargs
    refine makes_bind (h arg (by simp [hargs])) fun x hx => makes_bind (h separator (by simp [hargs])) fun y hy => ?_
    exact makes_pure (safe_call (by decide) ⟨safe_distinctOperand _ hx, hy, trivial⟩)
  · exact makes_fail

theorem reads_aggregateName {name server : String} (h : aggregateNames.lookup name = some server) : Reads server := by
  have hall : ∀ p ∈ aggregateNames, runs .clear .any 0 0 p.2 = true := by decide
  obtain ⟨l, l', hl, -⟩ := List.lookup_eq_some_iff.mp h
  exact runs_fixed (hall (name, server) (by rw [hl]; simp))

theorem makes_aggregateValue {a : Aggregate} (h : MakesValues value a.args) :
    Makes (aggregateValue value a) SqlExpr.Safe := by
  unfold aggregateValue
  split
  · exact makes_stringAggValue h
  · split
    · exact makes_fail
    · rename_i name hname
      split
      · rename_i arg hargs
        refine makes_bind (h arg (by simp [hargs])) fun x hx => ?_
        refine makes_bind (makes_lift fun _ htype => reads_castTarget htype) fun type htype => makes_pure ⟨⟨?_, ?_⟩, htype⟩
        · split at hname
          · exact reads_aggregateName hname
          · cases hname
        · exact ⟨safe_distinctOperand _ hx, trivial⟩
      · exact makes_fail

/-! ## Texts of a tree that are not quoted -/

/-- Whether what a node writes without quotes is harmless: it holds no SQL, and names a parameter by a
    word. -/
def isHarmless : Expr → Bool
  | .scan set => set.mapping.definingQuery.isNone
  | .paramRef name _ => name.toList.all fun c => c.isAlphanum || c == '_'
  | _ => true

theorem passesChoices_isHarmless : Expr.PassesChoices isHarmless := ⟨fun _ _ _ => rfl, fun _ _ => rfl, fun _ _ _ => rfl⟩

/-- Whether all nodes of an expression are harmless. -/
abbrev Harmless (e : Expr) : Prop := e.everyNode isHarmless = true

theorem reads_placeholder {name : String} (h : ∀ c ∈ name.toList, c ∉ signs) : Reads (placeholder name) := by
  have hat : Runs .clear .clear 0 0 "@" := runs_fixed (by decide)
  exact hat.append (reads_of_no_signs h)

theorem no_signs_liftedName (place : Nat) : ∀ c ∈ (liftedName place).toList, c ∉ signs := by
  intro c hc
  rw [liftedName, String.toList_append] at hc
  rcases List.mem_append.mp hc with hc | hc
  · have hfixed : ∀ c ∈ "p_".toList, c ∉ signs := no_signs_fixed (by decide)
    exact hfixed c hc
  · exact no_signs_numeral _ c hc

/-! ## Scalar expressions -/

/-- Harmless expressions are compiled to safe ones, from safe stages to safe stages. -/
structure SafeParts (p : Parts) : Prop where
  value : ∀ e, Harmless e → Makes (p.value e) SqlExpr.Safe
  rows : ∀ e var, Harmless e → KeepsSafe (p.rows e var)

section

variable {p : Parts} {e l r : Expr} {es : List Expr}

theorem SafeParts.values (hp : SafeParts p) (h : ∀ e ∈ es, Harmless e) : MakesValues p.value es :=
  fun e he => hp.value e (h e he)

theorem makes_constantValue (v : Value) : Makes (constantValue v) SqlExpr.Safe := by
  refine makes_read_bind fun c => ?_
  split
  · refine makes_bind (makes_liftConstant v) fun name hname => makes_pure ?_
    obtain ⟨place, rfl⟩ := hname
    exact reads_placeholder (no_signs_liftedName place)
  · exact makes_pure trivial

theorem makes_nullValue (t : DataType) : Makes (nullValue t) SqlExpr.Safe := by
  have hnull : (SqlExpr.verbatim "NULL").Safe := runs_fixed (by decide)
  refine makes_read_bind fun c => ?_
  split
  · exact makes_bind (makes_lift fun _ h => reads_castTarget h) fun _ htype => makes_pure ⟨hnull, htype⟩
  · exact makes_pure hnull

theorem makes_binaryValue (hp : SafeParts p) (op : BinaryOp) (hl : Harmless l) (hr : Harmless r) :
    Makes (binaryValue p op l r) SqlExpr.Safe :=
  makes_bind (hp.value l hl) fun _ hx => makes_bind (hp.value r hr) fun _ hy => makes_pure ⟨hx, hy⟩

theorem makes_arithmeticValue (hp : SafeParts p) (op : ArithmeticOp) (h : ∀ e ∈ es, Harmless e) :
    Makes (arithmeticValue p op es) SqlExpr.Safe := by
  unfold arithmeticValue
  split
  · exact makes_one (hp.values h) fun _ hx => hx
  · exact makes_binaryValue hp _ (h _ (by simp)) (h _ (by simp))
  · exact makes_fail
  · exact makes_fail

theorem makes_isInValue (hp : SafeParts p) (he : Harmless e) (hes : ∀ e ∈ es, Harmless e) :
    Makes (isInValue p e es) SqlExpr.Safe := by
  unfold isInValue
  split
  · exact makes_pure (runs_fixed (by decide))
  · refine makes_bind (hp.value e he) fun x hx => makes_bind (makes_valuesOf (hp.values hes)) fun ys hys => ?_
    exact makes_pure ⟨hx, SqlExpr.safeAll_iff.mpr hys⟩

/-! ## CASE -/

/-- Fragments that read together, after anything. -/
def Fragments (parts : List SqlExpr) : Prop :=
  ∀ regime (select : StageId → String), (∀ id, Reads (select id)) →
    Runs .any .any 0 0 (String.join (renderAll regime select parts))

theorem fragments_nil : Fragments [] := fun _ _ _ => runs_empty

theorem Fragments.append {parts parts' : List SqlExpr} (h : Fragments parts) (h' : Fragments parts') :
    Fragments (parts ++ parts') := by
  intro regime select hselect
  rw [SqlExpr.renderAll_append, String.join_append]
  exact (h regime select hselect).append (h' regime select hselect)

/-- A value in parentheses, after a word. -/
theorem fragments_inParens {opening closing : String} (hopen : Runs .any .clear 0 1 opening)
    (hclose : Runs .any .any 1 0 closing) (h : a.Safe) : Fragments [.verbatim opening, a, .verbatim closing] := by
  intro regime select hselect
  have htext : String.join (renderAll regime select [.verbatim opening, a, .verbatim closing]) =
      opening ++ a.renderWith regime select none ++ closing := by
    simp [renderAll, SqlExpr.renderWith, String.append_assoc]
  rw [htext]
  exact (hopen.append ((h.reads hselect none).deeper 1)).append hclose

theorem fragments_branch (ha : a.Safe) (hb : b.Safe) :
    Fragments [.verbatim " WHEN (", a, .verbatim ") THEN (", b, .verbatim ")"] := by
  intro regime select hselect
  have htext : String.join (renderAll regime select
      [.verbatim " WHEN (", a, .verbatim ") THEN (", b, .verbatim ")"]) =
      " WHEN (" ++ a.renderWith regime select none ++ ") THEN (" ++ b.renderWith regime select none ++ ")" := by
    simp [renderAll, SqlExpr.renderWith, String.append_assoc]
  have hwhen : Runs .any .clear 0 1 " WHEN (" := runs_fixed (by decide)
  have hthen : Runs .any .clear 1 1 ") THEN (" := runs_fixed (by decide)
  have hclose : Runs .any .any 1 0 ")" := runs_fixed (by decide)
  rw [htext]
  exact (((hwhen.append ((ha.reads hselect none).deeper 1)).append hthen).append
    ((hb.reads hselect none).deeper 1)).append hclose

theorem makes_branchParts (hp : SafeParts p) {branches : List (Expr × Expr)}
    (h : ∀ b ∈ branches, Harmless b.1 ∧ Harmless b.2) : Makes (branchParts p branches) Fragments := by
  induction branches with
  | nil => exact makes_pure fragments_nil
  | cons b branches ih =>
    rw [List.forall_mem_cons] at h
    refine makes_bind (hp.value b.1 h.1.1) fun x hx => makes_bind (hp.value b.2 h.1.2) fun y hy => ?_
    exact makes_bind (ih h.2) fun rest hrest => makes_pure ((fragments_branch hx hy).append hrest)

theorem makes_elseParts (hp : SafeParts p) (h : Harmless e) : Makes (elseParts p e) Fragments := by
  unfold elseParts
  split
  · exact makes_pure fragments_nil
  · refine makes_bind (hp.value e h) fun x hx => makes_pure ?_
    exact fragments_inParens (runs_fixed (by decide)) (runs_fixed (by decide)) hx

theorem makes_reducedCaseValue (hp : SafeParts p) (h : Harmless e) : Makes (reducedCaseValue p e) SqlExpr.Safe := by
  unfold reducedCaseValue
  split
  · rename_i ws ts o
    obtain ⟨hw, ht, ho⟩ := Expr.everyNode_caseOf h
    split
    · exact makes_fail
    · have hbranches : ∀ b ∈ ws.zip ts, Harmless b.1 ∧ Harmless b.2 := fun b hb =>
        ⟨hw _ (List.of_mem_zip hb).1, ht _ (List.of_mem_zip hb).2⟩
      refine makes_bind (makes_branchParts hp hbranches) fun branches hbranches => ?_
      refine makes_bind (makes_elseParts hp ho) fun default hdefault => makes_pure fun regime select hselect => ?_
      have hcase : Runs .clear .any 0 0 "CASE" := runs_fixed (by decide)
      have hend : Runs .any .any 0 0 " END" := runs_fixed (by decide)
      have htext : String.join (renderAll regime select
          ([.verbatim "CASE"] ++ branches ++ default ++ [.verbatim " END"])) =
          "CASE" ++ String.join (renderAll regime select branches) ++
            String.join (renderAll regime select default) ++ " END" := by
        simp [SqlExpr.renderAll_append, renderAll, SqlExpr.renderWith, String.append_assoc]
      rw [htext]
      exact ((hcase.append (hbranches regime select hselect)).append (hdefault regime select hselect)).append hend
  · exact hp.value e h

/-! ## Subqueries -/

theorem makes_subqueryValue (hp : SafeParts p) (h : Harmless e) : Makes (subqueryValue p e) SqlExpr.Safe := by
  refine makes_bind keepsSafe_nextAlias fun label _ => makes_bind (hp.rows e label h) fun node _ => ?_
  exact makes_bind (keepsSafe_openStage node) fun last _ => makes_pure trivial

theorem keepsSafe_pullAll (path : ColumnPath) (stages : List AliasedStage) : KeepsSafe (pullAll path stages) := by
  induction stages generalizing path with
  | nil => exact makes_pure trivial
  | cons stage rest ih => exact makes_bind (keepsSafe_pullThrough path stage) fun path' _ => ih path'

theorem makes_limitValue (hp : SafeParts p) (h : Harmless e) : Makes (limitValue p e) SqlExpr.Safe := by
  refine makes_bind keepsSafe_nextAlias fun label _ => makes_bind (hp.rows e label h) fun node _ => ?_
  refine makes_bind (keepsSafe_getNode node) fun n _ => makes_bind (makes_getStage _) fun stage _ => ?_
  split
  · exact makes_bind (keepsSafe_pullAll _ _) fun _ _ => makes_pure trivial
  · exact makes_pure trivial

/-! ## All scalar expressions -/

theorem makes_valueStep (hp : SafeParts p) (h : Harmless e) : Makes (valueStep p e) SqlExpr.Safe := by
  have htwo {l r : Expr} (h : (l.everyNode isHarmless && r.everyNode isHarmless) = true) : Harmless l ∧ Harmless r :=
    Bool.and_eq_true_iff.mp h
  cases e with
  | constant v => exact makes_constantValue v
  | null t => exact makes_nullValue t
  | paramRef name t =>
    have hname : isHarmless (.paramRef name t) = true := Expr.test_of_everyNode h
    have hname := List.all_eq_true.mp hname
    have hsigns : (signs.any fun c => c.isAlphanum || c == '_') = false := by decide
    exact makes_pure (reads_placeholder fun c hc => not_sign_of_test hsigns (hname c hc))
  | varRef name t => exact makes_fail
  | property base name t => exact makes_propertyValue base name
  | comparison op l r | and l r | or l r | like l r =>
    exact makes_binaryValue hp _ (htwo h).1 (htwo h).2
  | arithmetic op args => exact makes_arithmeticValue hp op (Expr.everyNodeOfAll_iff.mp h)
  | not e => exact makes_bind (hp.value e h) fun x hx => makes_pure hx.negate
  | isNull e => exact makes_bind (hp.value e h) fun x hx => makes_pure hx
  | isEmpty e =>
    refine makes_bind (hp.value e h) fun x hx => makes_pure ?_
    have hexists : (SqlExpr.exists_ x).Safe := hx
    exact hexists.negate
  | isIn item list =>
    have h : (item.everyNode isHarmless && Expr.everyNodeOfAll isHarmless list) = true := h
    obtain ⟨hitem, hlist⟩ := Bool.and_eq_true_iff.mp h
    exact makes_isInValue hp hitem (Expr.everyNodeOfAll_iff.mp hlist)
  | cast e t =>
    refine makes_bind (hp.value e h) fun x hx => ?_
    exact makes_bind (makes_lift fun _ htype => reads_castTarget htype) fun type htype => makes_pure ⟨hx, htype⟩
  | caseOf ws ts o => exact makes_reducedCaseValue hp (Expr.everyNode_reduce passesChoices_isHarmless h)
  | call f args t => exact makes_callValue f t (hp.values (Expr.everyNodeOfAll_iff.mp h))
  | element e => exact makes_bind (hp.value e h) fun x hx => makes_pure hx
  | limit e n => exact makes_limitValue hp h
  | newInstance t args =>
    show Makes (if t.element?.isSome then subqueryValue p (.newInstance t args) else .fail .rowOutsideProjection) _
    split
    · exact makes_subqueryValue hp h
    · exact makes_fail
  | scan | filter | project | sort | skip | distinct | groupBy | join | setOp => exact makes_subqueryValue hp h

end

end TreeSql.Compile
