import TreeSql.Compile.Scalar
import TreeSql.Proofs.Compile.Congruence

/-
  TreeSql.Proofs.Compile.Comparison — two compilations, step by step.

  A `Comparison` says what it means that two steps do the same from some world on, and which expressions are
  alike there. A world is what is known so far, and only grows. If steps that are put together do the same
  when their parts do, and putting expressions together keeps them alike, then calls of functions, aggregates,
  operators and CASE do the same when their arguments do. What a comparison says about one compilation alone
  is the case of a step beside itself.
-/
namespace TreeSql.Compile

open Sql Postgres

structure Comparison where
  World : Type
  /-- A later world. -/
  Le : World → World → Prop
  /-- Expressions of the one compilation and of the other. -/
  Alike : World → SqlExpr → SqlExpr → Prop
  /-- From the world on, the steps do the same and give results that are related. -/
  Steps : {α : Type} → World → CompileM α → CompileM α → (World → α → α → Prop) → Prop
  refl (w : World) : Le w w
  trans {u v w : World} (h : Le u v) (h' : Le v w) : Le u w
  later {u w : World} {a b : SqlExpr} (h : Le u w) (hab : Alike u a b) : Alike w a b
  congruence (w : World) : Congruence (Alike w)
  pure {α : Type} {w : World} {a b : α} {R : World → α → α → Prop} (h : ∀ u, Le w u → R u a b) :
    Steps w (Pure.pure a) (Pure.pure b) R
  bind {α β : Type} {w : World} {m m' : CompileM α} {f f' : α → CompileM β} {R : World → α → α → Prop}
    {R' : World → β → β → Prop} (hm : Steps w m m' R)
    (hf : ∀ {u a b}, Le w u → R u a b → Steps u (f a) (f' b) R') : Steps w (m >>= f) (m' >>= f') R'
  fail {α : Type} {w : World} (e : Error) {R : World → α → α → Prop} : Steps w (.fail e) (.fail e) R

namespace Comparison

variable (C : Comparison)

/-- Two lists of expressions that are alike one by one. -/
abbrev AlikeAll (w : C.World) : List SqlExpr → List SqlExpr → Prop := List.Forall₂ (C.Alike w)

/-- Both compile each of the expressions alike. -/
def Compiles (v v' : Expr → CompileM SqlExpr) (es : List Expr) : Prop :=
  ∀ e ∈ es, ∀ w, C.Steps w (v e) (v' e) C.Alike

variable {C} {w : C.World} {v v' : Expr → CompileM SqlExpr}

theorem AlikeAll.later {u : C.World} {as bs : List SqlExpr} (h : C.AlikeAll u as bs) (hw : C.Le u w) :
    C.AlikeAll w as bs :=
  List.Forall₂.imp (fun _ _ hab => C.later hw hab) h

/-- The same result on both sides. -/
theorem steps_same {α : Type} (a : α) : C.Steps w (Pure.pure a) (Pure.pure a) fun _ a b => a = b :=
  C.pure fun _ _ => rfl

/-- A step that fails or not by itself. -/
theorem steps_lift {α : Type} (x : Except Error α) : C.Steps w (liftM x) (liftM x) fun _ a b => a = b := by
  cases x with
  | error e => exact C.fail e
  | ok a => exact C.pure fun _ _ => rfl

/-! ## Arguments -/

variable (C) in
/-- The first one compiles each expression of one list, and the second one that in its place in another list,
    alike. -/
abbrev CompilesEach (v v' : Expr → CompileM SqlExpr) : List Expr → List Expr → Prop :=
  List.Forall₂ fun e e' => ∀ w, C.Steps w (v e) (v' e') C.Alike

theorem Compiles.each {es : List Expr} (h : C.Compiles v v' es) : C.CompilesEach v v' es es :=
  List.forall₂_same.mpr h

variable {es es' : List Expr}

theorem steps_valuesOf_each (h : C.CompilesEach v v' es es') : C.Steps w (valuesOf v es) (valuesOf v' es') C.AlikeAll := by
  induction h generalizing w with
  | nil => exact C.pure fun _ _ => .nil
  | cons ha _ ih =>
    refine C.bind (ha w) fun _ ha => ?_
    refine C.bind ih fun hu has => ?_
    exact C.pure fun _ ht => .cons (C.later (C.trans hu ht) ha) (AlikeAll.later has ht)

theorem steps_valuesOf (h : C.Compiles v v' es) : C.Steps w (valuesOf v es) (valuesOf v' es) C.AlikeAll :=
  steps_valuesOf_each h.each

section

variable {a b d a' b' d' : Expr}

theorem steps_one_each (h : C.CompilesEach v v' [a] [a']) {f : SqlExpr → SqlExpr}
    (hf : ∀ {u x x'}, C.Alike u x x' → C.Alike u (f x) (f x')) :
    C.Steps w (do return f (← v a)) (do return f (← v' a')) C.Alike := by
  obtain _ | ⟨ha, -⟩ := h
  refine C.bind (ha w) fun _ ha => ?_
  exact C.pure fun _ ht => hf (C.later ht ha)

theorem steps_one (h : C.Compiles v v' [a]) {f : SqlExpr → SqlExpr}
    (hf : ∀ {u x x'}, C.Alike u x x' → C.Alike u (f x) (f x')) :
    C.Steps w (do return f (← v a)) (do return f (← v' a)) C.Alike := steps_one_each h.each hf

theorem steps_two_each (h : C.CompilesEach v v' [a, b] [a', b']) {f : SqlExpr → SqlExpr → SqlExpr}
    (hf : ∀ {u x y x' y'}, C.Alike u x x' → C.Alike u y y' → C.Alike u (f x y) (f x' y')) :
    C.Steps w (do return f (← v a) (← v b)) (do return f (← v' a') (← v' b')) C.Alike := by
  obtain _ | ⟨ha, _ | ⟨hb, -⟩⟩ := h
  refine C.bind (ha w) fun _ ha => ?_
  refine C.bind (hb _) fun hu hb => ?_
  exact C.pure fun _ ht => hf (C.later (C.trans hu ht) ha) (C.later ht hb)

theorem steps_two (h : C.Compiles v v' [a, b]) {f : SqlExpr → SqlExpr → SqlExpr}
    (hf : ∀ {u x y x' y'}, C.Alike u x x' → C.Alike u y y' → C.Alike u (f x y) (f x' y')) :
    C.Steps w (do return f (← v a) (← v b)) (do return f (← v' a) (← v' b)) C.Alike := steps_two_each h.each hf

theorem steps_three_each (h : C.CompilesEach v v' [a, b, d] [a', b', d']) {f : SqlExpr → SqlExpr → SqlExpr → SqlExpr}
    (hf : ∀ {u x y z x' y' z'}, C.Alike u x x' → C.Alike u y y' → C.Alike u z z' →
      C.Alike u (f x y z) (f x' y' z')) :
    C.Steps w (do return f (← v a) (← v b) (← v d)) (do return f (← v' a') (← v' b') (← v' d')) C.Alike := by
  obtain _ | ⟨ha, _ | ⟨hb, _ | ⟨hd, -⟩⟩⟩ := h
  refine C.bind (ha w) fun _ ha => ?_
  refine C.bind (hb _) fun hu hb => ?_
  refine C.bind (hd _) fun hu' hd => ?_
  exact C.pure fun _ ht => hf (C.later (C.trans hu (C.trans hu' ht)) ha) (C.later (C.trans hu' ht) hb)
    (C.later ht hd)

end

theorem steps_call_each (h : C.CompilesEach v v' es es') (name : String) :
    C.Steps w (do return .call name (← valuesOf v es))
      (do return .call name (← valuesOf v' es')) C.Alike := by
  refine C.bind (steps_valuesOf_each h) fun _ has => ?_
  exact C.pure fun u ht => (C.congruence u).call name (AlikeAll.later has ht)

/-! ## Functions -/

/-- Argument lists of one length are refused alike. -/
theorem steps_arity {α : Type} {R : C.World → α → α → Prop} (name expected : String) {m n : Nat} (h : m = n) :
    C.Steps w (CompileM.fail (Error.arity name expected m)) (CompileM.fail (Error.arity name expected n)) R := by
  subst h
  exact C.fail _

theorem steps_canonicalValue_each (name : String) (t : DataType) (h : C.CompilesEach v v' es es') :
    C.Steps w (canonicalValue v name es t) (canonicalValue v' name es' t) C.Alike := by
  unfold canonicalValue
  cases CanonicalFunction.ofName? name with
  | none => exact C.fail _
  | some f =>
    cases f with
    | nullary f =>
      rcases h with _ | ⟨_, hrest⟩
      · exact C.pure fun u _ => (C.congruence u).nullary _
      · exact steps_arity _ _ (by simp [hrest.length_eq])
    | unary f =>
      rcases h with _ | ⟨ha, _ | ⟨_, hrest⟩⟩
      · exact C.fail _
      · exact steps_one_each (.cons ha .nil) fun hx => (C.congruence _).unary _ hx
      · exact steps_arity _ _ (by simp [hrest.length_eq])
    | binary f =>
      rcases h with _ | ⟨ha, _ | ⟨hb, _ | ⟨_, hrest⟩⟩⟩
      · exact C.fail _
      · exact C.fail _
      · exact steps_two_each (.cons ha (.cons hb .nil)) fun hx hy => (C.congruence _).binaryFunction _ hx hy
      · exact steps_arity _ _ (by simp [hrest.length_eq])
    | ternary f =>
      rcases h with _ | ⟨ha, _ | ⟨hb, _ | ⟨hd, _ | ⟨_, hrest⟩⟩⟩⟩
      · exact C.fail _
      · exact C.fail _
      · exact C.fail _
      · exact steps_three_each (.cons ha (.cons hb (.cons hd .nil))) fun hx hy hz => (C.congruence _).ternary _ hx hy hz
      · exact steps_arity _ _ (by simp [hrest.length_eq])
    | round =>
      rcases h with _ | ⟨ha, _ | ⟨hb, _ | ⟨_, hrest⟩⟩⟩
      · exact C.fail _
      · exact steps_one_each (.cons ha .nil) fun hx => (C.congruence _).call_one _ hx
      · exact steps_two_each (.cons ha (.cons hb .nil)) fun hx hy => (C.congruence _).call_two _ hx hy
      · exact steps_arity _ _ (by simp [hrest.length_eq])

variable (C) in
/-- Some functions look at an argument itself, which has to be a constant. There the two lists give the same. -/
structure ReadsEach (es es' : List Expr) : Prop where
  letters : es.map weightLetter? = es'.map weightLetter?
  options : es.map regexOptions = es'.map regexOptions
  targets : es.map castTargetName = es'.map castTargetName
  weights (n : Nat) (w : C.World) :
    C.Steps w (liftM (rankWeights (es.take n))) (liftM (rankWeights (es'.take n)))
      fun u a b => C.Alike u (weightsLiteral a) (weightsLiteral b)

theorem ownText_weights (weights : List String) :
    OwnText ("'\x7b" ++ ", ".intercalate weights ++ "\x7d'") :=
  ownText_of_head (c := '\'') (by simp) (by decide)

theorem ownText_string (text : String) : OwnText (Quote.string text) :=
  ownText_of_head (c := 'E') (by simp [Quote.string]) (by decide)

theorem readsEach_same (es : List Expr) : C.ReadsEach es es where
  letters := rfl
  options := rfl
  targets := rfl
  weights n w := by
    cases rankWeights (es.take n) with
    | error e => exact C.fail e
    | ok weights => exact C.pure fun u _ => (C.congruence u).verbatim (ownText_weights weights)

theorem steps_rankValue_each (name : String) (h : C.CompilesEach v v' es es') (hread : C.ReadsEach es es') :
    C.Steps w (rankValue v name es) (rankValue v' name es') C.Alike := by
  have hweighted : C.Steps w
      (do
        let weights ← rankWeights (es.take 4)
        return .call name (weightsLiteral weights :: (← valuesOf v (es.drop 4))))
      (do
        let weights ← rankWeights (es'.take 4)
        return .call name (weightsLiteral weights :: (← valuesOf v' (es'.drop 4)))) C.Alike := by
    refine C.bind (hread.weights 4 w) fun _ hweights => ?_
    refine C.bind (steps_valuesOf_each (List.forall₂_drop 4 h)) fun hu has => ?_
    exact C.pure fun u ht =>
      (C.congruence u).call name (.cons (C.later (C.trans hu ht) hweights) (AlikeAll.later has ht))
  unfold rankValue
  rw [h.length_eq]
  split
  · exact steps_call_each h name
  · exact steps_call_each h name
  · exact hweighted
  · exact hweighted
  · exact C.fail _

theorem steps_matchValue_each {input pattern input' pattern' : Expr} (options : RegexOptions)
    (h : C.CompilesEach v v' [input, pattern] [input', pattern']) :
    C.Steps w (matchValue v input pattern options) (matchValue v' input' pattern' options) C.Alike := by
  obtain _ | ⟨hinput, _ | ⟨hpattern, -⟩⟩ := h
  unfold matchValue
  split
  · exact C.fail _
  · rename_i letters _
    refine C.bind (hinput w) fun _ hinput => ?_
    refine C.bind (hpattern _) fun hu hpattern => ?_
    by_cases hl : letters.isEmpty = true
    · rw [if_pos hl, if_pos hl]
      exact C.pure fun u ht =>
        (C.congruence u).binary _ (C.later (C.trans hu ht) hinput) (C.later ht hpattern)
    · rw [if_neg hl, if_neg hl]
      exact C.pure fun u ht => (C.congruence u).binary _ (C.later (C.trans hu ht) hinput)
        ((C.congruence u).binary _ ((C.congruence u).verbatim (ownText_string _)) (C.later ht hpattern))

theorem steps_storeValue_each (f : StoreFunction) (name : String) (h : C.CompilesEach v v' es es')
    (hread : C.ReadsEach es es') : C.Steps w (storeValue v f name es) (storeValue v' f name es') C.Alike := by
  unfold storeValue
  cases f with
  | coalesce => exact steps_call_each h _
  | rank => exact steps_rankValue_each name h hread
  | binary op =>
    rcases h with _ | ⟨ha, _ | ⟨hb, _ | ⟨_, hrest⟩⟩⟩
    · exact C.fail _
    · exact C.fail _
    · exact steps_two_each (.cons ha (.cons hb .nil)) fun hx hy => (C.congruence _).binary _ hx hy
    · exact steps_arity _ _ (by simp [hrest.length_eq])
  | leading op =>
    rcases h with _ | ⟨ha, _ | ⟨_, hrest⟩⟩
    · exact C.fail _
    · exact steps_one_each (.cons ha .nil) fun hx => (C.congruence _).leading _ hx
    · exact steps_arity _ _ (by simp [hrest.length_eq])
  | castTo type =>
    rcases h with _ | ⟨ha, _ | ⟨_, hrest⟩⟩
    · exact C.fail _
    · exact steps_one_each (.cons ha .nil) fun hx => (C.congruence _).cast hx _
    · exact steps_arity _ _ (by simp [hrest.length_eq])
  | setWeight =>
    rcases h with _ | ⟨hvector, _ | ⟨_, _ | ⟨_, hrest⟩⟩⟩
    · exact C.fail _
    · exact C.fail _
    · have hletters := hread.letters
      simp only [List.map_cons, List.map_nil, List.cons.injEq, and_true] at hletters
      dsimp only
      rw [hletters.2]
      split
      · exact C.fail _
      · exact steps_one_each (.cons hvector .nil) fun hx =>
          (C.congruence _).call_two _ hx ((C.congruence _).verbatim (ownText_quoted _))
    · exact steps_arity _ _ (by simp [hrest.length_eq])
  | matchRegex =>
    rcases h with _ | ⟨hinput, _ | ⟨hpattern, _ | ⟨_, _ | ⟨_, hrest⟩⟩⟩⟩
    · exact C.fail _
    · exact C.fail _
    · exact steps_matchValue_each _ (.cons hinput (.cons hpattern .nil))
    · have hoptions := hread.options
      simp only [List.map_cons, List.map_nil, List.cons.injEq, and_true] at hoptions
      dsimp only
      rw [hoptions.2.2]
      refine C.bind (steps_lift _) fun _ hoptions => ?_
      subst hoptions
      exact steps_matchValue_each _ (.cons hinput (.cons hpattern .nil))
    · exact steps_arity _ _ (by simp [hrest.length_eq])
  | cast =>
    rcases h with _ | ⟨harg, _ | ⟨_, _ | ⟨_, hrest⟩⟩⟩
    · exact C.fail _
    · exact C.fail _
    · have htargets := hread.targets
      simp only [List.map_cons, List.map_nil, List.cons.injEq, and_true] at htargets
      dsimp only
      rw [htargets.2]
      refine C.bind (steps_lift _) fun _ htype => ?_
      subst htype
      exact steps_one_each (.cons harg .nil) fun hx => (C.congruence _).cast hx _
    · exact steps_arity _ _ (by simp [hrest.length_eq])

theorem steps_callValue_each (f : FunctionRef) (t : DataType) (h : C.CompilesEach v v' es es')
    (hread : C.ReadsEach es es') : C.Steps w (callValue v f es t) (callValue v' f es' t) C.Alike := by
  unfold callValue
  by_cases hc : f.isCanonical = true
  · rw [if_pos hc, if_pos hc]
    exact steps_canonicalValue_each f.name t h
  · rw [if_neg hc, if_neg hc]
    split
    · exact steps_storeValue_each _ f.name h hread
    · exact steps_call_each h _

theorem steps_callValue (f : FunctionRef) {args : List Expr} (t : DataType) (h : C.Compiles v v' args) :
    C.Steps w (callValue v f args t) (callValue v' f args t) C.Alike :=
  steps_callValue_each f t h.each (readsEach_same args)

/-! ## Aggregates -/

theorem alike_distinctOperand (distinct : Bool) {a b : SqlExpr} (h : C.Alike w a b) :
    C.Alike w (distinctOperand distinct a) (distinctOperand distinct b) := by
  unfold distinctOperand
  split
  · exact (C.congruence w).seq (.cons ((C.congruence w).verbatim (by decide)) (.cons h .nil))
  · exact h

theorem steps_aggregateValue {a : Aggregate} (h : C.Compiles v v' a.args) :
    C.Steps w (aggregateValue v a) (aggregateValue v' a) C.Alike := by
  unfold aggregateValue
  split
  · unfold stringAggValue
    split
    · rename_i arg harg
      rw [harg] at h
      exact steps_one h fun hx =>
        (C.congruence _).call_two _ (alike_distinctOperand _ hx) ((C.congruence _).verbatim (by decide))
    · rename_i arg separator harg
      rw [harg] at h
      exact steps_two h fun hx hy => (C.congruence _).call_two _ (alike_distinctOperand _ hx) hy
    · exact C.fail _
  · split
    · exact C.fail _
    · split
      · rename_i arg harg
        rw [harg] at h
        refine C.bind (h arg (by simp) w) fun _ hx => ?_
        refine C.bind (steps_lift _) fun hu htype => ?_
        subst htype
        exact C.pure fun u ht => (C.congruence u).cast
          ((C.congruence u).call_one _ (alike_distinctOperand _ (C.later (C.trans hu ht) hx))) _
      · exact C.fail _

/-! ## Operators and CASE -/

section

variable {p p' : Parts}

theorem steps_binaryValue_each (op : BinaryOp) {l r l' r' : Expr} (h : C.CompilesEach p.value p'.value [l, r] [l', r']) :
    C.Steps w (binaryValue p op l r) (binaryValue p' op l' r') C.Alike :=
  steps_two_each h fun hx hy => (C.congruence _).binary op hx hy

theorem steps_binaryValue (op : BinaryOp) {l r : Expr} (h : C.Compiles p.value p'.value [l, r]) :
    C.Steps w (binaryValue p op l r) (binaryValue p' op l r) C.Alike := steps_binaryValue_each op h.each

theorem steps_arithmeticValue_each (op : ArithmeticOp) (h : C.CompilesEach p.value p'.value es es') :
    C.Steps w (arithmeticValue p op es) (arithmeticValue p' op es') C.Alike := by
  unfold arithmeticValue
  cases arithmeticSql? op with
  | none =>
    rcases h with _ | ⟨ha, _ | ⟨_, hrest⟩⟩
    · exact C.fail _
    · exact steps_one_each (.cons ha .nil) fun hx => (C.congruence _).leading _ hx
    · exact steps_arity _ _ (by simp [hrest.length_eq])
  | some sql =>
    rcases h with _ | ⟨ha, _ | ⟨hb, _ | ⟨_, hrest⟩⟩⟩
    · exact C.fail _
    · exact C.fail _
    · exact steps_binaryValue_each sql (.cons ha (.cons hb .nil))
    · exact steps_arity _ _ (by simp [hrest.length_eq])

theorem steps_arithmeticValue (op : ArithmeticOp) (h : C.Compiles p.value p'.value es) :
    C.Steps w (arithmeticValue p op es) (arithmeticValue p' op es) C.Alike := steps_arithmeticValue_each op h.each

theorem steps_isInValue {item : Expr} {list : List Expr} (h : C.Compiles p.value p'.value (item :: list)) :
    C.Steps w (isInValue p item list) (isInValue p' item list) C.Alike := by
  unfold isInValue
  by_cases hl : list.isEmpty = true
  · rw [if_pos hl, if_pos hl]
    exact C.pure fun u _ => (C.congruence u).verbatim (by decide)
  · rw [if_neg hl, if_neg hl]
    refine C.bind (h item (.head _) w) fun _ hitem => ?_
    refine C.bind (steps_valuesOf fun e he => h e (.tail _ he)) fun hu hitems => ?_
    exact C.pure fun u ht => (C.congruence u).binary _ (C.later (C.trans hu ht) hitem)
      ((C.congruence u).paren ((C.congruence u).list (AlikeAll.later hitems ht)) (by simp))

theorem steps_branchParts {branches : List (Expr × Expr)}
    (hw : C.Compiles p.value p'.value (branches.map Prod.fst))
    (ht : C.Compiles p.value p'.value (branches.map Prod.snd)) :
    C.Steps w (branchParts p branches) (branchParts p' branches) C.AlikeAll := by
  induction branches generalizing w with
  | nil => exact C.pure fun _ _ => .nil
  | cons branch branches ih =>
    obtain ⟨condition, value⟩ := branch
    refine C.bind (hw condition (by simp) w) fun _ hc => ?_
    refine C.bind (ht value (by simp) _) fun hu hv => ?_
    refine C.bind (ih (fun e he => hw e (.tail _ he)) fun e he => ht e (.tail _ he)) fun hu' hrest => ?_
    refine C.pure fun u hlast => ?_
    have hR := C.congruence u
    exact .cons (hR.verbatim (by decide)) (.cons (C.later (C.trans hu (C.trans hu' hlast)) hc)
      (.cons (hR.verbatim (by decide)) (.cons (C.later (C.trans hu' hlast) hv)
        (.cons (hR.verbatim (by decide)) (AlikeAll.later hrest hlast)))))

theorem steps_elseParts {e : Expr} (h : C.Compiles p.value p'.value [e]) :
    C.Steps w (elseParts p e) (elseParts p' e) C.AlikeAll := by
  unfold elseParts
  split
  · exact C.pure fun _ _ => .nil
  · refine C.bind (h e (by simp) w) fun _ he => ?_
    refine C.pure fun u ht => ?_
    have hR := C.congruence u
    exact .cons (hR.verbatim (by decide)) (.cons (C.later ht he) (.cons (hR.verbatim (by decide)) .nil))

theorem steps_caseValue {ws ts : List Expr} {o : Expr} (hw : C.Compiles p.value p'.value ws)
    (ht : C.Compiles p.value p'.value ts) (ho : C.Compiles p.value p'.value [o]) :
    C.Steps w (reducedCaseValue p (.caseOf ws ts o)) (reducedCaseValue p' (.caseOf ws ts o)) C.Alike := by
  simp only [reducedCaseValue]
  split
  · exact C.fail _
  · refine C.bind (steps_branchParts (fun e he => ?_) fun e he => ?_) fun _ hb => ?_
    · obtain ⟨⟨c, t⟩, hct, rfl⟩ := List.mem_map.mp he
      exact hw c (List.of_mem_zip hct).1
    · obtain ⟨⟨c, t⟩, hct, rfl⟩ := List.mem_map.mp he
      exact ht t (List.of_mem_zip hct).2
    refine C.bind (steps_elseParts ho) fun hu hd => ?_
    refine C.pure fun u hlast => ?_
    have hR := C.congruence u
    have hbranches := AlikeAll.later hb (C.trans hu hlast)
    exact hR.seq (List.rel_append
      (List.rel_append (.cons (hR.verbatim (by decide)) hbranches) (AlikeAll.later hd hlast))
      (.cons (hR.verbatim (by decide)) .nil))

end

end Comparison

end TreeSql.Compile
