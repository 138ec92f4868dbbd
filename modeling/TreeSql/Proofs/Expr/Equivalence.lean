import Mathlib.Data.List.Forall2
import TreeSql.Expr.Equivalence
import TreeSql.Proofs.Expr.Nodes

/-
  TreeSql.Proofs.Expr.Equivalence — what equivalent expressions have in common.

  Two equivalent expressions are the same node over equivalent parts, where a node is compared by some of what
  it holds only: a type without its facets, a constant by its value, a function by its space and its name
  (`EqualParts`). What holds of any two such nodes when it holds of their parts, holds of equivalent expressions
  (`equivalent_induct`). So they have the same size, and as many nodes of each kind in the same places.

  What a function is written as in a quoted call is not compared. The expressions have the same
  `quotedNames` if they are written with the same functions.
-/
namespace TreeSql

/-! ## Constants that are compared as equal -/

/-- Numbers of one kind that are equal, moments that are, or the same constant. -/
inductive EqualValues : Value → Value → Prop
  | single {x y : Number.Single} (h : x.numEq y = true) : EqualValues (.single x) (.single y)
  | double {x y : Number.Double} (h : x.numEq y = true) : EqualValues (.double x) (.double y)
  | decimal {x y : Number.Decimal} (h : x.numEq y = true) : EqualValues (.decimal x) (.decimal y)
  | moment {a b : ZonedTimestamp} (h : a.sameInstant b = true) : EqualValues (.dateTimeOffset a) (.dateTimeOffset b)
  | same {v : Value} (h : v.eqv v = true) : EqualValues v v

theorem equalValues_of_eqv {v w : Value} (h : v.eqv w = true) : EqualValues v w := by
  fun_cases Value.eqv v w with
  | case1 => exact .single h
  | case2 => exact .double h
  | case3 => exact .decimal h
  | case4 => exact .moment h
  | case5 =>
    have hsame : (v == w) = true := by simpa [Value.eqv] using h
    obtain rfl := eq_of_beq hsame
    exact .same h

namespace Expr

/-! ## Nodes that are compared as equal -/

/-- Two nodes that are compared as equal, with parts that are related. -/
inductive EqualParts (R : Expr → Expr → Prop) : Expr → Expr → Prop
  | call {f g : FunctionRef} {as bs : List Expr} {t u : DataType} (hspace : f.space = g.space) (hname : f.name = g.name)
      (h : List.Forall₂ R as bs) : EqualParts R (call f as t) (call g bs u)
  | constant {v w : Value} (h : v.eqv w = true) : EqualParts R (constant v) (constant w)
  | comparison (op : ComparisonOp) {l r l' r' : Expr} (hl : R l l') (hr : R r r') :
      EqualParts R (comparison op l r) (comparison op l' r')
  | and {l r l' r' : Expr} (hl : R l l') (hr : R r r') : EqualParts R (and l r) (and l' r')
  | or {l r l' r' : Expr} (hl : R l l') (hr : R r r') : EqualParts R (or l r) (or l' r')
  | arithmetic (op : ArithmeticOp) {as bs : List Expr} (h : List.Forall₂ R as bs) :
      EqualParts R (arithmetic op as) (arithmetic op bs)
  | not {x y : Expr} (h : R x y) : EqualParts R (not x) (not y)
  | isNull {x y : Expr} (h : R x y) : EqualParts R (isNull x) (isNull y)
  | cast {x y : Expr} {t u : DataType} (h : R x y) (ht : t.SameType u) : EqualParts R (cast x t) (cast y u)
  | property {x y : Expr} {t u : DataType} (h : R x y) (name : String) : EqualParts R (property x name t) (property y name u)
  | varRef {t u : DataType} (name : String) : EqualParts R (varRef name t) (varRef name u)
  | paramRef {t u : DataType} (name : String) : EqualParts R (paramRef name t) (paramRef name u)

/-- What holds of nodes that are compared as equal when it holds of their equivalent parts, holds of equivalent
    expressions. -/
theorem equivalent_induct {P : Expr → Expr → Prop}
    (step : ∀ {a b}, EqualParts (fun x y => equivalent x y = true ∧ P x y) a b → P a b) {a b : Expr}
    (h : equivalent a b = true) : P a b := by
  revert h
  refine equivalent.induct (fun a b => equivalent a b = true → P a b)
    (fun as bs => allEquivalent as bs = true → List.Forall₂ (fun x y => equivalent x y = true ∧ P x y) as bs)
    ?call ?constant ?comparison ?and ?or ?arithmetic ?not ?isNull ?cast ?property ?varRef ?paramRef ?other ?nil ?cons
    ?uneven a b
  all_goals try simp only [equivalent, allEquivalent, sameShape, kind, resultType, Bool.and_eq_true, beq_iff_eq,
    decide_eq_true_eq, ExprKind.comparison.injEq, ExprKind.arithmetic.injEq]
  case call =>
    rintro f as t g bs u ih ⟨⟨⟨_, hspace⟩, hname⟩, h⟩
    exact step (.call hspace hname (ih h))
  case constant =>
    rintro v w ⟨_, h⟩
    exact step (.constant h)
  case comparison =>
    rintro op l r op' l' r' ihl ihr ⟨⟨⟨rfl, _⟩, hl⟩, hr⟩
    exact step (.comparison op ⟨hl, ihl hl⟩ ⟨hr, ihr hr⟩)
  case and =>
    rintro l r l' r' ihl ihr ⟨hl, hr⟩
    exact step (.and ⟨hl, ihl hl⟩ ⟨hr, ihr hr⟩)
  case or =>
    rintro l r l' r' ihl ihr ⟨hl, hr⟩
    exact step (.or ⟨hl, ihl hl⟩ ⟨hr, ihr hr⟩)
  case arithmetic =>
    rintro op as op' bs ih ⟨⟨rfl, _⟩, h⟩
    exact step (.arithmetic op (ih h))
  case not => exact fun x y ih h => step (.not ⟨h, ih h⟩)
  case isNull => exact fun x y ih h => step (.isNull ⟨h, ih h⟩)
  case cast =>
    rintro x t y u ih ⟨⟨_, ht⟩, h⟩
    exact step (.cast ⟨h, ih h⟩ (of_decide_eq_true ht))
  case property =>
    rintro x n t y m u ih ⟨⟨_, rfl⟩, h⟩
    exact step (.property ⟨h, ih h⟩ n)
  case varRef =>
    rintro n t m u ⟨_, rfl⟩
    exact step (.varRef n)
  case paramRef =>
    rintro n t m u ⟨_, rfl⟩
    exact step (.paramRef n)
  case other =>
    intros
    simp_all [equivalent]
  case nil => exact fun _ => .nil
  case cons =>
    rintro a as b bs ih ihs ⟨h, hs⟩
    exact .cons ⟨h, ih h⟩ (ihs hs)
  case uneven =>
    intros
    simp_all [allEquivalent]

/-! ## The nodes of equivalent expressions -/

/-- Two nodes that are compared as equal, whatever their parts. -/
abbrev EqualNodes : Expr → Expr → Prop := EqualParts fun _ _ => True

variable {R R' : Expr → Expr → Prop} {a b : Expr}

theorem EqualParts.mono (h : ∀ x y, R x y → R' x y) (hab : EqualParts R a b) : EqualParts R' a b := by
  cases hab with
  | call hspace hname hargs => exact .call hspace hname (hargs.imp h)
  | constant hv => exact .constant hv
  | comparison op hl hr => exact .comparison op (h _ _ hl) (h _ _ hr)
  | and hl hr => exact .and (h _ _ hl) (h _ _ hr)
  | or hl hr => exact .or (h _ _ hl) (h _ _ hr)
  | arithmetic op hargs => exact .arithmetic op (hargs.imp h)
  | not hx => exact .not (h _ _ hx)
  | isNull hx => exact .isNull (h _ _ hx)
  | cast hx ht => exact .cast (h _ _ hx) ht
  | property hx name => exact .property (h _ _ hx) name
  | varRef name => exact .varRef name
  | paramRef name => exact .paramRef name

theorem equalNodes_of_equivalent (h : equivalent a b = true) : EqualNodes a b :=
  equivalent_induct (fun hab => hab.mono fun _ _ _ => trivial) h

/-- Expressions with equal nodes in the same places. -/
def EqualThroughout (a b : Expr) : Prop := List.Forall₂ EqualNodes a.nodes b.nodes

theorem forall₂_nodesOfAll {as bs : List Expr} (h : List.Forall₂ EqualThroughout as bs) :
    List.Forall₂ EqualNodes (nodesOfAll as) (nodesOfAll bs) := by
  induction h with
  | nil => exact .nil
  | cons h _ ih => exact List.rel_append h ih

theorem EqualParts.nodes (h : EqualParts EqualThroughout a b) : EqualThroughout a b := by
  have htop : EqualNodes a b := h.mono fun _ _ _ => trivial
  cases h with
  | call _ _ hargs | arithmetic _ hargs => exact .cons htop (forall₂_nodesOfAll hargs)
  | constant | varRef | paramRef => exact .cons htop .nil
  | comparison _ hl hr | and hl hr | or hl hr => exact .cons htop (List.rel_append hl hr)
  | not hx | isNull hx | cast hx _ | property hx _ => exact .cons htop hx

theorem nodes_of_equivalent (h : equivalent a b = true) : EqualThroughout a b :=
  equivalent_induct (fun hab => EqualParts.nodes (hab.mono fun _ _ hxy => hxy.2)) h

theorem sizeOfAll_of_forall₂ {as bs : List Expr} (h : List.Forall₂ (fun x y => x.size = y.size) as bs) :
    sizeOfAll as = sizeOfAll bs := by
  induction h with
  | nil => rfl
  | cons h _ ih => rw [sizeOfAll, sizeOfAll, h, ih]

theorem size_of_equivalent (h : equivalent a b = true) : a.size = b.size := by
  refine equivalent_induct (P := fun x y => x.size = y.size) (fun hab => ?_) h
  cases hab with
  | call _ _ h | arithmetic _ h =>
    rw [size, size, sizeOfAll_of_forall₂ (h.imp fun _ _ hxy => hxy.2)]
  | constant | varRef | paramRef => rfl
  | comparison _ hl hr | and hl hr | or hl hr => rw [size, size, hl.2, hr.2]
  | not h | isNull h | cast h _ | property h _ => rw [size, size, h.2]

end Expr

end TreeSql
