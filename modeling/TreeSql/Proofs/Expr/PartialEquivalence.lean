import Mathlib.Logic.Relation
import TreeSql.Proofs.Expr.Coalesce
import TreeSql.Proofs.Expr.Equivalence

/-
  TreeSql.Proofs.Expr.PartialEquivalence — equivalence of expressions is symmetric and transitive, and reflexive
  on the kinds that it compares.

  On constants this holds of `Value.eqv`, where a floating-point constant that is not a number is the exception.
  Two expressions are equivalent exactly if they are equal nodes over equivalent parts and have the same type
  (`equivalent_iff`); with the expression's own induction this carries symmetry and transitivity from the
  constants and names to whole expressions.

  Whether an expression is equivalent to a copy of itself depends on the nodes that the comparison `Visits`. It
  goes from left to right and stops at the first part that differs from its copy. All nodes it visits are
  compared as equal exactly if the two are equivalent (`partial_equivalence`). One `LIKE` among them is
  enough for an expression to be equivalent to nothing.
-/
namespace TreeSql

/-! ## Equal constants -/

namespace Number

theorem Binary.numEq_iff {f : BinaryFormat} {x y : Binary f} : x.numEq y = true ↔
    ((x.isNaN = false ∧ y.isNaN = false) ∧ x.code = y.code) ∧ (x.negative = y.negative ∨ x.code = 0) := by
  simp only [numEq, isZero, Bool.and_eq_true, Bool.or_eq_true, Bool.not_eq_true', beq_iff_eq]

theorem Binary.numEq_symm {f : BinaryFormat} {x y : Binary f} (h : x.numEq y = true) : y.numEq x = true := by
  obtain ⟨⟨⟨hx, hy⟩, hcode⟩, hsign⟩ := numEq_iff.mp h
  exact numEq_iff.mpr ⟨⟨⟨hy, hx⟩, hcode.symm⟩, hsign.imp Eq.symm fun hzero => hcode ▸ hzero⟩

theorem Binary.numEq_trans {f : BinaryFormat} {x y z : Binary f} (h : x.numEq y = true) (h' : y.numEq z = true) :
    x.numEq z = true := by
  obtain ⟨⟨⟨hx, -⟩, hcode⟩, hsign⟩ := numEq_iff.mp h
  obtain ⟨⟨⟨-, hz⟩, hcode'⟩, hsign'⟩ := numEq_iff.mp h'
  refine numEq_iff.mpr ⟨⟨⟨hx, hz⟩, hcode.trans hcode'⟩, ?_⟩
  rcases hsign, hsign' with ⟨hsign | hzero, hsign' | hzero'⟩
  · exact .inl (hsign.trans hsign')
  · exact .inr (hcode.trans hzero')
  · exact .inr hzero
  · exact .inr hzero

theorem Binary.numEq_self {f : BinaryFormat} (x : Binary f) : x.numEq x = !x.isNaN := by
  simp [numEq]

theorem Decimal.numEq_iff {x y : Decimal} : x.numEq y = true ↔
    (x.negative = y.negative ∨ x.coefficient = 0) ∧
      x.coefficient * tenTo y.places = y.coefficient * tenTo x.places := by
  simp only [numEq, isZero, Bool.and_eq_true, Bool.or_eq_true, beq_iff_eq]

/-- A decimal that equals zero is zero. -/
theorem Decimal.coefficient_eq_zero {x y : Decimal}
    (h : x.coefficient * tenTo y.places = y.coefficient * tenTo x.places) (hy : y.coefficient = 0) :
    x.coefficient = 0 := by
  rw [hy, Nat.zero_mul] at h
  exact (Nat.mul_eq_zero.mp h).resolve_right (Nat.ne_of_gt (tenTo_pos _))

theorem Decimal.numEq_symm {x y : Decimal} (h : x.numEq y = true) : y.numEq x = true := by
  obtain ⟨hsign, hvalue⟩ := numEq_iff.mp h
  exact numEq_iff.mpr ⟨hsign.imp Eq.symm (coefficient_eq_zero hvalue.symm), hvalue.symm⟩

theorem Decimal.numEq_trans {x y z : Decimal} (h : x.numEq y = true) (h' : y.numEq z = true) : x.numEq z = true := by
  obtain ⟨hsign, hvalue⟩ := numEq_iff.mp h
  obtain ⟨hsign', hvalue'⟩ := numEq_iff.mp h'
  refine numEq_iff.mpr ⟨?_, ?_⟩
  · rcases hsign, hsign' with ⟨hsign | hzero, hsign' | hzero'⟩
    · exact .inl (hsign.trans hsign')
    · exact .inr (coefficient_eq_zero hvalue hzero')
    · exact .inr hzero
    · exact .inr hzero
  · -- Both sides times the power of ten of the number in the middle.
    refine Nat.eq_of_mul_eq_mul_right (tenTo_pos y.places) ?_
    calc x.coefficient * tenTo z.places * tenTo y.places
        = x.coefficient * tenTo y.places * tenTo z.places := Nat.mul_right_comm _ _ _
      _ = y.coefficient * tenTo z.places * tenTo x.places := by rw [hvalue, Nat.mul_right_comm]
      _ = z.coefficient * tenTo x.places * tenTo y.places := by rw [hvalue', Nat.mul_right_comm]

theorem Decimal.numEq_self (x : Decimal) : x.numEq x = true := by
  simp [numEq]

end Number

namespace Value

variable {u v w : Value}

theorem eqv_symm (h : v.eqv w = true) : w.eqv v = true := by
  cases equalValues_of_eqv h with
  | single h | double h => exact Number.Binary.numEq_symm h
  | decimal h => exact Number.Decimal.numEq_symm h
  | moment h => exact beq_iff_eq.mpr (beq_iff_eq.mp h).symm
  | same h => exact h

theorem eqv_trans (h : u.eqv v = true) (h' : v.eqv w = true) : u.eqv w = true := by
  cases equalValues_of_eqv h with
  | single h =>
    cases equalValues_of_eqv h' with
    | single h' => exact Number.Binary.numEq_trans h h'
    | same => exact h
  | double h =>
    cases equalValues_of_eqv h' with
    | double h' => exact Number.Binary.numEq_trans h h'
    | same => exact h
  | decimal h =>
    cases equalValues_of_eqv h' with
    | decimal h' => exact Number.Decimal.numEq_trans h h'
    | same => exact h
  | moment h =>
    cases equalValues_of_eqv h' with
    | moment h' => exact beq_iff_eq.mpr ((beq_iff_eq.mp h).trans (beq_iff_eq.mp h'))
    | same => exact h
  | same => exact h'

theorem eqv_self (v : Value) : v.eqv v = !v.isNaN := by
  cases v with
  | single x | double x => exact x.numEq_self
  | decimal x => exact x.numEq_self
  | _ => simp [eqv, isNaN, ZonedTimestamp.sameInstant]

end Value

namespace Expr

/-! ## Equal nodes over related parts -/

variable {R S : Expr → Expr → Prop} {a b c : Expr}

theorem EqualParts.flip (h : EqualParts R a b) : EqualParts (flip R) b a := by
  cases h with
  | call hspace hname hargs => exact .call hspace.symm hname.symm hargs.flip
  | constant hv => exact .constant (Value.eqv_symm hv)
  | comparison op hl hr => exact .comparison op hl hr
  | and hl hr => exact .and hl hr
  | or hl hr => exact .or hl hr
  | arithmetic op hargs => exact .arithmetic op hargs.flip
  | not hx => exact .not hx
  | isNull hx => exact .isNull hx
  | cast hx ht => exact .cast hx ht.symm
  | property hx name => exact .property (show flip R _ _ from hx) name
  | varRef name => exact .varRef name
  | paramRef name => exact .paramRef name

theorem forall₂_comp : ∀ {as bs cs : List Expr}, List.Forall₂ R as bs → List.Forall₂ S bs cs →
    List.Forall₂ (Relation.Comp R S) as cs
  | _, _, _, .nil, .nil => .nil
  | _, _, _, .cons h hs, .cons h' hs' => .cons ⟨_, h, h'⟩ (forall₂_comp hs hs')

theorem EqualParts.comp (h : EqualParts R a b) (h' : EqualParts S b c) : EqualParts (Relation.Comp R S) a c := by
  cases h with
  | call hspace hname hargs =>
    cases h' with
    | call hspace' hname' hargs' => exact .call (hspace.trans hspace') (hname.trans hname') (forall₂_comp hargs hargs')
  | constant hv =>
    cases h' with
    | constant hv' => exact .constant (Value.eqv_trans hv hv')
  | comparison op hl hr =>
    cases h' with
    | comparison _ hl' hr' => exact .comparison op ⟨_, hl, hl'⟩ ⟨_, hr, hr'⟩
  | and hl hr =>
    cases h' with
    | and hl' hr' => exact .and ⟨_, hl, hl'⟩ ⟨_, hr, hr'⟩
  | or hl hr =>
    cases h' with
    | or hl' hr' => exact .or ⟨_, hl, hl'⟩ ⟨_, hr, hr'⟩
  | arithmetic op hargs =>
    cases h' with
    | arithmetic _ hargs' => exact .arithmetic op (forall₂_comp hargs hargs')
  | not hx =>
    cases h' with
    | not hx' => exact .not ⟨_, hx, hx'⟩
  | isNull hx =>
    cases h' with
    | isNull hx' => exact .isNull ⟨_, hx, hx'⟩
  | cast hx ht =>
    cases h' with
    | cast hx' ht' => exact .cast ⟨_, hx, hx'⟩ (ht.trans ht')
  | property hx name =>
    cases h' with
    | property hx' _ => exact .property ⟨_, hx, hx'⟩ name
  | varRef name =>
    cases h' with
    | varRef => exact .varRef name
  | paramRef name =>
    cases h' with
    | paramRef => exact .paramRef name

theorem allEquivalent_iff {as bs : List Expr} :
    allEquivalent as bs = true ↔ List.Forall₂ (fun x y => equivalent x y = true) as bs := by
  induction as generalizing bs with
  | nil => cases bs <;> simp [allEquivalent]
  | cons a as ih => cases bs <;> simp [allEquivalent, ih]

/-- Equivalent expressions are equal nodes of one type over equivalent parts. -/
theorem equivalent_iff : equivalent a b = true ↔
    EqualParts (fun x y => equivalent x y = true) a b ∧ a.resultType.SameType b.resultType := by
  constructor
  · exact fun h => ⟨equivalent_induct (fun hab => hab.mono fun _ _ hxy => hxy.1) h, sameType_of_equivalent h⟩
  · rintro ⟨h, htype⟩
    cases h with
    | call hspace hname hargs => simp [equivalent, sameShape, kind, hspace, hname, htype, allEquivalent_iff.mpr hargs]
    | constant hv => simp [equivalent, sameShape, kind, hv, htype]
    | comparison op hl hr => simp [equivalent, sameShape, kind, hl, hr, htype]
    | and hl hr | or hl hr => simp [equivalent, hl, hr]
    | arithmetic op hargs => simp [equivalent, sameShape, kind, htype, allEquivalent_iff.mpr hargs]
    | not hx | isNull hx => simpa [equivalent] using hx
    | cast hx ht | property hx ht => simp [equivalent, sameShape, kind, hx, htype]
    | varRef | paramRef => simp [equivalent, sameShape, kind, htype]

/-! ## Symmetry and transitivity -/

theorem equivalent_symm (h : equivalent a b = true) : equivalent b a = true := by
  refine equivalent_induct (P := fun x y => x.resultType.SameType y.resultType → equivalent y x = true)
    (fun hab htype => ?_) h (sameType_of_equivalent h)
  exact equivalent_iff.mpr ⟨(hab.mono fun _ _ hxy => hxy.2 (sameType_of_equivalent hxy.1)).flip, htype.symm⟩

theorem equivalent_trans (h : equivalent a b = true) (h' : equivalent b c = true) : equivalent a c = true := by
  refine equivalent_induct
    (P := fun x y => ∀ z, x.resultType.SameType y.resultType → equivalent y z = true → equivalent x z = true)
    (fun hab z htype hbz => ?_) h c (sameType_of_equivalent h) h'
  obtain ⟨hparts, htype'⟩ := equivalent_iff.mp hbz
  refine equivalent_iff.mpr ⟨(hab.comp hparts).mono ?_, htype.trans htype'⟩
  rintro x z ⟨y, ⟨hxy, ih⟩, hyz⟩
  exact ih z (sameType_of_equivalent hxy) hyz

/-! ## Copies -/

/-- Whether an expression is of a kind that is compared. What is not a number equals nothing. -/
def isCompared : Expr → Bool
  | call .. | comparison .. | and .. | or .. | arithmetic .. | not _ | isNull _ | cast .. | property .. | varRef ..
  | paramRef .. => true
  | constant v => !v.isNaN
  | _ => false

/-- The parts that are compared with those of another expression, in order. -/
def comparedParts : Expr → List Expr
  | call _ args _ | arithmetic _ args => args
  | comparison _ l r | and l r | or l r => [l, r]
  | not e | isNull e | cast e _ | property e _ _ => [e]
  | _ => []

/-- The second expression is visited when the first one is compared with a copy of it: a part is, if all parts
    before it are equivalent to their copies. -/
inductive Visits : Expr → Expr → Prop
  | self (e : Expr) : Visits e e
  | part {e p x : Expr} {before after : List Expr} (hparts : e.comparedParts = before ++ p :: after)
      (hbefore : ∀ q ∈ before, equivalent q q = true) (h : Visits p x) : Visits e x

theorem allEquivalent_self_iff {es : List Expr} :
    allEquivalent es es = true ↔ ∀ e ∈ es, equivalent e e = true := by
  rw [allEquivalent_iff, List.forall₂_same]

/-- An expression is equivalent to a copy if its kind is compared and its parts are equivalent to copies. -/
theorem equivalent_self_iff {e : Expr} :
    equivalent e e = true ↔ e.isCompared = true ∧ ∀ p ∈ e.comparedParts, equivalent p p = true := by
  cases e with
  | call | arithmetic =>
    simp [equivalent, sameShape, isCompared, comparedParts, allEquivalent_self_iff, DataType.SameType.rfl]
  | constant v => simp [equivalent, sameShape, isCompared, comparedParts, Value.eqv_self, DataType.SameType.rfl]
  | comparison | and | or | not | isNull | cast | property | varRef | paramRef =>
    simp [equivalent, sameShape, isCompared, comparedParts, DataType.SameType.rfl]
  | _ => simp [equivalent, isCompared]

theorem size_lt_of_mem_comparedParts {e p : Expr} (h : p ∈ e.comparedParts) : p.size < e.size := by
  cases e with
  | call f args t | arithmetic op args => exact Nat.lt_succ_of_le (size_le_sizeOfAll h)
  | comparison _ l r | and l r | or l r =>
    simp only [comparedParts, List.mem_cons, List.not_mem_nil, or_false] at h
    rcases h with rfl | rfl <;> simp only [size] <;> omega
  | not e | isNull e | cast e _ | property e _ _ =>
    obtain rfl := List.mem_singleton.mp h
    exact Nat.lt_succ_self _
  | _ => cases h

theorem isCompared_of_visits {e x : Expr} (h : equivalent e e = true) (hx : Visits e x) : x.isCompared = true := by
  induction hx with
  | self => exact (equivalent_self_iff.mp h).1
  | part hparts _ _ ih =>
    refine ih ((equivalent_self_iff.mp h).2 _ ?_)
    rw [hparts]
    exact List.mem_append_right _ (.head _)

theorem equivalent_self_of_visits {e : Expr} (h : ∀ x, Visits e x → x.isCompared = true) : equivalent e e = true := by
  -- The parts that are left, while those before them are equivalent to their copies.
  have hrest (before after : List Expr) (hparts : e.comparedParts = before ++ after)
      (hbefore : ∀ q ∈ before, equivalent q q = true) : ∀ p ∈ after, equivalent p p = true := by
    induction after generalizing before with
    | nil => simp
    | cons p after ih =>
      have hmem : p ∈ e.comparedParts := by simp [hparts]
      have hsize := size_lt_of_mem_comparedParts hmem
      have hp : equivalent p p = true := equivalent_self_of_visits fun x hx => h x (.part hparts hbefore hx)
      refine List.forall_mem_cons.mpr ⟨hp, ih (before ++ [p]) (by simp [hparts]) ?_⟩
      simpa [or_imp, forall_and, hp] using hbefore
  exact equivalent_self_iff.mpr ⟨h e (.self e), hrest [] _ rfl (by simp)⟩
termination_by e.size

/-- Equivalence of separate expressions is symmetric and transitive, and an expression is equivalent to a copy
    exactly if every node that the comparison visits is of a compared kind. -/
theorem partial_equivalence (a b c : Expr) :
    (equivalent a b = true → equivalent b a = true) ∧
      (equivalent a b = true → equivalent b c = true → equivalent a c = true) ∧
      (equivalent a a = true ↔ ∀ x, Visits a x → x.isCompared = true) :=
  ⟨equivalent_symm, equivalent_trans, fun h _ => isCompared_of_visits h, equivalent_self_of_visits⟩

-- Decimals are compared by value; a `LIKE` equals no copy of itself.
example : equivalent (constant (.decimal ⟨false, 15, 1, by decide, by decide⟩))
      (constant (.decimal ⟨false, 150, 2, by decide, by decide⟩)) = true ∧
    equivalent (not (like (constant (.string "a")) (constant (.string "b"))))
      (not (like (constant (.string "a")) (constant (.string "b")))) = false := by
  decide

end Expr

end TreeSql
