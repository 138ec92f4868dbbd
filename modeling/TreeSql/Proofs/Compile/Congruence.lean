import Mathlib.Data.List.Forall2
import TreeSql.Compile.Canonical

/-
  TreeSql.Proofs.Compile.Congruence — relations that putting expressions together respects.

  Expressions are put together by the constructors, by `negate` and by `followedBy`. A relation that these
  respect is respected by the canonical functions too (`Congruence.unary` and its siblings). The only
  constants that compiling brings along are a few integers (`ownIntegers`), and the texts are neither such
  that could be taken for a parameter nor a null by itself (`OwnText`).
-/
namespace TreeSql.Compile

open Sql

/-- The integers in what canonical functions and limits are compiled to. -/
def ownIntegers : List Int32 := [0, 1, 60, 1000, 3600]

/-- The text is not that of a parameter. -/
def Unmarked (text : String) : Prop := text.toList.head? ≠ some '@'

instance (text : String) : Decidable (Unmarked text) := inferInstanceAs (Decidable (_ ≠ _))

/-- A text that expressions are put together with: neither that of a parameter nor a null by itself. -/
def OwnText (text : String) : Prop := Unmarked text ∧ text ≠ "NULL"

instance (text : String) : Decidable (OwnText text) := inferInstanceAs (Decidable (_ ∧ _))

/-- The first character shows that a text is neither. -/
theorem ownText_of_head {text : String} {c : Char} (h : text.toList.head? = some c) (hc : c ≠ '@' ∧ c ≠ 'N') :
    OwnText text := by
  refine ⟨fun hmark => ?_, ?_⟩
  · rw [h] at hmark
    exact hc.1 (Option.some.inj hmark)
  · rintro rfl
    exact hc.2 (Option.some.inj h).symm

theorem ownText_quoted (text : String) : OwnText ("'" ++ text ++ "'") :=
  ownText_of_head (c := '\'') (by simp) (by decide)

/-- A stage is put in parentheses only as the element of its rows, so that this case is left out. -/
structure Congruence (R : SqlExpr → SqlExpr → Prop) : Prop where
  verbatim {text : String} (h : OwnText text) : R (.verbatim text) (.verbatim text)
  int {n : Int32} (h : n ∈ ownIntegers) : R (int n) (int n)
  seq {as bs : List SqlExpr} (h : List.Forall₂ R as bs) : R (.seq as) (.seq bs)
  list {as bs : List SqlExpr} (h : List.Forall₂ R as bs) : R (.list as) (.list bs)
  paren {a b : SqlExpr} (h : R a b) (hstage : ∀ id, a ≠ .stage id) : R (.paren a) (.paren b)
  column {a b : SqlExpr} (h : R a b) (name : String) (type : DataType) :
    R (.column a name type) (.column b name type)
  call (name : String) {as bs : List SqlExpr} (h : List.Forall₂ R as bs) : R (.call name as) (.call name bs)
  cast {a b : SqlExpr} (h : R a b) (type : String) : R (.cast a type) (.cast b type)
  binary (op : BinaryOp) {a b a' b' : SqlExpr} (ha : R a a') (hb : R b b') : R (.binary op a b) (.binary op a' b')
  leading (op : LeadingOp) {a b : SqlExpr} (h : R a b) : R (.leading op a) (.leading op b)
  trailing (op : TrailingOp) {a b : SqlExpr} (h : R a b) : R (.trailing op a) (.trailing op b)
  exists_ {a b : SqlExpr} (h : R a b) : R (.exists_ a) (.exists_ b)
  negate {a b : SqlExpr} (h : R a b) : R a.negate b.negate
  followedBy {a b : SqlExpr} (h : R a b) {text : String} (htext : OwnText text) : R (a.followedBy text) (b.followedBy text)

/-- What two relations respect, both together do. -/
theorem Congruence.and {R R' : SqlExpr → SqlExpr → Prop} (h : Congruence R) (h' : Congruence R') :
    Congruence fun a b => R a b ∧ R' a b := by
  have hboth {as bs : List SqlExpr} (hall : List.Forall₂ (fun a b => R a b ∧ R' a b) as bs) :
      List.Forall₂ R as bs ∧ List.Forall₂ R' as bs :=
    ⟨hall.imp fun _ _ hab => hab.1, hall.imp fun _ _ hab => hab.2⟩
  constructor
  case verbatim => exact fun htext => ⟨h.verbatim htext, h'.verbatim htext⟩
  case int => exact fun hn => ⟨h.int hn, h'.int hn⟩
  case seq => exact fun hall => ⟨h.seq (hboth hall).1, h'.seq (hboth hall).2⟩
  case list => exact fun hall => ⟨h.list (hboth hall).1, h'.list (hboth hall).2⟩
  case paren => exact fun hab hstage => ⟨h.paren hab.1 hstage, h'.paren hab.2 hstage⟩
  case column => exact fun hab name type => ⟨h.column hab.1 name type, h'.column hab.2 name type⟩
  case call => exact fun name _ _ hall => ⟨h.call name (hboth hall).1, h'.call name (hboth hall).2⟩
  case cast => exact fun hab type => ⟨h.cast hab.1 type, h'.cast hab.2 type⟩
  case binary => exact fun op _ _ _ _ ha hb => ⟨h.binary op ha.1 hb.1, h'.binary op ha.2 hb.2⟩
  case leading => exact fun op _ _ hab => ⟨h.leading op hab.1, h'.leading op hab.2⟩
  case trailing => exact fun op _ _ hab => ⟨h.trailing op hab.1, h'.trailing op hab.2⟩
  case exists_ => exact fun hab => ⟨h.exists_ hab.1, h'.exists_ hab.2⟩
  case negate => exact fun hab => ⟨h.negate hab.1, h'.negate hab.2⟩
  case followedBy => exact fun hab _ htext => ⟨h.followedBy hab.1 htext, h'.followedBy hab.2 htext⟩

namespace Congruence

variable {R : SqlExpr → SqlExpr → Prop} (hR : Congruence R) {a b c a' b' c' : SqlExpr}

include hR

/-! ## Building blocks -/

theorem call_one (name : String) (ha : R a a') : R (.call name [a]) (.call name [a']) :=
  hR.call name (.cons ha .nil)

theorem call_two (name : String) (ha : R a a') (hb : R b b') : R (.call name [a, b]) (.call name [a', b']) :=
  hR.call name (.cons ha (.cons hb .nil))

theorem call_three (name : String) (ha : R a a') (hb : R b b') (hc : R c c') :
    R (.call name [a, b, c]) (.call name [a', b', c']) :=
  hR.call name (.cons ha (.cons hb (.cons hc .nil)))

theorem position (ha : R a a') (hb : R b b') : R (position a b) (position a' b') :=
  hR.call_one _ (hR.seq (.cons ha (.cons (hR.verbatim (by decide)) (.cons hb .nil))))

theorem dateTrunc (unit : String) (h : R a a') : R (dateTrunc unit a) (dateTrunc unit a') :=
  hR.call_two _ (hR.verbatim (ownText_quoted unit)) h

theorem datePart (part : String) (h : R a a') : R (datePart part a) (datePart part a') :=
  hR.call_two _ (hR.verbatim (ownText_quoted part)) h

theorem extract {part : String} (hpart : OwnText (part ++ " FROM ")) (h : R a a') :
    R (extract part a) (extract part a') :=
  hR.call_one _ (hR.seq (.cons (hR.verbatim hpart) (.cons h .nil)))

theorem secondsOf (h : R a a') : R (secondsOf a) (secondsOf a') :=
  hR.call_one _ (hR.seq (.cons (hR.verbatim (by decide)) (.cons h .nil)))

theorem age (unit : String) (ha : R a a') (hb : R b b') :
    R (age (Compile.dateTrunc unit b) (Compile.dateTrunc unit a))
      (Compile.age (Compile.dateTrunc unit b') (Compile.dateTrunc unit a')) :=
  hR.call_two _ (hR.dateTrunc unit hb) (hR.dateTrunc unit ha)

theorem spanBetween (unit : String) (ha : R a a') (hb : R b b') :
    R (spanBetween unit a b) (spanBetween unit a' b') :=
  hR.binary _ (hR.dateTrunc unit hb) (hR.dateTrunc unit ha)

theorem addUnits (unit : TimeUnit) (ha : R a a') (hb : R b b') : R (addUnits unit a b) (addUnits unit a' b') := by
  cases unit with
  | nanoseconds =>
    exact hR.binary _ ha (hR.binary _ (hR.binary _ hb (hR.int (by decide))) (hR.verbatim (by decide)))
  | _ => exact hR.binary _ ha (hR.binary _ hb (hR.verbatim (by decide)))

theorem diffUnits (unit : TimeUnit) (ha : R a a') (hb : R b b') :
    R (diffUnits unit a b) (diffUnits unit a' b') := by
  have hspan (name : String) := hR.secondsOf (hR.spanBetween name ha hb)
  cases unit with
  | years => exact hR.followedBy (hR.datePart _ (hR.age _ ha hb)) (by decide)
  | months =>
    exact hR.followedBy
      (hR.call_one _ (hR.binary _ (hR.secondsOf (hR.age _ ha hb)) (hR.verbatim (by decide)))) (by decide)
  | days => exact hR.followedBy (hR.datePart _ (hR.spanBetween _ ha hb)) (by decide)
  | hours | minutes => exact hR.binary _ (hR.followedBy (hspan _) (by decide)) (hR.int (by decide))
  | seconds => exact hR.followedBy (hspan _) (by decide)
  | milliseconds | microseconds | nanoseconds => exact hR.cast (hR.binary _ (hspan _) (hR.verbatim (by decide))) _

/-! ## Canonical functions -/

theorem nullary (f : NullaryFunction) : R f.sql f.sql := by
  cases f <;> exact hR.verbatim (by decide)

theorem unary (f : UnaryFunction) (h : R a a') : R (f.sql a) (f.sql a') := by
  cases f with
  | length => exact hR.cast (hR.call_one _ h) _
  | part p => exact hR.cast (hR.extract (by cases p <;> decide) h) _
  | totalOffsetMinutes => exact hR.binary _ (hR.cast (hR.extract (by decide) h) _) (hR.int (by decide))
  | truncateTime => exact hR.dateTrunc _ h
  | bitwiseNot => exact hR.leading _ h
  | _ => exact hR.call_one _ h

theorem binaryFunction (f : BinaryFunction) (ha : R a a') (hb : R b b') : R (f.sql a b) (f.sql a' b') := by
  cases f with
  | concat | bitwiseAnd | bitwiseOr | bitwiseXor => exact hR.binary _ ha hb
  | contains | startsWith => exact hR.binary _ (hR.position hb ha) (hR.int (by decide))
  | indexOf => exact hR.position ha hb
  | left => exact hR.call_three _ ha (hR.int (by decide)) hb
  | right =>
    exact hR.call_two _ ha (hR.binary _ (hR.binary _ (hR.call_one _ ha) (hR.int (by decide))) hb)
  | add unit => exact hR.addUnits unit ha hb
  | diff unit => exact hR.diffUnits unit ha hb
  | power | truncate => exact hR.call_two _ ha hb

theorem ternary (f : TernaryFunction) (ha : R a a') (hb : R b b') (hc : R c c') :
    R (f.sql a b c) (f.sql a' b' c') := by
  cases f <;> exact hR.call_three _ ha hb hc

end Congruence

end TreeSql.Compile
