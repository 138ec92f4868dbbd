import TreeSql.Compile.Function
import TreeSql.Proofs.Compile.Congruence
import TreeSql.Sql.Render

/-
  TreeSql.Proofs.Compile.UpToConstants — expressions that differ in constants that are equal.

  Constants may be equal and written differently, such as numbers with different numbers of places.
  `UpToConstants` holds of two expressions that are the same but for such constants. They are written in the
  same way but for those (`UpToConstants.renderWith`).
-/
namespace TreeSql

/-! ## Constants that are equal, and texts with them -/

/-- The same constant, or one that is equal to it. -/
def Value.Same (v w : Value) : Prop := v = w ∨ v.eqv w = true

namespace Sql

open Compile Postgres

/-- Texts that are the same but for constants that are equal, as literals or as weights of a rank. -/
inductive TextAlike : String → String → Prop
  | same (text : String) : TextAlike text text
  | literal {v w : Value} (h : v.Same w) : TextAlike (Literal.ofValue v) (Literal.ofValue w)
  | weight {v w : Value} {x y : String} (h : v.Same w) (hx : rankWeight (.constant v) = .ok x)
      (hy : rankWeight (.constant w) = .ok y) : TextAlike x y
  | append {a b a' b' : String} (h : TextAlike a b) (h' : TextAlike a' b') : TextAlike (a ++ a') (b ++ b')

namespace TextAlike

variable {a b a' b' : String} {as bs : List String}

theorem inParens (h : TextAlike a b) : TextAlike (Sql.inParens a) (Sql.inParens b) :=
  ((TextAlike.same "(").append h).append (.same ")")

theorem ite (p : Bool) (h : TextAlike a b) (h' : TextAlike a' b') :
    TextAlike (if p then a else a') (if p then b else b') := by
  cases p with
  | true => exact h
  | false => exact h'

theorem join (h : List.Forall₂ TextAlike as bs) : TextAlike (String.join as) (String.join bs) := by
  induction h with
  | nil => exact .same _
  | cons h _ ih =>
    rw [String.join_cons, String.join_cons]
    exact h.append ih

theorem intercalate (separator : String) (h : List.Forall₂ TextAlike as bs) :
    TextAlike (separator.intercalate as) (separator.intercalate bs) := by
  induction h with
  | nil => exact .same _
  | cons h hs ih =>
    cases hs with
    | nil =>
      rw [String.intercalate_singleton, String.intercalate_singleton]
      exact h
    | cons =>
      rw [String.intercalate_cons_cons, String.intercalate_cons_cons]
      exact (h.append (.same _)).append ih

end TextAlike

/-! ## Expressions up to constants -/

mutual

/-- The same expression, but that constants may be replaced by equal ones. -/
inductive UpToConstants : SqlExpr → SqlExpr → Prop
  | constant {v w : Value} (h : v.Same w) : UpToConstants (.constant v) (.constant w)
  | verbatim {x y : String} (h : TextAlike x y) : UpToConstants (.verbatim x) (.verbatim y)
  | columnRef (qualifier name : String) : UpToConstants (.columnRef qualifier name) (.columnRef qualifier name)
  | property (name : String) : UpToConstants (.property name) (.property name)
  | stage (id : StageId) : UpToConstants (.stage id) (.stage id)
  | seq {as bs : List SqlExpr} (h : UpToConstantsAll as bs) : UpToConstants (.seq as) (.seq bs)
  | list {as bs : List SqlExpr} (h : UpToConstantsAll as bs) : UpToConstants (.list as) (.list bs)
  | paren {a b : SqlExpr} (h : UpToConstants a b) : UpToConstants (.paren a) (.paren b)
  | column {a b : SqlExpr} (h : UpToConstants a b) (name : String) (type : DataType) :
      UpToConstants (.column a name type) (.column b name type)
  | call (name : String) {as bs : List SqlExpr} (h : UpToConstantsAll as bs) :
      UpToConstants (.call name as) (.call name bs)
  | cast {a b : SqlExpr} (h : UpToConstants a b) (type : String) : UpToConstants (.cast a type) (.cast b type)
  | binary (op : BinaryOp) {a b a' b' : SqlExpr} (ha : UpToConstants a a') (hb : UpToConstants b b') :
      UpToConstants (.binary op a b) (.binary op a' b')
  | leading (op : LeadingOp) {a b : SqlExpr} (h : UpToConstants a b) : UpToConstants (.leading op a) (.leading op b)
  | trailing (op : TrailingOp) {a b : SqlExpr} (h : UpToConstants a b) :
      UpToConstants (.trailing op a) (.trailing op b)
  | exists_ {a b : SqlExpr} (h : UpToConstants a b) : UpToConstants (.exists_ a) (.exists_ b)

inductive UpToConstantsAll : List SqlExpr → List SqlExpr → Prop
  | nil : UpToConstantsAll [] []
  | cons {a b : SqlExpr} {as bs : List SqlExpr} (h : UpToConstants a b) (hs : UpToConstantsAll as bs) :
      UpToConstantsAll (a :: as) (b :: bs)

end

theorem upToConstantsAll_of_forall₂ {as bs : List SqlExpr} (h : List.Forall₂ UpToConstants as bs) :
    UpToConstantsAll as bs := by
  induction h with
  | nil => exact .nil
  | cons h _ ih => exact .cons h ih

theorem UpToConstantsAll.append {as bs as' bs' : List SqlExpr} (h : UpToConstantsAll as bs)
    (h' : UpToConstantsAll as' bs') : UpToConstantsAll (as ++ as') (bs ++ bs') := by
  match h with
  | .nil => exact h'
  | .cons h hs => exact .cons h (hs.append h')

mutual

theorem UpToConstants.refl : ∀ a : SqlExpr, UpToConstants a a
  | .constant _ => .constant (.inl rfl)
  | .verbatim text => .verbatim (.same text)
  | .columnRef qualifier name => .columnRef qualifier name
  | .property name => .property name
  | .stage id => .stage id
  | .seq as => .seq (UpToConstantsAll.refl as)
  | .list as => .list (UpToConstantsAll.refl as)
  | .paren a => .paren (UpToConstants.refl a)
  | .column a name type => .column (UpToConstants.refl a) name type
  | .call name as => .call name (UpToConstantsAll.refl as)
  | .cast a type => .cast (UpToConstants.refl a) type
  | .binary op a b => .binary op (UpToConstants.refl a) (UpToConstants.refl b)
  | .leading op a => .leading op (UpToConstants.refl a)
  | .trailing op a => .trailing op (UpToConstants.refl a)
  | .exists_ a => .exists_ (UpToConstants.refl a)

theorem UpToConstantsAll.refl : ∀ as : List SqlExpr, UpToConstantsAll as as
  | [] => .nil
  | a :: as => .cons (UpToConstants.refl a) (UpToConstantsAll.refl as)

end

section

variable {a b : SqlExpr}

theorem UpToConstants.negate (h : UpToConstants a b) : UpToConstants a.negate b.negate := by
  have hself := h
  cases h with
  | binary op ha hb =>
    cases hop : op.negated? with
    | some op' =>
      simp only [SqlExpr.negate, hop]
      exact .binary op' ha hb
    | none =>
      simp only [SqlExpr.negate, hop]
      exact .leading _ hself
  | trailing op h => exact .trailing _ h
  | leading op h =>
    cases op with
    | not => exact h
    | _ => exact .leading _ hself
  | _ => exact .leading _ hself

theorem UpToConstants.followedBy (h : UpToConstants a b) (text : String) :
    UpToConstants (a.followedBy text) (b.followedBy text) := by
  have hself := h
  have hsuffix : UpToConstantsAll [.verbatim text] [.verbatim text] := UpToConstantsAll.refl _
  cases h with
  | seq h => exact .seq (h.append hsuffix)
  | _ => exact .seq (.cons hself hsuffix)

theorem congruence_upToConstants : Congruence UpToConstants where
  verbatim _ := .verbatim (.same _)
  int _ := .refl _
  seq h := .seq (upToConstantsAll_of_forall₂ h)
  list h := .list (upToConstantsAll_of_forall₂ h)
  paren h _ := .paren h
  column h name type := .column h name type
  call name _ _ h := .call name (upToConstantsAll_of_forall₂ h)
  cast h type := .cast h type
  binary op _ _ _ _ ha hb := .binary op ha hb
  leading op _ _ h := .leading op h
  trailing op _ _ h := .trailing op h
  exists_ h := .exists_ h
  negate h := h.negate
  followedBy h _ _ := h.followedBy _

/-- Which parentheses and names are written does not depend on constants. -/
theorem UpToConstants.operator?_eq (h : UpToConstants a b) : a.operator? = b.operator? := by
  cases h <;> rfl

theorem UpToConstants.isColumnNamed_eq (h : UpToConstants a b) (name : String) :
    a.isColumnNamed name = b.isColumnNamed name := by
  cases h <;> rfl

end

mutual

/-- They are written in the same way. -/
theorem UpToConstants.renderWith (regime : Regime) (select : StageId → String) :
    ∀ {a b : SqlExpr}, UpToConstants a b → ∀ follower : Option Operator,
      TextAlike (a.renderWith regime select follower) (b.renderWith regime select follower)
  | _, _, .constant h, _ => .literal h
  | _, _, .verbatim h, _ => h
  | _, _, .columnRef .., _ | _, _, .property _, _ | _, _, .stage _, _ => .same _
  | _, _, .seq h, _ => .join (h.renderAll regime select)
  | _, _, .list h, _ => .intercalate _ (h.renderAll regime select)
  | _, _, .paren h, _ => (h.renderWith regime select none).inParens
  | _, _, .column h name _, _ => by
    rw [SqlExpr.renderWith, SqlExpr.renderWith, h.isColumnNamed_eq name]
    exact (h.renderWith regime select none).append (.same _)
  | _, _, .call name h, _ => (TextAlike.same name).append (TextAlike.intercalate _ (h.renderAll regime select)).inParens
  | _, _, .cast h type, _ =>
    ((((TextAlike.same "CAST(").append (h.renderWith regime select none)).append (.same " AS ")).append
      (.same type)).append (.same ")")
  | _, _, .binary op ha hb, follower => by
    simp only [SqlExpr.renderWith, ha.operator?_eq, hb.operator?_eq]
    exact ((TextAlike.ite _ (ha.renderWith regime select none).inParens
      (ha.renderWith regime select _)).append (.same _)).append
        (TextAlike.ite _ (hb.renderWith regime select none).inParens (hb.renderWith regime select follower))
  | _, _, .leading op h, follower => by
    simp only [SqlExpr.renderWith, h.operator?_eq]
    exact (TextAlike.same _).append
      (TextAlike.ite _ (h.renderWith regime select none).inParens (h.renderWith regime select follower))
  | _, _, .trailing op h, _ => by
    simp only [SqlExpr.renderWith, h.operator?_eq]
    exact (TextAlike.ite _ (h.renderWith regime select none).inParens (h.renderWith regime select _)).append (.same _)
  | _, _, .exists_ h, _ => (TextAlike.same "EXISTS ").append (h.renderWith regime select none).inParens

theorem UpToConstantsAll.renderAll (regime : Regime) (select : StageId → String) :
    ∀ {as bs : List SqlExpr}, UpToConstantsAll as bs →
      List.Forall₂ TextAlike (Sql.renderAll regime select as) (Sql.renderAll regime select bs)
  | _, _, .nil => .nil
  | _, _, .cons h hs => .cons (h.renderWith regime select none) (hs.renderAll regime select)

end

end Sql

end TreeSql
