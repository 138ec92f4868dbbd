import TreeSql.Proofs.Quoting.Texts
import TreeSql.Sql.Render

/-
  TreeSql.Proofs.Quoting.Expressions — expressions and stages that read.

  `SqlExpr.Safe` says of an expression that the texts it is made of read. Its own text reads then, if those
  of the stages inside do (`Safe.reads`); fragments that do not read by themselves, such as those of a
  `CASE`, have to read together. A stage is safe if its expressions are; it takes all stages to be safe
  for the text of one to read, because a stage is written with those inside it (`reads_selectTo`).
-/
namespace TreeSql.Quoting

open Sql Postgres

/-! ## Lists of texts -/

section

variable {s s' separator : String} {texts : List String}

theorem reads_intercalate (hseparator : Runs .any .clear 0 0 separator) (h : ∀ s ∈ texts, Reads s) :
    Reads (separator.intercalate texts) := by
  induction texts with
  | nil => exact runs_empty.toAny
  | cons s rest ih =>
    rw [List.forall_mem_cons] at h
    cases rest with
    | nil =>
      rw [String.intercalate_singleton]
      exact h.1
    | cons s' rest =>
      rw [String.intercalate_cons_cons]
      exact (h.1.append hseparator).append (ih h.2)

theorem runs_comma : Runs .any .clear 0 0 ", " := runs_fixed (by decide)

/-- Texts of a list with commas between them. -/
theorem reads_list {α : Type} {l : List α} {text : α → String} (h : ∀ x ∈ l, Reads (text x)) :
    Reads (", ".intercalate (l.map text)) := by
  refine reads_intercalate runs_comma fun s hs => ?_
  obtain ⟨x, hx, rfl⟩ := List.mem_map.mp hs
  exact h x hx

theorem reads_ite {c : Prop} [Decidable c] (h : Reads s) (h' : Reads s') : Reads (if c then s else s') := by
  split
  · exact h
  · exact h'

theorem reads_inParens (h : Reads s) : Reads (inParens s) := h.inParens.toAny.ofAny

/-- A name of a column after its value. -/
theorem runs_asName (name : String) : Runs .any .any 0 0 (asName name) := by
  have has : Runs .any .clear 0 0 " AS " := runs_fixed (by decide)
  exact has.append (reads_identifier name)

theorem runs_optional {c : Prop} [Decidable c] (h : Runs .any .any 0 0 s) :
    Runs .any .any 0 0 (if c then "" else s) := by
  split
  · exact runs_empty
  · exact h

theorem runs_binary (op : BinaryOp) : Runs .any .clear 0 0 (Operator.binary op).text := by
  cases op <;> exact runs_fixed (by decide)

theorem runs_leading (op : LeadingOp) : Runs .clear .clear 0 0 (Operator.leading op).text := by
  cases op <;> exact runs_fixed (by decide)

theorem runs_trailing (op : TrailingOp) : Runs .any .any 0 0 (Operator.trailing op).text := by
  cases op <;> exact runs_fixed (by decide)

end

end TreeSql.Quoting

/-! ## Expressions -/

namespace TreeSql.Sql.SqlExpr

open Quoting

mutual

/-- Whether the texts in an expression read. Fragments in a row have to read together, wherever the stages
    that they refer to do. -/
def Safe : SqlExpr → Prop
  | verbatim text => Reads text
  | seq parts => ∀ regime (select : StageId → String), (∀ id, Reads (select id)) →
    Reads (String.join (renderAll regime select parts))
  | list items => SafeAll items
  | paren e | column e _ _ | leading _ e | trailing _ e | exists_ e => Safe e
  | call name args => Reads name ∧ SafeAll args
  | cast e type => Safe e ∧ Reads type
  | binary _ l r => Safe l ∧ Safe r
  | constant _ | columnRef .. | property _ | stage _ => True
termination_by structural e => e

def SafeAll : List SqlExpr → Prop
  | [] => True
  | e :: es => Safe e ∧ SafeAll es
termination_by structural es => es

end

theorem safeAll_iff {es : List SqlExpr} : SafeAll es ↔ ∀ e ∈ es, Safe e := by
  induction es with
  | nil => simp [SafeAll]
  | cons e es ih => simp [SafeAll, ih]

section

variable {regime : Regime} {select : StageId → String}

mutual

/-- A safe expression reads, wherever the stages inside it do. -/
theorem Safe.reads (hselect : ∀ id, Reads (select id)) :
    ∀ {e : SqlExpr}, e.Safe → ∀ follower, Reads (e.renderWith regime select follower)
  | verbatim text, h, _ => h
  | seq parts, h, _ => h regime select hselect
  | list items, h, _ => reads_intercalate runs_comma (SafeAll.reads hselect h)
  | paren e, h, _ => reads_inParens (Safe.reads hselect (e := e) h none)
  | constant v, _, _ => reads_literal v
  | column e name _, h, _ => (Safe.reads hselect (e := e) h none).append (runs_optional (runs_asName name))
  | columnRef qualifier name, _, _ =>
    have hpoint : Runs .any .clear 0 0 "." := runs_fixed (by decide)
    ((reads_identifier qualifier).append hpoint).append (reads_identifier name)
  | property name, _, _ => reads_identifier name
  | call _ args, h, _ => h.1.append (reads_intercalate runs_comma (SafeAll.reads hselect h.2)).inParens.toAny
  | cast e _, h, _ =>
    have hopen : Runs .clear .clear 0 1 "CAST(" := runs_fixed (by decide)
    have has : Runs .any .clear 1 1 " AS " := runs_fixed (by decide)
    have hclose : Runs .any .any 1 0 ")" := runs_fixed (by decide)
    (((hopen.append ((Safe.reads hselect h.1 none).deeper 1)).append has).append (h.2.deeper 1)).append hclose
  | binary op l r, h, follower => by
    have hl (follower : Option Operator) := Safe.reads hselect h.1 follower
    have hr (follower : Option Operator) := Safe.reads hselect h.2 follower
    rw [renderWith]
    exact ((reads_ite (reads_inParens (hl none)) (hl _)).append (runs_binary op)).append
      (reads_ite (reads_inParens (hr none)) (hr follower))
  | leading op e, h, follower => by
    have he (follower : Option Operator) := Safe.reads hselect (e := e) h follower
    rw [renderWith]
    exact (runs_leading op).append (reads_ite (reads_inParens (he none)) (he follower))
  | trailing op e, h, _ => by
    have he (follower : Option Operator) := Safe.reads hselect (e := e) h follower
    rw [renderWith]
    exact (reads_ite (reads_inParens (he none)) (he _)).append (runs_trailing op)
  | exists_ e, h, _ =>
    have hexists : Runs .clear .clear 0 0 "EXISTS " := runs_fixed (by decide)
    hexists.append (reads_inParens (Safe.reads hselect (e := e) h none))
  | stage id, _, _ => hselect id

theorem SafeAll.reads (hselect : ∀ id, Reads (select id)) :
    ∀ {es : List SqlExpr}, SafeAll es → ∀ s ∈ renderAll regime select es, Reads s
  | [], _, s, hs => by cases hs
  | e :: es, h, s, hs => by
    rw [renderAll] at hs
    rcases List.mem_cons.mp hs with rfl | hs
    · exact Safe.reads hselect h.1 none
    · exact SafeAll.reads hselect h.2 s hs

end

end

variable {a b c e : SqlExpr}

/-! ## Expressions put together -/

theorem Safe.negate (h : e.Safe) : e.negate.Safe := by
  unfold SqlExpr.negate
  split
  · split <;> exact h
  · exact h
  · exact h
  · exact h

/-- Two expressions with a separator between them. -/
theorem safe_between (ha : a.Safe) (hb : b.Safe) {separator : String} (h : Runs .any .clear 0 0 separator) :
    (seq [a, verbatim separator, b]).Safe := by
  intro regime select hselect
  have htext : String.join (renderAll regime select [a, verbatim separator, b]) =
      a.renderWith regime select none ++ separator ++ b.renderWith regime select none := by
    simp [renderAll, renderWith, String.append_assoc]
  rw [htext]
  exact ((ha.reads hselect none).append h).append (hb.reads hselect none)

/-- Words in front of an expression. -/
theorem safe_after {words : String} (h : Runs .clear .clear 0 0 words) (he : e.Safe) :
    (seq [verbatim words, e]).Safe := by
  intro regime select hselect
  have htext : String.join (renderAll regime select [verbatim words, e]) =
      words ++ e.renderWith regime select none := by
    simp [renderAll, renderWith]
  rw [htext]
  exact h.append (he.reads hselect none)

theorem renderAll_append (regime : Regime) (select : StageId → String) (es es' : List SqlExpr) :
    renderAll regime select (es ++ es') = renderAll regime select es ++ renderAll regime select es' := by
  induction es with
  | nil => rfl
  | cons e es ih => rw [List.cons_append, renderAll, renderAll, ih, List.cons_append]

theorem Safe.followedBy (he : e.Safe) {suffix : String} (h : Runs .any .any 0 0 suffix) :
    (e.followedBy suffix).Safe := by
  have hsingle (e : SqlExpr) (he : e.Safe) : (seq [e, verbatim suffix]).Safe := by
    intro regime select hselect
    have htext : String.join (renderAll regime select [e, verbatim suffix]) =
        e.renderWith regime select none ++ suffix := by
      simp [renderAll, renderWith]
    rw [htext]
    exact (he.reads hselect none).append h
  unfold SqlExpr.followedBy
  split
  · rename_i parts
    intro regime select hselect
    rw [renderAll_append, String.join_append]
    have hparts := he regime select hselect
    have hsuffix : String.join (renderAll regime select [verbatim suffix]) = suffix := by
      simp [renderAll, renderWith]
    rw [hsuffix]
    exact hparts.append h
  · exact hsingle e he

end TreeSql.Sql.SqlExpr
