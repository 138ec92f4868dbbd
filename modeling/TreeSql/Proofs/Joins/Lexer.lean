import TreeSql.Proofs.Joins.Reader
import TreeSql.Proofs.Joins.Words

/-
  TreeSql.Proofs.Joins.Lexer — the tokens of a FROM clause, from its text.

  The words of joins and `ON` cut a clause into parts. A part with parentheses all around is joins again, which
  are taken apart in turn; a source is never such a part, since its alias comes after it. The words are those of
  the text outside quotes and parentheses, so a query in a source may have joins of its own.

  `Begins` says of a text which parts it is, whatever is written behind it. A mark and a `Plain` text, one without
  these words, add one part to it (`Begins.behind`).
-/
namespace TreeSql.Sql.Joins

open Quoting Postgres

/-! ## Parts of a clause -/

/-- The words that are not in sources or conditions. -/
def reserved : List String := ["INNER", "LEFT", "FULL", "OUTER", "CROSS", "JOIN", "LATERAL", "ON"]

inductive Mark where
  | kind (kind : JoinKind)
  | on
deriving DecidableEq

namespace Mark

def words : Mark → List String
  | kind .inner => ["INNER", "JOIN"]
  | kind .leftOuter => ["LEFT", "OUTER", "JOIN"]
  | kind .fullOuter => ["FULL", "OUTER", "JOIN"]
  | kind .cross => ["CROSS", "JOIN"]
  | kind .crossApply => ["CROSS", "JOIN", "LATERAL"]
  | kind .outerApply => ["LEFT", "OUTER", "JOIN", "LATERAL"]
  | on => ["ON"]

/-- A mark as it is written. -/
def text : Mark → String
  | kind k => joinKeyword k
  | on => " ON "

theorem text_eq (mark : Mark) : mark.text = " " ++ " ".intercalate mark.words ++ " " := by
  rcases mark with (_ | _ | _ | _ | _ | _) | _ <;> decide

end Mark

/-- The words before the first mark, and those after each mark. -/
structure Clause where
  first : List String := []
  rest : List (Mark × List String) := []
deriving DecidableEq

namespace Clause

def behind (mark : Mark) (c : Clause) : Clause := ⟨[], (mark, c.first) :: c.rest⟩

def behindWord (w : String) (c : Clause) : Clause := ⟨w :: c.first, c.rest⟩

end Clause

/-- Takes the words of a clause apart. -/
def clause? : List String → Option Clause
  | [] => some {}
  | "INNER" :: "JOIN" :: ws => (clause? ws).map (·.behind (.kind .inner))
  | "LEFT" :: "OUTER" :: "JOIN" :: "LATERAL" :: ws => (clause? ws).map (·.behind (.kind .outerApply))
  | "LEFT" :: "OUTER" :: "JOIN" :: ws => (clause? ws).map (·.behind (.kind .leftOuter))
  | "FULL" :: "OUTER" :: "JOIN" :: ws => (clause? ws).map (·.behind (.kind .fullOuter))
  | "CROSS" :: "JOIN" :: "LATERAL" :: ws => (clause? ws).map (·.behind (.kind .crossApply))
  | "CROSS" :: "JOIN" :: ws => (clause? ws).map (·.behind (.kind .cross))
  | "ON" :: ws => (clause? ws).map (·.behind .on)
  | w :: ws => if w ∈ reserved then none else (clause? ws).map (·.behindWord w)

/-- The text between parentheses around a word. -/
def unparen? (word : String) : Option String :=
  match word.toList with
  | '(' :: cs => if cs.getLast? = some ')' then some (String.ofList cs.dropLast) else none
  | _ => none

/-- A side of a join: joins in parentheses, or a source. -/
def sideTokens? (lex : String → Option (List Token)) : List String → Option (List Token)
  | [] => none
  | [w] => do
    let ts ← lex (← unparen? w)
    return .opening :: ts ++ [.closing]
  | ws => some [.source (" ".intercalate ws)]

def markTokens? (lex : String → Option (List Token)) : Mark × List String → Option (List Token)
  | (.kind kind, ws) => (sideTokens? lex ws).map (.kind kind :: ·)
  | (.on, ws) => some [.on (" ".intercalate ws)]

def clauseTokens? (lex : String → Option (List Token)) (c : Clause) : Option (List Token) := do
  let first ← sideTokens? lex c.first
  let rest ← c.rest.mapM (markTokens? lex)
  return first ++ rest.flatten

/-- The tokens of a clause, with parentheses in each other down to the given depth. -/
def lexTo : (depth : Nat) → String → Option (List Token)
  | 0, _ => none
  | depth + 1, text => ((words? text).bind clause?).bind (clauseTokens? (lexTo depth))

/-- The tokens of a clause. -/
def lex? (text : String) : Option (List Token) := lexTo (text.length + 1) text

/-- Reads the text of a `FROM` clause. -/
def read? (text : String) : Option Outline := (lex? text).bind parse?

/-! ## Words of a clause -/

section

variable {w text text' : String} {ws ws' : List String} {c : Clause}

theorem clause?_word (hw : w ∉ reserved) (ws : List String) :
    clause? (w :: ws) = (clause? ws).map (·.behindWord w) := by
  simp only [reserved, List.mem_cons, List.not_mem_nil, or_false, not_or] at hw
  rw [clause?, if_neg (by simpa [reserved] using hw)] <;> simp_all

theorem clause?_append (h : ∀ w ∈ ws, w ∉ reserved) (hrest : clause? ws' = some c) :
    clause? (ws ++ ws') = some ⟨ws ++ c.first, c.rest⟩ := by
  induction ws with
  | nil => exact hrest
  | cons w ws ih =>
    rw [List.forall_mem_cons] at h
    rw [List.cons_append, clause?_word h.1, ih h.2]
    rfl

theorem clause?_mark (mark : Mark) (hrest : clause? ws = some c) :
    clause? (mark.words ++ ws) = some (c.behind mark) := by
  -- What follows does not begin with the word that would belong to the mark.
  have hlateral (ws' : List String) : ws ≠ "LATERAL" :: ws' := by
    rintro rfl
    simp [clause?, reserved] at hrest
  cases mark with
  | on => simp [Mark.words, clause?, hrest]
  | kind k =>
    cases k with
    | leftOuter =>
      have hwords : (Mark.kind .leftOuter).words ++ ws = "LEFT" :: "OUTER" :: "JOIN" :: ws := rfl
      rw [hwords, clause?, hrest, Option.map_some]
      exact hlateral
    | cross =>
      have hwords : (Mark.kind .cross).words ++ ws = "CROSS" :: "JOIN" :: ws := rfl
      rw [hwords, clause?, hrest, Option.map_some]
      exact hlateral
    | _ => simp [Mark.words, clause?, hrest]

theorem words?_mark (mark : Mark) (h : words? text = some ws) (h' : words? text' = some ws') :
    words? (text ++ mark.text ++ text') = some (ws ++ mark.words ++ ws') := by
  have hwords : words? (" ".intercalate mark.words) = some mark.words := by
    rcases mark with (_ | _ | _ | _ | _ | _) | _ <;> decide
  have htext : text ++ mark.text ++ text' = text ++ " " ++ " ".intercalate mark.words ++ " " ++ text' := by
    rw [mark.text_eq]
    simp only [String.append_assoc]
  rw [htext]
  exact words?_append (words?_append h hwords) h'

/-! ## Texts that are not cut -/

/-- A closed text without words of joins outside quotes and parentheses. -/
def Plain (text : String) : Prop := ∃ ws, words? text = some ws ∧ ∀ w ∈ ws, w ∉ reserved

theorem plain_fixed (h : (words? text).any (fun ws => ws.all fun w => !reserved.contains w) = true) : Plain text := by
  obtain ⟨ws, hws, hplain⟩ := (Option.any_eq_true _ _).mp h
  exact ⟨ws, hws, by simpa using hplain⟩

/-- No reserved word begins with a quote or a parenthesis. -/
theorem not_reserved_of_head (h : w.toList.head? = some '"' ∨ w.toList.head? = some '(') : w ∉ reserved := by
  have hheads : ∀ w ∈ reserved, ¬(w.toList.head? = some '"' ∨ w.toList.head? = some '(') := by decide
  exact fun hw => hheads w hw h

theorem identifier_not_reserved (name : String) : Quote.identifier name ∉ reserved :=
  not_reserved_of_head (.inl (by rw [Quote.identifier, String.toList_ofList]; rfl))

theorem inParens_not_reserved (text : String) : inParens text ∉ reserved :=
  not_reserved_of_head (.inr (by simp [inParens]))

/-- All that stands in parentheses is plain. -/
theorem plain_inParens (h : Quoting.Closed text) : Plain (inParens text) :=
  ⟨_, words?_inParens h, by simpa using inParens_not_reserved text⟩

/-! ## Beginnings of clauses -/

/-- Whatever is written behind the text, these are the parts up to there. -/
def Begins (text : String) (c : Clause) : Prop :=
  ∃ ws, words? text = some ws ∧
    ∀ ws' rest, clause? ws' = some ⟨[], rest⟩ → clause? (ws ++ ws') = some ⟨c.first, c.rest ++ rest⟩

theorem begins_plain (hws : words? text = some ws) (hplain : ∀ w ∈ ws, w ∉ reserved) : Begins text ⟨ws, []⟩ := by
  refine ⟨ws, hws, fun ws' rest hrest => ?_⟩
  rw [clause?_append hplain hrest, List.append_nil, List.nil_append]

theorem Begins.closed (h : Begins text c) : Quoting.Closed text :=
  have ⟨_, hws, _⟩ := h
  closed_of_words? hws

/-- The clause as a whole. -/
theorem Begins.clause (h : Begins text c) : (words? text).bind clause? = some c := by
  obtain ⟨ws, hws, hrest⟩ := h
  have hall := hrest [] [] rfl
  rw [List.append_nil, List.append_nil] at hall
  rw [hws]
  exact hall

/-- A mark and what is written behind it are one more part. -/
theorem Begins.behind (h : Begins text c) (mark : Mark) (hws : words? text' = some ws)
    (hplain : ∀ w ∈ ws, w ∉ reserved) : Begins (text ++ mark.text ++ text') ⟨c.first, c.rest ++ [(mark, ws)]⟩ := by
  obtain ⟨ws₀, hws₀, hbegins⟩ := h
  refine ⟨_, words?_mark mark hws₀ hws, fun ws' rest hrest => ?_⟩
  have hmark := clause?_mark mark (clause?_append hplain hrest)
  rw [List.append_nil] at hmark
  rw [List.append_assoc, List.append_assoc, hbegins _ _ hmark, List.append_assoc]
  rfl

end

end TreeSql.Sql.Joins
