import TreeSql.Proofs.Compile.Operators
import TreeSql.Proofs.Joins.Lexer
import TreeSql.Proofs.Quoting.Stages

/-
  TreeSql.Proofs.Joins.ReadBack — a tree of joins is read back from its text.

  `joins_read_back`, for all trees in which applies have one item on the right: the text is made of tokens that are
  read as the tree, and so is the text itself, unless it has the words of joins inside a source or a condition.
  Nesting, kinds, sources in order and the condition of each join come back; where a join has none, and for an
  outer apply, it is `TRUE`.

  Compiling makes such trees (`appliesToItems_joinTree`). A query as a source is in parentheses, so what it is
  made of does not matter (`plain_source`).
-/
namespace TreeSql.Sql

open Quoting Compile

namespace Joins

/-! ## Texts of outlines -/

def Token.text : Token → String
  | source text => text
  | opening => "("
  | closing => ")"
  | kind k => joinKeyword k
  | on c => " ON " ++ c

namespace Outline

/-- The text of the tokens, one after the other. -/
def text (x : Outline) : String := String.join (x.tokens.map Token.text)

/-- The texts of sources and conditions are not cut, and a source has more words than one. -/
def Plain : Outline → Prop
  | source text => ∃ ws, words? text = some ws ∧ (∀ w ∈ ws, w ∉ reserved) ∧ 1 < ws.length
  | join l _ r condition => l.Plain ∧ r.Plain ∧ ∀ text ∈ condition, Joins.Plain text

@[simp] theorem text_source (text : String) : (source text).text = text := by
  simp [Outline.text, tokens, Token.text]

/-- The text of a right side. -/
def sideText (r : Outline) : String := if r.isJoin then inParens r.text else r.text

theorem text_join (l : Outline) (kind : JoinKind) (r : Outline) (condition : Option String) :
    (join l kind r condition).text =
      l.text ++ joinKeyword kind ++ r.sideText ++ (condition.map (" ON " ++ ·)).getD "" := by
  cases hr : r.isJoin <;> cases condition <;>
    simp [text, tokens, sideText, hr, Token.text, inParens, String.join_append, String.append_assoc]

end Outline

/-! ## Tokens of outlines -/

variable {lex : String → Option (List Token)} {c : Clause} {ts us : List Token} {mark : Mark} {ws : List String}
variable {text : String} {x r : Outline}

theorem clauseTokens?_behind (h : clauseTokens? lex c = some ts) (hmark : markTokens? lex (mark, ws) = some us) :
    clauseTokens? lex ⟨c.first, c.rest ++ [(mark, ws)]⟩ = some (ts ++ us) := by
  obtain ⟨first, hfirst, h⟩ := Option.bind_eq_some_iff.mp h
  obtain ⟨rest, hrest, hts⟩ := Option.bind_eq_some_iff.mp h
  obtain rfl := Option.some.inj hts
  simp [clauseTokens?, hfirst, List.mapM_append, hrest, hmark]

/-- A source is one side, of all its words. -/
theorem sideTokens?_source (hws : words? text = some ws) (hmany : 1 < ws.length) :
    sideTokens? lex ws = some [.source text] := by
  rw [← intercalate_words hws]
  match ws with
  | [] | [_] => simp at hmany
  | _ :: _ :: _ => rfl

/-- A text in parentheses is one side, of the tokens of the text inside. -/
theorem sideTokens?_inParens (h : lex text = some ts) :
    sideTokens? lex [inParens text] = some (.opening :: ts ++ [.closing]) := by
  have hunparen : unparen? (inParens text) = some text := by simp [unparen?, inParens]
  rw [sideTokens?, hunparen]
  simp [h]

/-- What a text of joins begins with, and its tokens. -/
def Lexes (text : String) (ts : List Token) : Prop :=
  ∃ c, Begins text c ∧ ∀ n, text.length ≤ n → clauseTokens? (lexTo n) c = some ts

theorem Lexes.toDepth (h : Lexes text ts) {n : Nat} (hn : text.length < n) : lexTo n text = some ts := by
  obtain ⟨c, hbegins, htokens⟩ := h
  obtain ⟨n, rfl⟩ : ∃ k, n = k + 1 := ⟨n - 1, by omega⟩
  rw [lexTo, hbegins.clause, Option.bind_some, htokens n (by omega)]

/-- A side behind the keyword of a join. -/
theorem Lexes.join {side : String} (h : Lexes text ts) (kind : JoinKind) (hws : words? side = some ws)
    (hplain : ∀ w ∈ ws, w ∉ reserved) (hside : ∀ n, side.length < n → sideTokens? (lexTo n) ws = some us) :
    Lexes (text ++ joinKeyword kind ++ side) (ts ++ .kind kind :: us) := by
  obtain ⟨c, hbegins, htokens⟩ := h
  have hkeyword : 0 < (joinKeyword kind).length := by cases kind <;> decide
  refine ⟨_, hbegins.behind (.kind kind) hws hplain, fun n hn => ?_⟩
  rw [String.length_append, String.length_append] at hn
  refine clauseTokens?_behind (htokens n (by omega)) ?_
  rw [markTokens?, hside n (by omega), Option.map_some]

theorem Lexes.condition {condition : String} (h : Lexes text ts) (hplain : Plain condition) :
    Lexes (text ++ " ON " ++ condition) (ts ++ [.on condition]) := by
  obtain ⟨c, hbegins, htokens⟩ := h
  obtain ⟨ws, hws, hplain⟩ := hplain
  refine ⟨_, hbegins.behind .on hws hplain, fun n hn => ?_⟩
  rw [String.length_append, String.length_append] at hn
  refine clauseTokens?_behind (htokens n (by omega)) ?_
  rw [markTokens?, intercalate_words hws]

/-- A right side is a source, or joins of its own in parentheses. -/
theorem sideTokens?_sideText (h : r.Plain) (hr : Lexes r.text r.tokens) :
    ∃ ws, words? r.sideText = some ws ∧ (∀ w ∈ ws, w ∉ reserved) ∧ ∀ n, r.sideText.length < n →
      sideTokens? (lexTo n) ws = some (if r.isJoin then .opening :: r.tokens ++ [.closing] else r.tokens) := by
  cases r with
  | source text =>
    obtain ⟨ws, hws, hplain, hmany⟩ := h
    have htext : (Outline.source text).sideText = text := Outline.text_source text
    exact ⟨ws, htext ▸ hws, hplain, fun n _ => sideTokens?_source hws hmany⟩
  | join l kind r condition =>
    have ⟨_, hbegins, _⟩ := hr
    refine ⟨_, words?_inParens hbegins.closed, by simpa using inParens_not_reserved _, fun n hn => ?_⟩
    refine sideTokens?_inParens (hr.toDepth ?_)
    rw [Outline.sideText, Outline.isJoin, if_pos rfl, inParens, String.length_append, String.length_append] at hn
    omega

theorem lexes_text (h : x.Plain) : Lexes x.text x.tokens := by
  induction x with
  | source text =>
    obtain ⟨ws, hws, hplain, hmany⟩ := h
    refine ⟨_, (Outline.text_source text).symm ▸ begins_plain hws hplain, fun n _ => ?_⟩
    simp [clauseTokens?, sideTokens?_source hws hmany, Outline.tokens]
  | join l kind r condition ihl ihr =>
    obtain ⟨hl, hr, hcondition⟩ := h
    obtain ⟨ws, hws, hplain, hside⟩ := sideTokens?_sideText hr (ihr hr)
    have hjoin := (ihl hl).join kind hws hplain hside
    rw [Outline.text_join, Outline.tokens]
    cases condition with
    | none => simpa using hjoin
    | some text => simpa [String.append_assoc] using hjoin.condition (hcondition text rfl)

/-- A complete tree is read from its text. -/
theorem read?_text (hplain : x.Plain) (h : x.Complete) : read? x.text = some x := by
  have hlex : lex? x.text = some x.tokens := (lexes_text hplain).toDepth (Nat.lt_succ_self _)
  rw [read?, hlex, Option.bind_some, parse?_tokens h]

end Joins

/-! ## Trees of joins -/

open Joins

/-- The condition that is written for a join, if its kind takes one. -/
def conditionText? (kind : JoinKind) (condition : Option String) : Option String :=
  match kind, condition with
  | .cross, _ | .crossApply, _ => none
  | .outerApply, _ | _, none => some "TRUE"
  | _, some c => some c

theorem joinCondition_eq (kind : JoinKind) (condition : Option String) :
    joinCondition kind condition = ((conditionText? kind condition).map (" ON " ++ ·)).getD "" := by
  cases kind <;> cases condition <;> rfl

theorem isSome_conditionText? (kind : JoinKind) (condition : Option String) :
    (conditionText? kind condition).isSome = takesCondition kind := by
  cases kind <;> cases condition <;> rfl

theorem plain_conditionText {kind : JoinKind} {condition : Option String} (h : ∀ s ∈ condition, Plain s) :
    ∀ text ∈ conditionText? kind condition, Plain text := by
  have htrue : Plain "TRUE" := plain_fixed (by decide)
  intro text htext
  unfold conditionText? at htext
  split at htext
  · cases htext
  · cases htext
  · exact Option.some.inj htext ▸ htrue
  · exact Option.some.inj htext ▸ htrue
  · exact h _ htext

variable {regime : Regime} {stages : Stages} {select : StageId → String} {t : FromTree}

namespace FromTree

/-- The right side of an apply is one item. -/
def AppliesToItems : FromTree → Prop
  | item _ => True
  | join l kind r _ => l.AppliesToItems ∧ r.AppliesToItems ∧ (kind.isApply = true → r.isJoin = false)

/-- The tree of the texts of its items and conditions. -/
def outline (regime : Regime) (stages : Stages) (select : StageId → String) : FromTree → Outline
  | item i => .source (i.renderWith regime stages select)
  | join l kind r condition =>
    .join (l.outline regime stages select) kind (r.outline regime stages select)
      (conditionText? kind (condition.map fun c => c.renderWith regime select none))

/-- No text of a source or of a condition has words of joins outside quotes and parentheses. -/
def Plain (regime : Regime) (stages : Stages) (select : StageId → String) : FromTree → Prop
  | item i => Joins.Plain ((i.resolve stages stages.length).source.renderWith regime select)
  | join l _ r condition =>
    l.Plain regime stages select ∧ r.Plain regime stages select ∧
      ∀ e ∈ condition, Joins.Plain (e.renderWith regime select none)

theorem isJoin_outline (t : FromTree) : (t.outline regime stages select).isJoin = t.isJoin := by
  cases t <;> rfl

theorem AppliesToItems.complete (h : t.AppliesToItems) : (t.outline regime stages select).Complete := by
  induction t with
  | item i => trivial
  | join l kind r condition ihl ihr =>
    obtain ⟨hl, hr, happly⟩ := h
    refine ⟨ihl hl, ihr hr, isSome_conditionText? _ _, fun hkind => ?_⟩
    rw [isJoin_outline, happly hkind]

theorem renderWith_eq_text (t : FromTree) :
    t.renderWith regime stages select = (t.outline regime stages select).text := by
  induction t with
  | item i => simp [renderWith, outline]
  | join l kind r condition ihl ihr =>
    rw [renderWith, outline, Outline.text_join, Outline.sideText, isJoin_outline, ihl, ihr, joinCondition_eq]

end FromTree

/-- A source with its alias is of more words than one. -/
theorem plain_outline_item {i : FromItem} (h : (FromTree.item i).Plain regime stages select) :
    (Outline.source (i.renderWith regime stages select)).Plain := by
  obtain ⟨ws, hws, hplain⟩ := h
  have has : words? "AS" = some ["AS"] := by decide
  have hname := words?_identifier (i.resolve stages stages.length).name
  have htext : i.renderWith regime stages select =
      (i.resolve stages stages.length).source.renderWith regime select ++ " " ++ "AS" ++ " " ++
        Postgres.Quote.identifier (i.resolve stages stages.length).name := by
    simp [FromItem.renderWith, asName, String.append_assoc]
  refine ⟨_, htext ▸ words?_append (words?_append hws has) hname, ?_, by simp⟩
  have hAS : "AS" ∉ reserved := by decide
  simpa [or_imp, forall_and, hAS, identifier_not_reserved] using hplain

theorem FromTree.Plain.outline (h : t.Plain regime stages select) : (t.outline regime stages select).Plain := by
  induction t with
  | item i => exact plain_outline_item h
  | join l kind r condition ihl ihr =>
    obtain ⟨hl, hr, hcondition⟩ := h
    refine ⟨ihl hl, ihr hr, plain_conditionText fun s hs => ?_⟩
    obtain ⟨e, he, rfl⟩ := Option.map_eq_some_iff.mp hs
    exact hcondition e he

/-- A query stands in parentheses, so it is plain whatever it is made of. -/
theorem plain_source {source : Source} (hselect : ∀ id, Reads (select id))
    (htext : ∀ text, source = .table text → Joins.Plain text)
    (hexpr : ∀ e, source = .function e ∨ source = .rows e → Joins.Plain (e.renderWith regime select none)) :
    Joins.Plain (source.renderWith regime select) := by
  cases source with
  | stage id => exact plain_inParens (hselect id).closed
  | table text => exact htext text rfl
  | function e => exact hexpr e (.inl rfl)
  | rows e => exact hexpr e (.inr rfl)
  | setOp kind operands =>
    have hkeyword : Runs .any .clear 0 0 (setOpKeyword kind) := by cases kind <;> exact runs_fixed (by decide)
    refine plain_inParens (Reads.closed (reads_intercalate hkeyword fun s hs => ?_))
    obtain ⟨id, -, rfl⟩ := List.mem_map.mp hs
    exact reads_inParens (hselect id)

/-! ## Compiled joins -/

section

variable {p : Parts} {c : Context} {s s' : State} {stage : StageId} {f : FromTree}

/-- The trees that joins are compiled to have one item on the right of an apply. -/
theorem appliesToItems_joinTree {node : NodeId} {e : Expr} {var : String}
    (h : Gives (joinTree p node stage e var) c s f s') : f.AppliesToItems := by
  induction e, var using joinTree.induct generalizing c s s' f with
  | case1 var kind l lv r rv condition ihl ihr =>
    obtain ⟨left, t, right, u, hl, hright, h⟩ := joinTree_inv h
    obtain ⟨condition, rfl⟩ := joined_eq h
    rcases hright with ⟨-, item, -, rfl⟩ | ⟨hkind, hr⟩
    · exact ⟨ihl hl, trivial, fun _ => rfl⟩
    · exact ⟨ihl hl, ihr hr, fun happly => absurd happly hkind⟩
  | case2 var e hjoin =>
    obtain ⟨item, -, rfl⟩ := joinTree_side_inv hjoin h
    trivial

end

/-! ## Whole clauses -/

/-- The text of a tree of joins is read back as the tree, with its sources in order and the condition of each
    join. -/
theorem joins_read_back (regime : Regime) (stages : Stages) (select : StageId → String) {t : FromTree}
    (h : t.AppliesToItems) :
    t.renderWith regime stages select =
        String.join ((t.outline regime stages select).tokens.map Token.text) ∧
      parse? (t.outline regime stages select).tokens = some (t.outline regime stages select) ∧
      (t.Plain regime stages select →
        read? (t.renderWith regime stages select) = some (t.outline regime stages select)) := by
  refine ⟨t.renderWith_eq_text, parse?_tokens h.complete, fun hplain => ?_⟩
  rw [t.renderWith_eq_text]
  exact read?_text hplain.outline h.complete

/-- Joins to both sides, without and with a condition, and an apply to a query. -/
def nestedJoins : FromTree :=
  let table (name : String) : FromTree := .item { source := .table name, name }
  let inner := .join (table "b") .inner (table "c") (some (.property "x"))
  .join (.join (.join (table "a") .leftOuter inner none) .cross (table "d") none) .outerApply
    (.item { source := .stage 0, name := "e", forceSubquery := true }) none

/-- A query with a join in it, and text like one. -/
def joiningQuery : String := "SELECT 1 FROM f INNER JOIN g ON ' ON '"

theorem nestedJoins_read_back : nestedJoins.AppliesToItems ∧
    read? (nestedJoins.renderWith .modern [] fun _ => joiningQuery) =
      some (.join (.join (.join (.source "a AS \"a\"") .leftOuter (.join (.source "b AS \"b\"") .inner
        (.source "c AS \"c\"") (some "\"x\"")) (some "TRUE")) .cross (.source "d AS \"d\"") none)
        .outerApply (.source "(SELECT 1 FROM f INNER JOIN g ON ' ON ') AS \"e\"") (some "TRUE")) := by
  have happlies : nestedJoins.AppliesToItems := by
    simp [nestedJoins, FromTree.AppliesToItems, FromTree.isJoin, JoinKind.isApply]
  have hcondition : ∀ e ∈ some (SqlExpr.property "x"), Plain (e.renderWith .modern (fun _ => joiningQuery) none) := by
    intro e he
    obtain rfl := Option.some.inj he
    exact plain_fixed (by decide)
  have hnone : ∀ e ∈ (none : Option SqlExpr), Plain (e.renderWith .modern (fun _ => joiningQuery) none) := by simp
  have hplain : nestedJoins.Plain .modern [] fun _ => joiningQuery :=
    ⟨⟨⟨plain_fixed (by decide), ⟨plain_fixed (by decide), plain_fixed (by decide), hcondition⟩, hnone⟩,
      plain_fixed (by decide), hnone⟩, plain_fixed (by decide), hnone⟩
  exact ⟨happlies, (joins_read_back .modern [] (fun _ => joiningQuery) happlies).2.2 hplain⟩

example : nestedJoins.renderWith .modern [] (fun _ => "f") =
    "a AS \"a\" LEFT OUTER JOIN (b AS \"b\" INNER JOIN c AS \"c\" ON \"x\") ON TRUE" ++
      " CROSS JOIN d AS \"d\" LEFT OUTER JOIN LATERAL (f) AS \"e\" ON TRUE" := by
  cbv

end TreeSql.Sql
