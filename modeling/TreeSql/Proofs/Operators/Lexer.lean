import TreeSql.Sql.Render

/-
  TreeSql.Proofs.Operators.Lexer — the tokens of operator expressions, and how a text falls into them.

  A token is a quoted name, a parenthesis or a word; an operator is one word or several (`IS NOT
  NULL`). `scan` reads characters one at a time: what it is in the middle of is `Lexing`, which is
  only put out when the next character shows that it has ended. `tokensOf` reads a whole text.

  `scan_render`: the text of an operator tree falls into the tokens that `SqlExpr.tokens` lists,
  which are the names, words and parentheses that writing puts there.
-/
namespace TreeSql.Sql

inductive Token where
  | name (text : String)
  | opening
  | closing
  | word (text : String)
deriving DecidableEq

/-! ## Reading characters -/

/-- What the characters read last belong to. -/
inductive Lexing where
  | between
  | inWord (read : List Char)
  | inName (read : List Char)
  /-- After a quote in a name: the name ends here, or a second quote stands for one in the name. -/
  | afterQuote (read : List Char)
deriving DecidableEq

namespace Lexing

/-- The token that is complete if nothing more belongs to it. A name has to be closed. -/
def ended? : Lexing → Option (List Token)
  | between => some []
  | inWord w => some [.word (String.ofList w)]
  | inName _ => none
  | afterQuote n => some [.name (String.ofList n)]

/-- A character that does not belong to what was read before it. -/
def start : Char → List Token × Lexing
  | ' ' => ([], between)
  | '"' => ([], inName [])
  | '(' => ([.opening], between)
  | ')' => ([.closing], between)
  | c => ([], inWord [c])

/-- Whether a character goes on with a word. -/
def isWordChar (c : Char) : Bool := c != ' ' && c != '"' && c != '(' && c != ')'

def step (s : Lexing) (c : Char) : List Token × Lexing :=
  match s with
  | inName n => if c = '"' then ([], afterQuote n) else ([], inName (n ++ [c]))
  | afterQuote n =>
    if c = '"' then ([], inName (n ++ ['"']))
    else (.name (String.ofList n) :: (start c).1, (start c).2)
  | inWord w =>
    if isWordChar c then ([], inWord (w ++ [c]))
    else (.word (String.ofList w) :: (start c).1, (start c).2)
  | between => start c

/-- The tokens that a text completes, and what it ends in the middle of. -/
def scan (s : Lexing) : List Char → List Token × Lexing
  | [] => ([], s)
  | c :: cs => ((s.step c).1 ++ (scan (s.step c).2 cs).1, (scan (s.step c).2 cs).2)

end Lexing

/-- The tokens of a text. -/
def tokensOf (text : String) : Option (List Token) :=
  let (tokens, last) := Lexing.between.scan text.toList
  last.ended?.map (tokens ++ ·)

example : tokensOf "(\"a\" IS NULL)" =
    some [.opening, .name "a", .word "IS", .word "NULL", .closing] := by decide

/-! ## The tokens that writing puts out -/

/-- The words of an operator. -/
def Operator.words : Operator → List String
  | .trailing .isNull => ["IS", "NULL"]
  | .trailing .isNotNull => ["IS", "NOT", "NULL"]
  | .binary .notIn => ["NOT", "IN"]
  | .binary .notLike => ["NOT", "LIKE"]
  | op => [op.symbol]

def Operator.tokens (op : Operator) : List Token := op.words.map .word

def inParenTokens (ts : List Token) : List Token := .opening :: ts ++ [.closing]

/-- Expressions made of operators over names of columns. -/
inductive OperatorTree (allowed : Operator → Bool) : SqlExpr → Prop
  | column (name : String) : OperatorTree allowed (.property name)
  | binary {op : BinaryOp} {l r : SqlExpr} (h : allowed (.binary op)) (hl : OperatorTree allowed l)
      (hr : OperatorTree allowed r) : OperatorTree allowed (.binary op l r)
  | leading {op : LeadingOp} {r : SqlExpr} (h : allowed (.leading op)) (hr : OperatorTree allowed r) :
      OperatorTree allowed (.leading op r)
  | trailing {op : TrailingOp} {l : SqlExpr} (h : allowed (.trailing op))
      (hl : OperatorTree allowed l) : OperatorTree allowed (.trailing op l)

/-- Whether the left operand stands in parentheses. -/
def wrapsLeftOperand (regime : Regime) (op : Operator) (l : SqlExpr) : Bool :=
  match l.operator? with
  | some c => wrapsLeft regime op c
  | none => false

/-- Whether the right operand stands in parentheses. -/
def wrapsRightOperand (regime : Regime) (follower : Option Operator) (op : Operator) (r : SqlExpr) :
    Bool :=
  match r.operator? with
  | some c => wrapsRight regime follower op c
  | none => false

/-- The tokens of an operator tree as it is written before the given operator. -/
def SqlExpr.tokens (regime : Regime) (follower : Option Operator) : SqlExpr → List Token
  | .property name => [.name name]
  | .binary op l r =>
    (if wrapsLeftOperand regime (.binary op) l then inParenTokens (l.tokens regime none)
      else l.tokens regime (some (.binary op))) ++ (Operator.binary op).tokens ++
    (if wrapsRightOperand regime follower (.binary op) r then inParenTokens (r.tokens regime none)
      else r.tokens regime follower)
  | .leading op r =>
    (Operator.leading op).tokens ++
    (if wrapsRightOperand regime follower (.leading op) r then inParenTokens (r.tokens regime none)
      else r.tokens regime follower)
  | .trailing op l =>
    (if wrapsLeftOperand regime (.trailing op) l then inParenTokens (l.tokens regime none)
      else l.tokens regime (some (.trailing op))) ++ (Operator.trailing op).tokens
  | _ => []
termination_by structural e => e

/-! ## Pieces of a text -/

namespace Lexing

theorem scan_append (s : Lexing) (xs ys : List Char) :
    s.scan (xs ++ ys) =
      ((s.scan xs).1 ++ ((s.scan xs).2.scan ys).1, ((s.scan xs).2.scan ys).2) := by
  induction xs generalizing s with
  | nil => simp [scan]
  | cons x xs ih => simp [scan, ih (s.step x).2]

/-- A blank or a closing parenthesis ends whatever stands before it, a name that is still open apart. -/
theorem step_of_ended {s : Lexing} {ts : List Token} (h : s.ended? = some ts) {c : Char}
    (hc : c = ' ' ∨ c = ')') : s.step c = (ts ++ (start c).1, (start c).2) := by
  cases s with
  | inName n => simp [ended?] at h
  | between | inWord w | afterQuote n =>
    simp only [ended?, Option.some.injEq] at h
    subst h
    rcases hc with rfl | rfl <;> rfl

end Lexing

/-- The text falls into these tokens, and none of them is still open at its end. -/
def Spells (text : List Char) (tokens : List Token) : Prop :=
  ∃ ts, (Lexing.between.scan text).2.ended? = some ts ∧
    (Lexing.between.scan text).1 ++ ts = tokens

theorem tokensOf_of_spells {text : String} {ts : List Token} (h : Spells text.toList ts) :
    tokensOf text = some ts := by
  obtain ⟨last, hl, rfl⟩ := h
  simp [tokensOf, hl]

theorem Spells.append {xs ys : List Char} {ts us : List Token} (hx : Spells xs ts)
    {c : Char} (hc : c = ' ' ∨ c = ')') (hy : Spells (c :: ys) us) :
    Spells (xs ++ c :: ys) (ts ++ us) := by
  obtain ⟨last, hl, rfl⟩ := hx
  obtain ⟨last', hl', rfl⟩ := hy
  refine ⟨last', ?_⟩
  rw [Lexing.scan_append]
  simp only [Lexing.scan, Lexing.step_of_ended hl hc] at hl' ⊢
  exact ⟨hl', by simp [Lexing.step]⟩

/-- A piece that leaves nothing open needs no separator after it. -/
theorem Spells.prepend {xs ys : List Char} {ts us : List Token}
    (hx : Lexing.between.scan xs = (ts, .between)) (hy : Spells ys us) :
    Spells (xs ++ ys) (ts ++ us) := by
  obtain ⟨last, hl, rfl⟩ := hy
  refine ⟨last, ?_⟩
  rw [Lexing.scan_append, hx]
  exact ⟨hl, by simp⟩

/-! ## Names, operators and parentheses -/

theorem scan_name (read cs : List Char) :
    (Lexing.inName read).scan (Postgres.Quote.doubleQuotes cs ++ ['"']) =
      ([], .afterQuote (read ++ cs)) := by
  induction cs generalizing read with
  | nil => simp [Postgres.Quote.doubleQuotes, Lexing.scan, Lexing.step]
  | cons c cs ih =>
    have hstep : Postgres.Quote.doubleQuotes (c :: cs) =
        (if c = '"' then ['"', '"'] else [c]) ++ Postgres.Quote.doubleQuotes cs := rfl
    by_cases hc : c = '"'
    · subst hc
      simp [hstep, Lexing.scan, Lexing.step, ih]
    · simp [hstep, hc, Lexing.scan, Lexing.step, ih]

theorem spells_identifier (name : String) :
    Spells (Postgres.Quote.identifier name).toList [.name name] := by
  refine ⟨[.name name], ?_⟩
  have h : Lexing.between.scan (Postgres.Quote.identifier name).toList =
      ([], .afterQuote name.toList) := by
    simp only [Postgres.Quote.identifier, String.toList_ofList, List.cons_append, Lexing.scan]
    exact Prod.ext (by simp [Lexing.step, Lexing.start, scan_name])
      (by simp [Lexing.step, Lexing.start, scan_name])
  rw [h]
  simp [Lexing.ended?]

theorem scan_binary_text (op : BinaryOp) :
    Lexing.between.scan (Operator.binary op).text.toList = ((Operator.binary op).tokens, .between) := by
  cases op <;> decide

theorem scan_leading_text (op : LeadingOp) :
    Lexing.between.scan (Operator.leading op).text.toList =
      ((Operator.leading op).tokens, .between) := by
  cases op <;> decide

theorem spells_trailing_text (op : TrailingOp) :
    Spells (Operator.trailing op).text.toList (Operator.trailing op).tokens := by
  cases op
  · exact ⟨[.word "NULL"], by decide, by decide⟩
  · exact ⟨[.word "NULL"], by decide, by decide⟩

theorem Spells.inParens {s : String} {ts : List Token} (h : Spells s.toList ts) :
    Spells (inParens s).toList (inParenTokens ts) := by
  have hclose : Spells [')'] [.closing] := ⟨[], by decide, by decide⟩
  have hinner : Spells (s.toList ++ [')']) (ts ++ [.closing]) := h.append (.inr rfl) hclose
  have hopen : Lexing.between.scan ['('] = ([.opening], .between) := by decide
  simpa [Sql.inParens, inParenTokens] using Spells.prepend hopen hinner

/-- An operand spells its tokens in parentheses and without. -/
theorem spells_operand (wraps : Bool) {bare inner : String} {ts us : List Token}
    (hbare : Spells bare.toList ts) (hinner : Spells inner.toList us) :
    Spells (if wraps then inParens inner else bare).toList
      (if wraps then inParenTokens us else ts) := by
  cases wraps
  · exact hbare
  · exact hinner.inParens

theorem Operator.text_binary (op : BinaryOp) :
    ∃ cs, (Operator.binary op).text.toList = ' ' :: cs := by
  cases op <;> exact ⟨_, rfl⟩

theorem Operator.text_trailing (op : TrailingOp) :
    ∃ cs, (Operator.trailing op).text.toList = ' ' :: cs := by
  cases op <;> exact ⟨_, rfl⟩

theorem renderWith_binary (regime : Regime) (select : StageId → String) (follower : Option Operator)
    (op : BinaryOp) (l r : SqlExpr) :
    (SqlExpr.binary op l r).renderWith regime select follower =
      (if wrapsLeftOperand regime (.binary op) l then inParens (l.renderWith regime select none)
        else l.renderWith regime select (some (.binary op))) ++ (Operator.binary op).text ++
      (if wrapsRightOperand regime follower (.binary op) r then
        inParens (r.renderWith regime select none) else r.renderWith regime select follower) := rfl

theorem renderWith_leading (regime : Regime) (select : StageId → String) (follower : Option Operator)
    (op : LeadingOp) (r : SqlExpr) :
    (SqlExpr.leading op r).renderWith regime select follower =
      (Operator.leading op).text ++
      (if wrapsRightOperand regime follower (.leading op) r then
        inParens (r.renderWith regime select none) else r.renderWith regime select follower) := rfl

theorem renderWith_trailing (regime : Regime) (select : StageId → String) (follower : Option Operator)
    (op : TrailingOp) (l : SqlExpr) :
    (SqlExpr.trailing op l).renderWith regime select follower =
      (if wrapsLeftOperand regime (.trailing op) l then inParens (l.renderWith regime select none)
        else l.renderWith regime select (some (.trailing op))) ++ (Operator.trailing op).text := rfl

/-- Writing an operator tree puts out its tokens. -/
theorem spells_render {allowed : Operator → Bool} {e : SqlExpr} (h : OperatorTree allowed e)
    (regime : Regime) (select : StageId → String) (follower : Option Operator) :
    Spells (e.renderWith regime select follower).toList (e.tokens regime follower) := by
  induction h generalizing follower with
  | column name => exact spells_identifier name
  | @binary op l r _ _ _ ihl ihr =>
    obtain ⟨cs, hcs⟩ := Operator.text_binary op
    have hl := spells_operand (wrapsLeftOperand regime (.binary op) l)
      (ihl (some (.binary op))) (ihl none)
    have hr := spells_operand (wrapsRightOperand regime follower (.binary op) r)
      (ihr follower) (ihr none)
    have hop := Spells.prepend (scan_binary_text op) hr
    rw [hcs, List.cons_append] at hop
    have := hl.append (.inl rfl) hop
    rw [← List.cons_append, ← hcs] at this
    simpa [renderWith_binary, SqlExpr.tokens] using this
  | @leading op r _ _ ih =>
    have hr := spells_operand (wrapsRightOperand regime follower (.leading op) r)
      (ih follower) (ih none)
    have := Spells.prepend (scan_leading_text op) hr
    simpa [renderWith_leading, SqlExpr.tokens] using this
  | @trailing op l _ _ ih =>
    obtain ⟨cs, hcs⟩ := Operator.text_trailing op
    have hl := spells_operand (wrapsLeftOperand regime (.trailing op) l)
      (ih (some (.trailing op))) (ih none)
    have hop := spells_trailing_text op
    rw [hcs] at hop
    have := hl.append (.inl rfl) hop
    rw [← hcs] at this
    simpa [renderWith_trailing, SqlExpr.tokens] using this

theorem tokensOf_render {allowed : Operator → Bool} {e : SqlExpr} (h : OperatorTree allowed e)
    (regime : Regime) (select : StageId → String) :
    tokensOf (e.renderWith regime select none) = some (e.tokens regime none) :=
  tokensOf_of_spells (spells_render h regime select none)

end TreeSql.Sql
