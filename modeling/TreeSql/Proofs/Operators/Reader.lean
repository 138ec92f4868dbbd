import TreeSql.Proofs.Operators.Lexer

/-
  TreeSql.Proofs.Operators.Reader — operator expressions read by binding powers.

  A `Grammar` says how tightly each operator binds to either side and what happens to two operators
  of the same power in a row. The reader goes through the tokens once. Operators whose right operand
  is not complete wait on a stack; when the next operator comes, those that bind their right operand
  at least as tightly take what was read last (`settle`), and the others go on waiting. So an
  operator before its operand takes the longest operand made of operators that bind tighter than it.

  `settle_append`: waiting operators that all give way to the next one collapse into one operand.
-/
namespace TreeSql.Sql

/-! ## Grammars -/

/-- What two operators of one power mean in a row: the left one first, the right one first, or an
    error. -/
inductive Chaining where
  | fromLeft
  | fromRight
  | refused
deriving DecidableEq

structure Grammar where
  /-- How tightly an operator binds what stands before it. -/
  before : Operator → Nat
  /-- How tightly an operator binds what stands after it. -/
  after : Operator → Nat
  chaining : Operator → Chaining

namespace Grammar

/-- The grammar of servers from 9.5 on: the levels of IS, the comparisons and IN / LIKE do not
    chain, all others group from the left. -/
def modern : Grammar where
  before := Operator.modernPower
  after := Operator.modernPower
  chaining op := if op.modernPower ∈ [4, 5, 6] then .refused else .fromLeft

/-! ## Reading -/

/-- An operand with the operator at its top, unless that is in parentheses. -/
@[ext] structure Operand where
  expr : SqlExpr
  top : Option Operator

/-- What waits for its right operand, or for its closing parenthesis. -/
inductive Frame where
  | opening
  | leading (op : LeadingOp)
  | binary (op : BinaryOp) (left : SqlExpr)

namespace Frame

def operator? : Frame → Option Operator
  | opening => none
  | leading op => some (.leading op)
  | binary op _ => some (.binary op)

/-- What a waiting operator makes of its right operand. -/
def take : Frame → Operand → Operand
  | opening, x => x
  | leading op, x => ⟨.leading op x.expr, some (.leading op)⟩
  | binary op l, x => ⟨.binary op l x.expr, some (.binary op)⟩

end Frame

inductive Reading where
  /-- An operand has to come next. -/
  | wanting (stack : List Frame)
  /-- An operand was read, and the first words of an operator after it. -/
  | holding (stack : List Frame) (operand : Operand) (words : List String)

variable (g : Grammar)

/-- Whether an operator is done with its right operand when the next one comes. -/
def yields (waiting next : Operator) : Bool :=
  g.before next < g.after waiting ||
    (g.before next == g.after waiting && g.chaining waiting != .fromRight)

/-- Whether an operand may stand before an operator: not if the two are a chain that is refused. -/
def admits (x : Operand) (next : Operator) : Bool :=
  match x.top with
  | some op => !(g.after op == g.before next && g.chaining op == .refused)
  | none => true

/-- The waiting operators that are done before the next one take their right operand. -/
def settle (next : Operator) : List Frame → Operand → List Frame × Operand
  | [], x => ([], x)
  | f :: s, x => if f.operator?.any (g.yields · next) then settle next s (f.take x) else (f :: s, x)

/-- All operators that wait since the last open parenthesis take their right operand. -/
def close : List Frame → Operand → List Frame × Operand
  | [], x => ([], x)
  | f :: s, x => if f.operator?.isSome then close s (f.take x) else (f :: s, x)

def leadingOf? (word : String) : Option LeadingOp :=
  [LeadingOp.minus, .bitwiseNot, .not, .queryNegate].find? fun op =>
    (Operator.leading op).words == [word]

/-- The operator after an operand that the words spell in full. -/
def operatorOf? (words : List String) : Option Operator :=
  Operator.all.find? fun op => op.fixity != .leading && op.words == words

/-- Reads an operator after an operand. -/
def apply (s : List Frame) (x : Operand) (op : Operator) : Option Reading :=
  let (s, x) := g.settle op s x
  if g.admits x op then
    match op with
    | .binary op => some (.wanting (.binary op x.expr :: s))
    | .trailing op => some (.holding s ⟨.trailing op x.expr, some (.trailing op)⟩ [])
    | .leading _ => none
  else none

def step : Reading → Token → Option Reading
  | .wanting s, .name n => some (.holding s ⟨.property n, none⟩ [])
  | .wanting s, .opening => some (.wanting (.opening :: s))
  | .wanting s, .word w => (leadingOf? w).map fun op => .wanting (.leading op :: s)
  | .wanting _, .closing => none
  | .holding s x ws, .word w =>
    match operatorOf? (ws ++ [w]) with
    | some op => g.apply s x op
    | none => some (.holding s x (ws ++ [w]))
  | .holding s x [], .closing =>
    match close s x with
    | (.opening :: s, x) => some (.holding s ⟨x.expr, none⟩ [])
    | _ => none
  | .holding .., _ => none

/-- The expression, if nothing is missing from it. -/
def finish? : Reading → Option SqlExpr
  | .holding s x [] =>
    match close s x with
    | ([], x) => some x.expr
    | _ => none
  | _ => none

def run (r : Reading) (ts : List Token) : Option Reading := ts.foldlM g.step r

/-- The expression that a text means. -/
def read? (text : String) : Option SqlExpr := do
  let tokens ← tokensOf text
  finish? (← g.run (.wanting []) tokens)

example : (modern.read? "\"a\" * NOT \"b\" = \"c\"").isSome := by decide

example : (modern.read? "\"a\" = \"b\" = \"c\"").isNone := by decide

/-! ## Runs -/

theorem run_append (r : Reading) (ts us : List Token) :
    g.run r (ts ++ us) = (g.run r ts).bind fun r => g.run r us := by
  simp [run, List.foldlM_append, bind]

theorem run_cons (r : Reading) (t : Token) (ts : List Token) :
    g.run r (t :: ts) = (g.step r t).bind fun r => g.run r ts := by
  simp [run, bind]

theorem run_leading (op : LeadingOp) (s : List Frame) :
    g.run (.wanting s) (Operator.leading op).tokens = some (.wanting (.leading op :: s)) := by
  cases op <;> rfl

theorem operatorOf?_words (op : Operator) (h : op.fixity ≠ .leading) :
    operatorOf? op.words = some op := by
  cases op with
  | binary op => cases op <;> decide
  | leading op => exact absurd rfl h
  | trailing op => cases op <;> decide

/-- The words of an operator after an operand are read as that operator. -/
theorem run_operator (op : Operator) (h : op.fixity ≠ .leading) (s : List Frame) (x : Operand) :
    g.run (.holding s x []) op.tokens = g.apply s x op := by
  have hwords := operatorOf?_words op h
  have his : operatorOf? ["IS"] = none := by decide
  have hisNot : operatorOf? ["IS", "NOT"] = none := by decide
  have hnot : operatorOf? ["NOT"] = none := by decide
  cases op with
  | leading op => exact absurd rfl h
  | binary op =>
    cases op <;>
      simp_all [Operator.words, Operator.tokens, run, step]
  | trailing op =>
    cases op <;>
      simp_all [Operator.words, Operator.tokens, run, step]

theorem settle_append (next : Operator) {fs : List Frame}
    (h : ∀ f ∈ fs, f.operator?.any (g.yields · next) = true) (s : List Frame) (x : Operand) :
    g.settle next (fs ++ s) x = g.settle next s (fs.foldl (fun x f => f.take x) x) := by
  induction fs generalizing x with
  | nil => rfl
  | cons f fs ih =>
    have hf := h f (by simp)
    simp only [List.cons_append, settle, hf, if_true, List.foldl_cons]
    exact ih (fun f' hf' => h f' (by simp [hf'])) (f.take x)

theorem close_append {fs : List Frame} (h : ∀ f ∈ fs, f.operator?.isSome = true)
    (s : List Frame) (x : Operand) :
    close (fs ++ s) x = close s (fs.foldl (fun x f => f.take x) x) := by
  induction fs generalizing x with
  | nil => rfl
  | cons f fs ih =>
    have hf := h f (by simp)
    simp only [List.cons_append, close, hf, if_true, List.foldl_cons]
    exact ih (fun f' hf' => h f' (by simp [hf'])) (f.take x)

end Grammar

end TreeSql.Sql
