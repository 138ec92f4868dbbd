import TreeSql.Proofs.Operators.Reader

/-
  TreeSql.Proofs.Operators.Written — operator expressions with the parentheses that are written.

  A `Written` expression spells its tokens (`tokens`) and means an operator tree (`expr`). Its edges are
  the operators that an operator standing next to it could take an operand from: on the left edge those
  whose left operand begins the text, on the right edge those whose right operand ends it. A parenthesis
  has no edges.

  `Proper` says for a grammar where parentheses may be left out: what stands bare beside an operator has
  an edge from which that operator takes nothing. `written` is what writing makes of an operator tree.

  Proved: the tokens and the tree together determine where the parentheses stand (`eq_of_tokens_eq`).
-/
namespace TreeSql.Sql

inductive Written where
  | name (text : String)
  | paren (inner : Written)
  | binary (op : BinaryOp) (left right : Written)
  | leading (op : LeadingOp) (operand : Written)
  | trailing (op : TrailingOp) (operand : Written)
deriving DecidableEq

namespace Written

/-- The tree that is meant. -/
def expr : Written → SqlExpr
  | name n => .property n
  | paren w => w.expr
  | binary op l r => .binary op l.expr r.expr
  | leading op r => .leading op r.expr
  | trailing op l => .trailing op l.expr

def tokens : Written → List Token
  | name n => [.name n]
  | paren w => inParenTokens w.tokens
  | binary op l r => l.tokens ++ (Operator.binary op).tokens ++ r.tokens
  | leading op r => (Operator.leading op).tokens ++ r.tokens
  | trailing op l => l.tokens ++ (Operator.trailing op).tokens

/-- The operator at the top, unless it is in parentheses. -/
def top : Written → Option Operator
  | binary op _ _ => some (.binary op)
  | leading op _ => some (.leading op)
  | trailing op _ => some (.trailing op)
  | name _ | paren _ => none

/-- The operators whose left operand begins the text. -/
def leftEdge : Written → List Operator
  | binary op l _ => .binary op :: l.leftEdge
  | trailing op l => .trailing op :: l.leftEdge
  | name _ | paren _ | leading .. => []

/-- The operators whose right operand ends the text. -/
def rightEdge : Written → List Operator
  | binary op _ r => .binary op :: r.rightEdge
  | leading op r => .leading op :: r.rightEdge
  | name _ | paren _ | trailing .. => []

/-! ## Proper expressions -/

section

variable (g : Grammar)

/-- What may stand before an operator: the operators on its right edge are done when the next one comes, and
    its top is no refused chain with that. -/
structure Before (w : Written) (op : Operator) : Prop where
  yields : ∀ c ∈ w.rightEdge, g.yields c op = true
  admits : g.admits ⟨w.expr, w.top⟩ op = true

/-- What may stand after an operator: that is not done before the operators on the left edge have come. -/
def After (w : Written) (op : Operator) : Prop := ∀ c ∈ w.leftEdge, g.yields op c = false

/-- All operands stand where the grammar reads them. -/
def Proper : Written → Prop
  | name _ => True
  | paren w => w.Proper
  | binary op l r => (Before g l (.binary op) ∧ After g r (.binary op)) ∧ l.Proper ∧ r.Proper
  | leading op r => After g r (.leading op) ∧ r.Proper
  | trailing op l => Before g l (.trailing op) ∧ l.Proper

/-- A parenthesis may stand anywhere. -/
theorem before_paren (w : Written) (op : Operator) : (paren w).Before g op :=
  ⟨by simp [rightEdge], rfl⟩

theorem after_paren (w : Written) (op : Operator) : (paren w).After g op := by simp [After, leftEdge]

end

/-! ## Where the parentheses stand -/

/-- A token that is no parenthesis. -/
def isSign : Token → Bool
  | .opening | .closing => false
  | _ => true

/-- How many more parentheses are opened than closed. -/
def depth : List Token → Int
  | [] => 0
  | .opening :: ts => depth ts + 1
  | .closing :: ts => depth ts - 1
  | _ :: ts => depth ts

theorem depth_append (ts us : List Token) : depth (ts ++ us) = depth ts + depth us := by
  induction ts with
  | nil => simp [depth]
  | cons t ts ih =>
    cases t with
    | opening | closing =>
      simp only [List.cons_append, depth, ih]
      omega
    | name _ | word _ => simp only [List.cons_append, depth, ih]

/-- Parentheses are closed after they are opened, and all of them are. -/
structure Balanced (ts : List Token) : Prop where
  closed : depth ts = 0
  opened : ∀ us, us <+: ts → 0 ≤ depth us

theorem Balanced.of_signs {ts : List Token} (h : ∀ t ∈ ts, isSign t = true) : Balanced ts := by
  have hzero : ∀ us : List Token, (∀ t ∈ us, isSign t = true) → depth us = 0 := by
    intro us hus
    induction us with
    | nil => rfl
    | cons t us ih =>
      have ht := hus t (.head _)
      cases t with
      | opening | closing => cases ht
      | name _ | word _ => exact ih fun t ht => hus t (.tail _ ht)
  exact ⟨hzero ts h, fun us hus => Int.le_of_eq (hzero us fun t ht => h t (hus.subset ht)).symm⟩

theorem Balanced.append {ts us : List Token} (ht : Balanced ts) (hu : Balanced us) :
    Balanced (ts ++ us) := by
  refine ⟨by rw [depth_append, ht.closed, hu.closed, Int.add_zero], fun vs hvs => ?_⟩
  rcases List.prefix_or_prefix_of_prefix hvs (List.prefix_append ts us) with hvs' | ⟨ws, rfl⟩
  · exact ht.opened vs hvs'
  · have := hu.opened ws ((List.prefix_append_right_inj ts).mp hvs)
    rw [depth_append, ht.closed]
    omega

theorem Balanced.inParens {ts : List Token} (h : Balanced ts) : Balanced (inParenTokens ts) := by
  refine ⟨by simp [inParenTokens, depth, depth_append, h.closed], fun us hus => ?_⟩
  rcases List.prefix_cons_iff.mp hus with rfl | ⟨vs, rfl, hvs⟩
  · exact Int.le_refl 0
  · rw [depth]
    rcases List.prefix_concat_iff.mp hvs with rfl | hvs
    · simp [depth, depth_append, h.closed]
    · have := h.opened vs hvs
      omega

theorem isSign_operator (op : Operator) : ∀ t ∈ op.tokens, isSign t = true := by
  intro t ht
  obtain ⟨w, -, rfl⟩ := List.mem_map.mp ht
  rfl

theorem tokens_operator_ne_nil (op : Operator) : op.tokens ≠ [] := by
  cases op with
  | binary op => cases op <;> exact List.cons_ne_nil _ _
  | leading op => exact List.cons_ne_nil _ _
  | trailing op => cases op <;> exact List.cons_ne_nil _ _

theorem balanced_tokens (w : Written) : Balanced w.tokens := by
  have hop (op : Operator) : Balanced op.tokens := .of_signs (isSign_operator op)
  induction w with
  | name n =>
    refine .of_signs fun t ht => ?_
    rw [List.mem_singleton.mp ht]
    rfl
  | paren w ih => exact ih.inParens
  | binary op l r ihl ihr => exact (ihl.append (hop _)).append ihr
  | leading op r ih => exact (hop _).append ih
  | trailing op l ih => exact ih.append (hop _)

theorem tokens_ne_nil (w : Written) : w.tokens ≠ [] := by
  cases w with
  | name n | paren w => exact List.cons_ne_nil _ _
  | binary op l r | leading op r | trailing op l => simp [tokens, tokens_operator_ne_nil]

/-- What begins with an operand ends in it, or goes on after its last parenthesis is closed. -/
theorem inParenTokens_ne_append (v l : Written) {ts : List Token} (hts : ts ≠ []) :
    inParenTokens v.tokens ≠ l.tokens ++ ts := by
  intro h
  obtain ⟨us, hl, hus⟩ : ∃ us, l.tokens = .opening :: us ∧ v.tokens ++ [.closing] = us ++ ts := by
    rw [inParenTokens, List.cons_append] at h
    cases hl : l.tokens with
    | nil => exact absurd hl l.tokens_ne_nil
    | cons t us =>
      rw [hl, List.cons_append, List.cons.injEq] at h
      exact ⟨us, by rw [h.1], h.2⟩
  have hprefix : us <+: v.tokens := by
    rcases List.prefix_concat_iff.mp (hus ▸ List.prefix_append us ts) with hall | hpre
    · rw [hall] at hus
      exact absurd (List.self_eq_append_right.mp hus) hts
    · exact hpre
  have hopen := v.balanced_tokens.opened us hprefix
  have hclosed := l.balanced_tokens.closed
  rw [hl, depth] at hclosed
  omega

end Written

/-- The names and words of an operator tree, from left to right. -/
def SqlExpr.signs : SqlExpr → List Token
  | .property n => [.name n]
  | .binary op l r => l.signs ++ (Operator.binary op).tokens ++ r.signs
  | .leading op r => (Operator.leading op).tokens ++ r.signs
  | .trailing op l => l.signs ++ (Operator.trailing op).tokens
  | _ => []
termination_by structural e => e

namespace Written

theorem filter_tokens (w : Written) : w.tokens.filter isSign = w.expr.signs := by
  have hop (op : Operator) : op.tokens.filter isSign = op.tokens :=
    List.filter_eq_self.mpr (isSign_operator op)
  induction w with
  | name n => rfl
  | paren w ih =>
    rw [tokens, inParenTokens, List.cons_append, List.filter_cons_of_neg (by simp [isSign]),
      List.filter_append, ih]
    exact List.append_nil _
  | binary op l r ihl ihr =>
    rw [tokens, List.filter_append, List.filter_append, ihl, ihr, hop]
    rfl
  | leading op r ih =>
    rw [tokens, List.filter_append, ih, hop]
    rfl
  | trailing op l ih =>
    rw [tokens, List.filter_append, ih, hop]
    rfl

/-- Two texts that go on with a sign after equally many signs begin alike. -/
theorem eq_of_append_eq {xs xs' ys ys' : List Token} (hy : ∀ t ∈ ys.head?, isSign t = true)
    (hy' : ∀ t ∈ ys'.head?, isSign t = true)
    (hcount : (xs.filter isSign).length = (xs'.filter isSign).length) (h : xs ++ ys = xs' ++ ys') :
    xs = xs' := by
  induction xs generalizing xs' with
  | nil =>
    cases xs' with
    | nil => rfl
    | cons t xs' =>
      rw [List.nil_append, List.cons_append] at h
      have ht := hy t (by rw [h]; rfl)
      simp [List.filter_cons_of_pos ht] at hcount
  | cons t xs ih =>
    cases xs' with
    | nil =>
      rw [List.nil_append, List.cons_append] at h
      have ht := hy' t (by rw [← h]; rfl)
      simp [List.filter_cons_of_pos ht] at hcount
    | cons t' xs' =>
      rw [List.cons_append, List.cons_append, List.cons.injEq] at h
      obtain ⟨rfl, h⟩ := h
      rw [ih ?_ h]
      cases ht : isSign t with
      | true => simpa [List.filter_cons_of_pos ht] using hcount
      | false => simpa [List.filter_cons_of_neg, ht] using hcount

theorem isSign_head (op : Operator) (ts : List Token) : ∀ t ∈ (op.tokens ++ ts).head?, isSign t = true := by
  intro t ht
  cases hop : op.tokens with
  | nil => exact absurd hop (tokens_operator_ne_nil op)
  | cons t' ts' =>
    rw [hop, List.cons_append, List.head?_cons, Option.mem_some_iff] at ht
    exact isSign_operator op t (by rw [hop, ht]; exact .head _)

/-- Parentheses stand in one way only. -/
theorem eq_of_tokens_eq {w w' : Written} (htokens : w.tokens = w'.tokens) (hexpr : w.expr = w'.expr) :
    w = w' := by
  induction w generalizing w' with
  | name n =>
    cases w' with
    | name n' =>
      cases hexpr
      rfl
    | paren w' => cases htokens
    | _ => cases hexpr
  | paren w ih =>
    cases w' with
    | name n' => cases htokens
    | paren w' =>
      have hinner : w.tokens = w'.tokens := by simpa [tokens, inParenTokens] using htokens
      rw [ih hinner hexpr]
    | binary op l r =>
      rw [tokens, tokens, List.append_assoc] at htokens
      exact absurd htokens (inParenTokens_ne_append w l (by simp [tokens_operator_ne_nil]))
    | leading op r => cases op <;> cases htokens
    | trailing op l => exact absurd htokens (inParenTokens_ne_append w l (tokens_operator_ne_nil _))
  | binary op l r ihl ihr =>
    cases w' with
    | paren w' =>
      rw [tokens, tokens, List.append_assoc] at htokens
      exact absurd htokens.symm (inParenTokens_ne_append w' l (by simp [tokens_operator_ne_nil]))
    | binary op' l' r' =>
      simp only [expr, SqlExpr.binary.injEq] at hexpr
      obtain ⟨rfl, hl, hr⟩ := hexpr
      rw [tokens, tokens, List.append_assoc, List.append_assoc] at htokens
      have hleft : l.tokens = l'.tokens := by
        refine eq_of_append_eq (isSign_head _ _) (isSign_head _ _) ?_ htokens
        rw [filter_tokens, filter_tokens, hl]
      rw [hleft, List.append_cancel_left_eq, List.append_cancel_left_eq] at htokens
      rw [ihl hleft hl, ihr htokens hr]
    | _ => cases hexpr
  | leading op r ih =>
    cases w' with
    | paren w' => cases op <;> cases htokens
    | leading op' r' =>
      simp only [expr, SqlExpr.leading.injEq] at hexpr
      obtain ⟨rfl, hr⟩ := hexpr
      rw [tokens, tokens, List.append_cancel_left_eq] at htokens
      rw [ih htokens hr]
    | _ => cases hexpr
  | trailing op l ih =>
    cases w' with
    | paren w' => exact absurd htokens.symm (inParenTokens_ne_append w' l (tokens_operator_ne_nil _))
    | trailing op' l' =>
      simp only [expr, SqlExpr.trailing.injEq] at hexpr
      obtain ⟨rfl, hl⟩ := hexpr
      rw [tokens, tokens, List.append_cancel_right_eq] at htokens
      rw [ih htokens hl]
    | _ => cases hexpr

/-! ## What writing makes of a tree -/

/-- An operand, in parentheses or bare. -/
def operand (wraps : Bool) (inner bare : Written) : Written := if wraps then paren inner else bare

theorem tokens_operand (wraps : Bool) (inner bare : Written) :
    (operand wraps inner bare).tokens = if wraps then inParenTokens inner.tokens else bare.tokens := by
  cases wraps <;> rfl

/-- What holds of an operand both ways holds of it as it is written. -/
theorem of_operand {P : Written → Prop} (wraps : Bool) {inner bare : Written} (hinner : P (paren inner))
    (hbare : P bare) : P (operand wraps inner bare) := by
  cases wraps
  · exact hbare
  · exact hinner

end Written

/-- An operator tree as it is written before the given operator. -/
def SqlExpr.written (regime : Regime) (follower : Option Operator) : SqlExpr → Written
  | .binary op l r =>
    .binary op
      (.operand (wrapsLeftOperand regime (.binary op) l) (l.written regime none)
        (l.written regime (some (.binary op))))
      (.operand (wrapsRightOperand regime follower (.binary op) r) (r.written regime none)
        (r.written regime follower))
  | .leading op r =>
    .leading op (.operand (wrapsRightOperand regime follower (.leading op) r) (r.written regime none)
      (r.written regime follower))
  | .trailing op l =>
    .trailing op (.operand (wrapsLeftOperand regime (.trailing op) l) (l.written regime none)
      (l.written regime (some (.trailing op))))
  | .property n => .name n
  | _ => .name ""
termination_by structural e => e

theorem top_written (e : SqlExpr) (regime : Regime) (follower : Option Operator) :
    (e.written regime follower).top = e.operator? := by
  cases e <;> rfl

variable {allowed : Operator → Bool} {e : SqlExpr}

theorem expr_written (h : OperatorTree allowed e) (regime : Regime) (follower : Option Operator) :
    (e.written regime follower).expr = e := by
  have hoperand {wraps : Bool} {inner bare : Written} {e : SqlExpr} (hinner : inner.expr = e)
      (hbare : bare.expr = e) : (Written.operand wraps inner bare).expr = e :=
    Written.of_operand (P := fun w => w.expr = e) wraps hinner hbare
  induction h generalizing follower with
  | column n => rfl
  | binary _ _ _ ihl ihr =>
    rw [SqlExpr.written, Written.expr, hoperand (ihl _) (ihl _), hoperand (ihr _) (ihr _)]
  | leading _ _ ih => rw [SqlExpr.written, Written.expr, hoperand (ih _) (ih _)]
  | trailing _ _ ih => rw [SqlExpr.written, Written.expr, hoperand (ih _) (ih _)]

theorem tokens_written (h : OperatorTree allowed e) (regime : Regime) (follower : Option Operator) :
    (e.written regime follower).tokens = e.tokens regime follower := by
  induction h generalizing follower with
  | column n => rfl
  | binary _ _ _ ihl ihr =>
    simp only [SqlExpr.written, Written.tokens, Written.tokens_operand, ihl, ihr, SqlExpr.tokens]
  | leading _ _ ih => simp only [SqlExpr.written, Written.tokens, Written.tokens_operand, ih, SqlExpr.tokens]
  | trailing _ _ ih => simp only [SqlExpr.written, Written.tokens, Written.tokens_operand, ih, SqlExpr.tokens]

end TreeSql.Sql
