import TreeSql.Proofs.Operators.Reader

/-
  TreeSql.Proofs.Operators.ReadBack — from 9.5 on, what is written for an operator tree means it.

  `read_render_modern`: for every tree of the operators of scalar expressions over column names, of
  any depth, the written text reads back to that tree under the grammar of the modern table.

  The tokens of an operand that stands without parentheses are followed by the sign of the nearest
  enclosing operator to its right, or by nothing. Reading them leaves a stack of operators that wait
  for their right operand, each of which is done when that sign comes (`Ready`). To its left, the
  operator that waits for the operand binds less tightly than every operator on the operand's left
  edge (`Fits`). These two are what the parentheses are for.
-/
namespace TreeSql.Sql

/-- The operators of scalar expressions and canonical functions: all but text search and patterns. -/
def Operator.isScalar : Operator → Bool
  | .binary .queryMatch | .binary .queryAnd | .binary .queryContains | .binary .queryIsContained
  | .binary .regexMatch | .leading .queryNegate => false
  | _ => true

/-! ## The modern table -/

theorem yields_modern (waiting next : Operator) :
    Grammar.modern.yields waiting next = true ↔ next.modernPower ≤ waiting.modernPower := by
  have hchain : Grammar.modern.chaining waiting ≠ .fromRight := by
    simp only [Grammar.modern]
    split <;> simp
  simp only [Grammar.yields, Bool.or_eq_true, Bool.and_eq_true, decide_eq_true_eq, beq_iff_eq,
    bne_iff_ne, ne_eq, hchain, not_false_eq_true, and_true]
  simp only [Grammar.modern]
  omega

/-- The levels that do not chain are those of the operators that the server refuses to chain. -/
theorem isNonAssoc_modern (op : Operator) :
    op.isNonAssoc .modern = true ↔ Grammar.modern.chaining op = .refused := by
  cases op with
  | binary op => cases op <;> decide
  | leading op => cases op <;> decide
  | trailing op => cases op <;> decide

theorem chaining_modern_congr {op op' : Operator} (h : op.modernPower = op'.modernPower) :
    Grammar.modern.chaining op = Grammar.modern.chaining op' := by
  simp [Grammar.modern, h]

/-! ## Where parentheses are left out -/

theorem wrapsLeft_eq_false {regime : Regime} {op c : Operator} (h : wrapsLeft regime op c = false) :
    op.leftPower regime ≤ c.rightPower regime ∧
      (c.rightPower regime = op.leftPower regime → op.isNonAssoc regime = false) := by
  simp only [wrapsLeft, Bool.or_eq_false_iff, Bool.and_eq_false_iff, decide_eq_false_iff_not,
    beq_eq_false_iff_ne] at h
  exact ⟨by omega, fun heq => (h.2.resolve_left (fun hne => hne heq)).2⟩

/-- A right operand stands without parentheses because it binds tightly enough, or because its
    operator stands in front and is done before what follows. -/
theorem wrapsRight_eq_false {regime : Regime} {follower : Option Operator} {op c : Operator}
    (h : wrapsRight regime follower op c = false) :
    (op.rightPower regime ≤ c.leftPower regime ∧ (c.leftPower regime = op.rightPower regime →
        op.isRightAssoc = true ∧ op.isNonAssoc regime = false)) ∨
      (c.fixity = .leading ∧ fitsBefore regime follower c = true) := by
  simp only [wrapsRight, Bool.and_eq_false_iff, Bool.or_eq_false_iff, decide_eq_false_iff_not,
    beq_eq_false_iff_ne, Bool.not_eq_false', Bool.and_eq_true, beq_iff_eq] at h
  rcases h with ⟨hlt, hchain⟩ | hfits
  · refine .inl ⟨by omega, fun heq => ?_⟩
    simpa using hchain.resolve_left (fun hne => hne heq)
  · exact .inr hfits

theorem le_of_fitsBefore {regime : Regime} {f c : Operator}
    (h : fitsBefore regime (some f) c = true) : f.leftPower regime ≤ c.rightPower regime := by
  simp only [fitsBefore] at h
  split at h
  · have := of_decide_eq_true h
    omega
  · exact of_decide_eq_true h

/-- A left operand without parentheses binds at least as tightly and is no refused chain. -/
theorem power_le_of_bare_left {op c : Operator} (h : wrapsLeft .modern op c = false) :
    op.modernPower ≤ c.modernPower ∧
      (c.modernPower = op.modernPower → Grammar.modern.chaining c ≠ .refused) := by
  obtain ⟨hle, hchain⟩ := wrapsLeft_eq_false h
  refine ⟨hle, fun heq hc => ?_⟩
  rw [chaining_modern_congr heq] at hc
  have hn := hchain heq
  rw [(isNonAssoc_modern op).mpr hc] at hn
  cases hn

/-- On its right, an operator of a scalar expression that groups from the right meets no other
    operator of its power but those before their operand. -/
theorem power_ne_of_rightAssoc {op c : Operator} (hop : op.isScalar = true)
    (hr : op.isRightAssoc = true) (hn : op.isNonAssoc .modern = false)
    (hc : c.fixity ≠ .leading) : c.modernPower ≠ op.modernPower := by
  have hpower : op.modernPower = 12 ∨ op.modernPower = 3 := by
    revert hop hr hn
    cases op with
    | trailing op => cases op <;> decide
    | binary op => cases op <;> decide
    | leading op => cases op <;> decide
  cases c with
  | leading c => exact absurd rfl hc
  | binary c => rcases hpower with h | h <;> rw [h] <;> cases c <;> decide
  | trailing c => rcases hpower with h | h <;> rw [h] <;> cases c <;> decide

/-- A right operand without parentheses binds more tightly, unless its operator stands in front. -/
theorem power_lt_of_bare_right {op c : Operator} {follower : Option Operator}
    (hop : op.isScalar = true) (hc : c.fixity ≠ .leading)
    (h : wrapsRight .modern follower op c = false) : op.modernPower < c.modernPower := by
  rcases wrapsRight_eq_false h with ⟨hle, hchain⟩ | ⟨hlead, _⟩
  · have hne : c.modernPower ≠ op.modernPower := fun heq =>
      power_ne_of_rightAssoc hop (hchain heq).1 (hchain heq).2 hc heq
    have hle' : op.modernPower ≤ c.modernPower := hle
    omega
  · exact absurd hlead hc

/-- A right operand without parentheses is done before what follows the whole. -/
theorem follower_le_of_bare_right {op c f : Operator} (hf : f.modernPower ≤ op.modernPower)
    (h : wrapsRight .modern (some f) op c = false) : f.modernPower ≤ c.modernPower := by
  rcases wrapsRight_eq_false h with ⟨hle, _⟩ | ⟨_, hfits⟩
  · exact Nat.le_trans hf hle
  · exact le_of_fitsBefore hfits

/-! ## The invariant -/

/-- The stack lets the operators on the left edge of an expression take what stands before them. -/
def Fits (s : List Grammar.Frame) (e : SqlExpr) : Prop :=
  ∀ c, e.operator? = some c → c.fixity ≠ .leading → ∀ f s', s = f :: s' →
    ∀ w, f.operator? = some w → w.modernPower < c.modernPower

/-- What follows an expression does not take its right edge. -/
def Precedes (e : SqlExpr) (follower : Option Operator) : Prop :=
  ∀ c, e.operator? = some c → ∀ f, follower = some f → f.modernPower ≤ c.modernPower

namespace Grammar

/-- The operand with the waiting operators on top of it is the expression, and all of them are done
    when the following operator comes. -/
structure Ready (fs : List Frame) (x : Operand) (follower : Option Operator) (e : SqlExpr) : Prop where
  expr : (fs.foldl (fun x f => f.take x) x).expr = e
  waiting : ∀ f ∈ fs, f.operator?.isSome = true
  done : ∀ next, follower = some next → ∀ f ∈ fs, f.operator?.any (modern.yields · next) = true

/-- Reading the tokens after the stack leaves waiting operators and an operand that are ready. -/
def Reads (s : List Frame) (ts : List Token) (follower : Option Operator) (e : SqlExpr) : Prop :=
  ∃ fs x, modern.run (.wanting s) ts = some (.holding (fs ++ s) x []) ∧ Ready fs x follower e

/-- The same, with the operator at the top of the expression when nothing waits any more. -/
def ReadsTop (s : List Frame) (ts : List Token) (follower : Option Operator) (e : SqlExpr) : Prop :=
  ∃ fs x, modern.run (.wanting s) ts = some (.holding (fs ++ s) x []) ∧ Ready fs x follower e ∧
    (fs.foldl (fun x f => f.take x) x).top = e.operator?

theorem ReadsTop.reads {s : List Frame} {ts : List Token} {follower : Option Operator} {e : SqlExpr}
    (h : ReadsTop s ts follower e) : Reads s ts follower e := by
  obtain ⟨fs, x, hrun, hready, _⟩ := h
  exact ⟨fs, x, hrun, hready⟩

/-! ## Operands -/

/-- An operand in parentheses is read for itself. -/
theorem run_inParens {s : List Frame} {ts : List Token} {e : SqlExpr}
    (h : Reads (.opening :: s) ts none e) :
    modern.run (.wanting s) (inParenTokens ts) = some (.holding s ⟨e, none⟩ []) := by
  obtain ⟨fs, x, hrun, hready⟩ := h
  have hclose : close (fs ++ .opening :: s) x =
      (.opening :: s, fs.foldl (fun x f => f.take x) x) := by
    rw [close_append hready.waiting]
    rfl
  rw [inParenTokens, List.cons_append, run_cons]
  simp only [step, Option.bind_some]
  rw [run_append, hrun, Option.bind_some, run_cons]
  simp only [step, hclose, hready.expr, Option.bind_some]
  rfl

/-- An operator whose left operand is on the stack's level takes the operand and not the stack. -/
theorem settle_fits {s : List Frame} {op : Operator} {x : Operand}
    (h : ∀ f s', s = f :: s' → ∀ w, f.operator? = some w → w.modernPower < op.modernPower) :
    modern.settle op s x = (s, x) := by
  cases s with
  | nil => rfl
  | cons f s =>
    have hf : f.operator?.any (modern.yields · op) = false := by
      cases hop : f.operator? with
      | none => rfl
      | some w =>
        have := h f s rfl w hop
        have hy := yields_modern w op
        simp only [Option.any_some, Bool.eq_false_iff, ne_eq, hy]
        omega
    simp [settle, hf]

/-- A left operand and the operator after it are read as if the operand stood in parentheses. -/
theorem run_leftOperand {s : List Frame} (op : Operator) {l : SqlExpr} {ts us : List Token}
    (hop : op.fixity ≠ .leading)
    (hs : ∀ f s', s = f :: s' → ∀ w, f.operator? = some w → w.modernPower < op.modernPower)
    (hbare : wrapsLeftOperand .modern op l = false → ReadsTop s ts (some op) l)
    (hinner : Reads (.opening :: s) us none l) :
    modern.run (.wanting s)
        ((if wrapsLeftOperand .modern op l then inParenTokens us else ts) ++ op.tokens) =
      modern.apply s ⟨l, none⟩ op := by
  rw [run_append]
  cases hw : wrapsLeftOperand .modern op l with
  | true =>
    rw [if_pos rfl, run_inParens hinner, Option.bind_some, run_operator _ op hop]
  | false =>
    obtain ⟨fs, x, hrun, hready, htop⟩ := hbare hw
    have hadmits : modern.admits ⟨l, l.operator?⟩ op = true := by
      cases hc : l.operator? with
      | none => rfl
      | some c =>
        simp only [wrapsLeftOperand, hc] at hw
        have hchain := (power_le_of_bare_left hw).2
        simp only [admits, Bool.not_eq_true', Bool.and_eq_false_iff, beq_eq_false_iff_ne]
        by_cases heq : c.modernPower = op.modernPower
        · exact .inr (hchain heq)
        · exact .inl heq
    have hplug : fs.foldl (fun x f => f.take x) x = ⟨l, l.operator?⟩ :=
      Operand.ext hready.expr htop
    rw [if_neg Bool.false_ne_true, hrun, Option.bind_some, run_operator _ op hop, apply,
      settle_append _ op (hready.done op rfl), hplug, settle_fits hs, apply, settle_fits hs]
    simp [hadmits, show modern.admits ⟨l, none⟩ op = true from rfl]

/-- A right operand is read so that everything that waits in it is done before what follows. -/
theorem reads_rightOperand {s : List Frame} (op : Operator) (follower : Option Operator)
    {r : SqlExpr} {ts us : List Token}
    (hbare : wrapsRightOperand .modern follower op r = false → Reads s ts follower r)
    (hinner : Reads (.opening :: s) us none r) :
    Reads s (if wrapsRightOperand .modern follower op r then inParenTokens us else ts) follower r := by
  cases hw : wrapsRightOperand .modern follower op r with
  | true =>
    rw [if_pos rfl]
    exact ⟨[], _, run_inParens hinner, rfl, by simp, by simp⟩
  | false =>
    rw [if_neg Bool.false_ne_true]
    exact hbare hw

theorem Frame.take_eq {f : Frame} {op : Operator} (hf : f.operator? = some op) (x : Operand) :
    f.take x = ⟨(f.take ⟨x.expr, none⟩).expr, some op⟩ := by
  cases f <;> cases hf <;> rfl

theorem Frame.operator?_take {f : Frame} {op : Operator} (hf : f.operator? = some op) (x : Operand) :
    (f.take x).expr.operator? = some op := by
  cases f <;> cases hf <;> rfl

/-- An operator that waits on top of the stack ends up with its right operand. -/
theorem ReadsTop.of_rightOperand {f : Frame} {s : List Frame} {ts : List Token} {r : SqlExpr}
    {follower : Option Operator} {op : Operator} (hf : f.operator? = some op)
    (hfollow : ∀ next, follower = some next → next.modernPower ≤ op.modernPower)
    (h : Reads (f :: s) ts follower r) :
    ∃ fs x, modern.run (.wanting (f :: s)) ts = some (.holding (fs ++ s) x []) ∧
      Ready fs x follower (f.take ⟨r, none⟩).expr ∧
      (fs.foldl (fun x f => f.take x) x).top = (f.take ⟨r, none⟩).expr.operator? := by
  obtain ⟨fs, x, hrun, hready⟩ := h
  have hplug : (fs ++ [f]).foldl (fun x f => f.take x) x = ⟨(f.take ⟨r, none⟩).expr, some op⟩ := by
    rw [List.foldl_append, List.foldl_cons, List.foldl_nil, f.take_eq hf, hready.expr]
  refine ⟨fs ++ [f], x, by simpa using hrun, ⟨by rw [hplug], ?_, ?_⟩, ?_⟩
  · intro f' hf'
    rcases List.mem_append.mp hf' with hmem | hmem
    · exact hready.waiting f' hmem
    · rw [List.mem_singleton.mp hmem, hf]
      rfl
  · intro next hnext f' hf'
    rcases List.mem_append.mp hf' with hmem | hmem
    · exact hready.done next hnext f' hmem
    · rw [List.mem_singleton.mp hmem, hf]
      exact (yields_modern op next).mpr (hfollow next hnext)
  · rw [hplug, f.operator?_take hf]

/-! ## Trees -/

/-- A bare left operand fits wherever its operator does. -/
theorem Fits.leftOperand {s : List Frame} {op : Operator} {l : SqlExpr}
    (hs : ∀ f s', s = f :: s' → ∀ w, f.operator? = some w → w.modernPower < op.modernPower)
    (hw : wrapsLeftOperand .modern op l = false) : Fits s l := by
  intro c hc _ f s' hcons w hfw
  simp only [wrapsLeftOperand, hc] at hw
  exact Nat.lt_of_lt_of_le (hs f s' hcons w hfw) (power_le_of_bare_left hw).1

theorem Precedes.leftOperand {op : Operator} {l : SqlExpr}
    (hw : wrapsLeftOperand .modern op l = false) : Precedes l (some op) := by
  intro c hc f hf
  cases hf
  simp only [wrapsLeftOperand, hc] at hw
  exact (power_le_of_bare_left hw).1

theorem Fits.rightOperand {f : Frame} {s : List Frame} {op : Operator} {r : SqlExpr}
    {follower : Option Operator} (hop : op.isScalar = true) (hf : f.operator? = some op)
    (hw : wrapsRightOperand .modern follower op r = false) : Fits (f :: s) r := by
  intro c hc hlead f' s' hcons w hfw
  cases hcons
  cases hf.symm.trans hfw
  simp only [wrapsRightOperand, hc] at hw
  exact power_lt_of_bare_right hop hlead hw

theorem Precedes.rightOperand {op : Operator} {r : SqlExpr} {follower : Option Operator}
    (hfollow : ∀ next, follower = some next → next.modernPower ≤ op.modernPower)
    (hw : wrapsRightOperand .modern follower op r = false) : Precedes r follower := by
  intro c hc next hnext
  subst hnext
  simp only [wrapsRightOperand, hc] at hw
  exact follower_le_of_bare_right (hfollow next rfl) hw

/-- A parenthesis fits before anything, and nothing follows inside it. -/
theorem Fits.opening (s : List Frame) (e : SqlExpr) : Fits (.opening :: s) e := by
  intro c _ _ f s' hcons w hfw
  cases hcons
  cases hfw

theorem Precedes.nothing (e : SqlExpr) : Precedes e none := by
  intro c _ f hf
  cases hf

/-- Reading what is written for a tree gives the tree, in every place where it may stand as it is. -/
theorem readsTop_tokens {e : SqlExpr} (h : OperatorTree Operator.isScalar e)
    (s : List Frame) (follower : Option Operator) (hs : Fits s e) (hf : Precedes e follower) :
    ReadsTop s (e.tokens .modern follower) follower e := by
  induction h generalizing s follower with
  | column name =>
    exact ⟨[], ⟨.property name, none⟩, rfl, ⟨rfl, by simp, by simp⟩, rfl⟩
  | @binary op l r hop _ _ ihl ihr =>
    have hs' := hs (.binary op) rfl (by simp [Operator.fixity])
    have hfollow := hf (.binary op) rfl
    have hl := run_leftOperand (.binary op) (by simp [Operator.fixity]) hs'
      (fun hw => ihl s _ (Fits.leftOperand hs' hw) (Precedes.leftOperand hw))
      (ihl _ none (Fits.opening s l) (Precedes.nothing l)).reads
    have hr := reads_rightOperand (s := .binary op l :: s) (.binary op) follower
      (fun hw => (ihr _ follower (Fits.rightOperand hop rfl hw)
        (Precedes.rightOperand hfollow hw)).reads)
      (ihr _ none (Fits.opening _ r) (Precedes.nothing r)).reads
    obtain ⟨fs, x, hrun, hready, htop⟩ := ReadsTop.of_rightOperand rfl hfollow hr
    refine ⟨fs, x, ?_, hready, htop⟩
    have happly : modern.apply s ⟨l, none⟩ (.binary op) = some (.wanting (.binary op l :: s)) := by
      simp [apply, settle_fits hs', admits]
    rw [SqlExpr.tokens, run_append, hl, happly, Option.bind_some, hrun]
  | @leading op r hop _ ih =>
    have hfollow := hf (.leading op) rfl
    have hr := reads_rightOperand (s := .leading op :: s) (.leading op) follower
      (fun hw => (ih _ follower (Fits.rightOperand hop rfl hw)
        (Precedes.rightOperand hfollow hw)).reads)
      (ih _ none (Fits.opening _ r) (Precedes.nothing r)).reads
    obtain ⟨fs, x, hrun, hready, htop⟩ := ReadsTop.of_rightOperand rfl hfollow hr
    refine ⟨fs, x, ?_, hready, htop⟩
    rw [SqlExpr.tokens, run_append, run_leading, Option.bind_some, hrun]
  | @trailing op l hop _ ih =>
    have hs' := hs (.trailing op) rfl (by simp [Operator.fixity])
    have hl := run_leftOperand (.trailing op) (by simp [Operator.fixity]) hs'
      (fun hw => ih s _ (Fits.leftOperand hs' hw) (Precedes.leftOperand hw))
      (ih _ none (Fits.opening s l) (Precedes.nothing l)).reads
    refine ⟨[], ⟨.trailing op l, some (.trailing op)⟩, ?_, ⟨rfl, by simp, by simp⟩, rfl⟩
    rw [SqlExpr.tokens, hl]
    simp [apply, settle_fits hs', admits]

end Grammar

/-- Writing an operator tree for a server from 9.5 on and reading the text by the modern table gives
    the tree back. -/
theorem read_render_modern {e : SqlExpr} (h : OperatorTree Operator.isScalar e)
    (select : StageId → String) :
    Grammar.modern.read? (e.renderWith .modern select none) = some e := by
  have hs : Fits [] e := by
    intro c _ _ f s' hcons
    cases hcons
  obtain ⟨fs, x, hrun, hready, _⟩ := Grammar.readsTop_tokens h [] none hs (Grammar.Precedes.nothing e)
  have hclose : Grammar.close (fs ++ []) x = ([], fs.foldl (fun x f => f.take x) x) := by
    rw [Grammar.close_append hready.waiting]
    rfl
  simp only [Grammar.read?, tokensOf_render h, hrun, Option.bind_eq_bind, Option.bind_some,
    Grammar.finish?, hclose, hready.expr]

/-- A prefix operator that stays bare inside a product and one that is put in parentheses. -/
theorem read_render_modern_bare_not :
    let e : SqlExpr := .binary .and
      (.binary .mul (.property "a") (.leading .not (.binary .equals (.property "b") (.property "c"))))
      (.trailing .isNull (.binary .add (.property "d") (.leading .bitwiseNot (.property "\""))))
    OperatorTree Operator.isScalar e ∧
      Grammar.modern.read? (e.renderWith .modern (fun _ => "") none) = some e := by
  intro e
  have h : OperatorTree Operator.isScalar e :=
    .binary rfl (.binary rfl (.column "a") (.leading rfl (.binary rfl (.column "b") (.column "c"))))
      (.trailing rfl (.binary rfl (.column "d") (.leading rfl (.column "\""))))
  exact ⟨h, read_render_modern h _⟩

end TreeSql.Sql
