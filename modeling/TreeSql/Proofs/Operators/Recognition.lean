import TreeSql.Proofs.Operators.Written

/-
  TreeSql.Proofs.Operators.Recognition — the reader finds what is proper, and nothing else.

  `run_proper`: the tokens of a proper expression leave its operand under a stack of operators that all
  wait on its right edge.

  `reached_step`: whatever was read so far is a stack of operators with proper left operands, none of
  which is done before what stands on it (`Sound`), and a proper operand (`Held`). An operator that takes
  its right operand keeps this (`Held.take`).

  `read_render_iff`: the text of an operator tree reads back to it exactly if its parentheses are proper.
-/
namespace TreeSql.Sql

open Written

namespace Grammar

variable {g : Grammar}

/-! ## Proper expressions are read -/

/-- The operator that waits on top of the stack is not done before the expression. -/
def Accepts (g : Grammar) (s : List Frame) (w : Written) : Prop :=
  ∀ f ∈ s.head?, ∀ op ∈ f.operator?, w.After g op

/-- An operator does not reach below the operand, if the stack waits for it. -/
theorem settle_accepts {s : List Frame} {op : Operator} {x : Operand}
    (h : ∀ f ∈ s.head?, ∀ op' ∈ f.operator?, g.yields op' op = false) : g.settle op s x = (s, x) := by
  cases s with
  | nil => rfl
  | cons f s =>
    have hf : f.operator?.any (g.yields · op) = false := by
      cases hop : f.operator? with
      | none => rfl
      | some op' => exact h f rfl op' hop
    rw [settle, hf, if_neg Bool.false_ne_true]

/-- What is left on the stack after an expression: operators of its right edge that wait for their operand. -/
structure Leaves (g : Grammar) (s : List Frame) (w : Written) (fs : List Frame) (x : Operand) : Prop where
  run : g.run (.wanting s) w.tokens = some (.holding (fs ++ s) x [])
  operand : fs.foldl (fun x f => f.take x) x = ⟨w.expr, w.top⟩
  waiting : ∀ f ∈ fs, ∃ c ∈ w.rightEdge, f.operator? = some c

/-- An operator after an operand that nothing on the stack takes. -/
def placed (s : List Frame) (e : SqlExpr) : Operator → Option Reading
  | .binary op => some (.wanting (.binary op e :: s))
  | .trailing op => some (.holding s ⟨.trailing op e, some (.trailing op)⟩ [])
  | .leading _ => none

/-- Reading an operator: the waiting operators that are done take their operand, and then it is placed. -/
theorem apply_eq (s : List Frame) (x : Operand) (op : Operator) :
    g.apply s x op = if g.admits (g.settle op s x).2 op then
      placed (g.settle op s x).1 (g.settle op s x).2.expr op else none := by
  cases op <;> rfl

/-- An expression and the operator after it. -/
theorem Leaves.run_operator {s fs : List Frame} {w : Written} {x : Operand} (h : Leaves g s w fs x)
    {op : Operator} (hop : op.fixity ≠ .leading) (hbefore : w.Before g op)
    (hs : ∀ f ∈ s.head?, ∀ op' ∈ f.operator?, g.yields op' op = false) :
    g.run (.wanting s) (w.tokens ++ op.tokens) = placed s w.expr op := by
  have hyields : ∀ f ∈ fs, f.operator?.any (g.yields · op) = true := by
    intro f hf
    obtain ⟨c, hc, hfc⟩ := h.waiting f hf
    rw [hfc]
    exact hbefore.yields c hc
  rw [run_append, h.run, Option.bind_some, Grammar.run_operator g op hop, apply_eq,
    settle_append g op hyields, h.operand, settle_accepts hs, if_pos hbefore.admits]

/-- An operator waits under what its right operand leaves. -/
theorem Leaves.under {f : Frame} {s fs : List Frame} {w r : Written} {x : Operand} {c : Operator} {ts : List Token}
    (h : Leaves g (f :: s) r fs x) (hrun : g.run (.wanting s) ts = some (.wanting (f :: s)))
    (htokens : w.tokens = ts ++ r.tokens) (hedge : w.rightEdge = c :: r.rightEdge) (hf : f.operator? = some c)
    (htake : f.take ⟨r.expr, r.top⟩ = ⟨w.expr, w.top⟩) : Leaves g s w (fs ++ [f]) x where
  run := by
    rw [htokens, run_append, hrun, Option.bind_some, h.run, List.append_assoc]
    rfl
  operand := by
    rw [List.foldl_append, h.operand]
    exact htake
  waiting f' hf' := by
    rw [hedge]
    rcases List.mem_append.mp hf' with hf' | hf'
    · obtain ⟨c', hc', hfc'⟩ := h.waiting f' hf'
      exact ⟨c', .tail _ hc', hfc'⟩
    · exact ⟨c, .head _, List.mem_singleton.mp hf' ▸ hf⟩

/-- The operator on top of the stack is not done before its right operand. -/
theorem accepts_cons {f : Frame} {s : List Frame} {w : Written} (h : ∀ op ∈ f.operator?, w.After g op) :
    Accepts g (f :: s) w := fun f' hf' => by
  cases hf'
  exact h

theorem run_proper {w : Written} (h : w.Proper g) (s : List Frame) (hs : Accepts g s w) :
    ∃ fs x, Leaves g s w fs x := by
  induction w generalizing s with
  | name n => exact ⟨[], ⟨.property n, none⟩, rfl, rfl, by simp⟩
  | paren w ih =>
    obtain ⟨fs, x, hw⟩ := ih h (.opening :: s) (accepts_cons fun op hop => by cases hop)
    have hclose : close (fs ++ .opening :: s) x = (.opening :: s, ⟨w.expr, w.top⟩) := by
      rw [close_append, hw.operand]
      · rfl
      · intro f hf
        obtain ⟨c, -, hfc⟩ := hw.waiting f hf
        rw [hfc]
        rfl
    refine ⟨[], ⟨w.expr, none⟩, ?_, rfl, by simp⟩
    rw [tokens, inParenTokens, List.cons_append, run_cons]
    simp only [step, Option.bind_some]
    rw [run_append, hw.run, Option.bind_some, run_cons]
    simp only [step, hclose, Option.bind_some]
    rfl
  | binary op l r ihl ihr =>
    obtain ⟨⟨hbefore, hafter⟩, hl, hr⟩ := h
    obtain ⟨fs, x, hleft⟩ := ihl hl s fun f hf op' hop' c hc => hs f hf op' hop' c (.tail _ hc)
    have hrun := hleft.run_operator (by simp [Operator.fixity]) hbefore
      fun f hf op' hop' => hs f hf op' hop' _ (.head _)
    obtain ⟨fs', x', hright⟩ := ihr hr (.binary op l.expr :: s) (accepts_cons fun op' hop' => by
      cases hop'
      exact hafter)
    exact ⟨_, x', hright.under hrun (by rw [tokens, List.append_assoc]) rfl rfl rfl⟩
  | leading op r ih =>
    obtain ⟨hafter, hr⟩ := h
    obtain ⟨fs, x, hright⟩ := ih hr (.leading op :: s) (accepts_cons fun op' hop' => by
      cases hop'
      exact hafter)
    exact ⟨_, x, hright.under (run_leading g op s) rfl rfl rfl rfl⟩
  | trailing op l ih =>
    obtain ⟨hbefore, hl⟩ := h
    obtain ⟨fs, x, hleft⟩ := ih hl s fun f hf op' hop' c hc => hs f hf op' hop' c (.tail _ hc)
    have hrun := hleft.run_operator (by simp [Operator.fixity]) hbefore
      fun f hf op' hop' => hs f hf op' hop' _ (.head _)
    exact ⟨[], ⟨.trailing op l.expr, some (.trailing op)⟩, hrun, rfl, by simp⟩

/-! ## Nothing else is read -/

/-- What waits on the stack, as it is written. -/
inductive Pending where
  | opening
  | leading (op : LeadingOp)
  | binary (op : BinaryOp) (left : Written)

namespace Pending

def frame : Pending → Frame
  | opening => .opening
  | leading op => .leading op
  | binary op l => .binary op l.expr

def tokens : Pending → List Token
  | opening => [.opening]
  | leading op => (Operator.leading op).tokens
  | binary op l => l.tokens ++ (Operator.binary op).tokens

/-- What it makes of a right operand. -/
def take : Pending → Written → Written
  | opening, w => w
  | leading op, w => .leading op w
  | binary op l, w => .binary op l w

/-- The operators whose left operand begins the text. -/
def leftEdge : Pending → List Operator
  | binary op l => .binary op :: l.leftEdge
  | _ => []

/-- The left operand stands where the grammar reads it. -/
def Proper (g : Grammar) : Pending → Prop
  | binary op l => Before g l (.binary op) ∧ l.Proper g
  | _ => True

end Pending

/-- The tokens that a stack was read from. -/
def stackTokens : List Pending → List Token
  | [] => []
  | p :: ps => stackTokens ps ++ p.tokens

/-- The operator that waits on top of the stack is not done before these. -/
def Waits (g : Grammar) (ps : List Pending) (ops : List Operator) : Prop :=
  ∀ p ∈ ps.head?, ∀ op ∈ p.frame.operator?, ∀ c ∈ ops, g.yields op c = false

/-- Every left operand on the stack is proper, and nothing below was done before it came. -/
def Sound (g : Grammar) : List Pending → Prop
  | [] => True
  | p :: ps => p.Proper g ∧ Waits g ps p.leftEdge ∧ Sound g ps

/-- A proper operand that was read after a stack. -/
structure Held (g : Grammar) (ps : List Pending) (w : Written) : Prop where
  stack : Sound g ps
  operand : w.Proper g
  waits : Waits g ps w.leftEdge

theorem Held.take {p : Pending} {ps : List Pending} {w : Written} (h : Held g (p :: ps) w)
    (hp : p.frame.operator?.isSome = true) : Held g ps (p.take w) := by
  obtain ⟨⟨hleft, hwaits, hstack⟩, hw, hafter⟩ := h
  cases p with
  | opening => cases hp
  | leading op => exact ⟨hstack, ⟨hafter _ rfl _ rfl, hw⟩, hwaits⟩
  | binary op l => exact ⟨hstack, ⟨⟨hleft.1, hafter _ rfl _ rfl⟩, hleft.2, hw⟩, hwaits⟩

theorem take_frame (p : Pending) (w : Written) (hp : p.frame.operator?.isSome = true) :
    p.frame.take ⟨w.expr, w.top⟩ = ⟨(p.take w).expr, (p.take w).top⟩ := by
  cases p with
  | opening => cases hp
  | leading op | binary op l => rfl

theorem stackTokens_take (p : Pending) (ps : List Pending) (w : Written)
    (hp : p.frame.operator?.isSome = true) :
    stackTokens ps ++ (p.take w).tokens = stackTokens (p :: ps) ++ w.tokens := by
  cases p with
  | opening => cases hp
  | leading op | binary op l => simp [stackTokens, Pending.tokens, Pending.take, Written.tokens]

theorem rightEdge_take (p : Pending) (w : Written) :
    ∀ c ∈ (p.take w).rightEdge, p.frame.operator? = some c ∨ c ∈ w.rightEdge := by
  intro c hc
  cases p with
  | opening => exact .inr hc
  | leading op | binary op l =>
    rcases List.mem_cons.mp hc with rfl | hc
    · exact .inl rfl
    · exact .inr hc

/-- What an operator finds before it. -/
structure Settled (g : Grammar) (op : Operator) (ps ps' : List Pending) (w w' : Written) : Prop where
  settle : g.settle op (ps.map Pending.frame) ⟨w.expr, w.top⟩ =
    (ps'.map Pending.frame, ⟨w'.expr, w'.top⟩)
  held : Held g ps' w'
  tokens : stackTokens ps' ++ w'.tokens = stackTokens ps ++ w.tokens
  yields : ∀ c ∈ w'.rightEdge, g.yields c op = true
  waits : Waits g ps' [op]

theorem Held.settle {ps : List Pending} {w : Written} (h : Held g ps w) (op : Operator)
    (hyields : ∀ c ∈ w.rightEdge, g.yields c op = true) : ∃ ps' w', Settled g op ps ps' w w' := by
  induction ps generalizing w with
  | nil => exact ⟨[], w, rfl, h, rfl, hyields, by simp [Waits]⟩
  | cons p ps ih =>
    by_cases hdone : p.frame.operator?.any (g.yields · op) = true
    · obtain ⟨op', hop', hop'op⟩ := (Option.any_eq_true ..).mp hdone
      have hp : p.frame.operator?.isSome = true := by rw [hop']; rfl
      obtain ⟨ps', w', hs⟩ := ih (h.take hp) (by
        intro c hc
        rcases rightEdge_take p w c hc with hcp | hc
        · rwa [Option.some.inj (hcp.symm.trans hop')]
        · exact hyields c hc)
      refine ⟨ps', w', ?_, hs.held, hs.tokens.trans (stackTokens_take p ps w hp), hs.yields, hs.waits⟩
      rw [List.map_cons, Grammar.settle, if_pos hdone, take_frame p w hp, hs.settle]
    · refine ⟨p :: ps, w, ?_, h, rfl, hyields, ?_⟩
      · rw [List.map_cons, Grammar.settle, if_neg hdone]
      · rintro p' hp' op' hop' c hc
        cases hp'
        rw [List.mem_singleton.mp hc]
        rw [Option.mem_def.mp hop', Option.any_some] at hdone
        exact eq_false_of_ne_true hdone

/-- All operators since the last open parenthesis have taken their operand. -/
structure Closed (g : Grammar) (ps ps' : List Pending) (w w' : Written) : Prop where
  close : close (ps.map Pending.frame) ⟨w.expr, w.top⟩ = (ps'.map Pending.frame, ⟨w'.expr, w'.top⟩)
  held : Held g ps' w'
  tokens : stackTokens ps' ++ w'.tokens = stackTokens ps ++ w.tokens

theorem Held.close {ps : List Pending} {w : Written} (h : Held g ps w) :
    ∃ ps' w', Closed g ps ps' w w' := by
  induction ps generalizing w with
  | nil => exact ⟨[], w, rfl, h, rfl⟩
  | cons p ps ih =>
    by_cases hp : p.frame.operator?.isSome = true
    · obtain ⟨ps', w', hs⟩ := ih (h.take hp)
      refine ⟨ps', w', ?_, hs.held, hs.tokens.trans (stackTokens_take p ps w hp)⟩
      rw [List.map_cons, Grammar.close, if_pos hp, take_frame p w hp, hs.close]
    · refine ⟨p :: ps, w, ?_, h, rfl⟩
      rw [List.map_cons, Grammar.close, if_neg hp]

/-- What was read from the tokens: a stack, or a stack and an operand that no operator ends. -/
inductive Reached (g : Grammar) (ts : List Token) : Reading → Prop
  | wanting (ps : List Pending) (hps : Sound g ps) (hts : stackTokens ps = ts) :
    Reached g ts (.wanting (ps.map Pending.frame))
  | holding {ps : List Pending} {w : Written} {words : List String} (hw : Held g ps w)
    (hedge : w.rightEdge = []) (hts : stackTokens ps ++ w.tokens ++ words.map .word = ts) :
    Reached g ts (.holding (ps.map Pending.frame) ⟨w.expr, w.top⟩ words)

theorem tokens_of_leadingOf? {word : String} {op : LeadingOp} (h : leadingOf? word = some op) :
    (Operator.leading op).tokens = [.word word] := by
  have hwords := List.find?_some h
  rw [Operator.tokens, eq_of_beq hwords]
  rfl

theorem tokens_of_operatorOf? {words : List String} {op : Operator} (h : operatorOf? words = some op) :
    op.fixity ≠ .leading ∧ op.tokens = words.map .word := by
  have hwords := List.find?_some h
  rw [Bool.and_eq_true, bne_iff_ne, beq_iff_eq] at hwords
  exact ⟨hwords.1, by rw [Operator.tokens, hwords.2]⟩

/-- An operator after a proper operand. -/
theorem reached_apply {ps : List Pending} {w : Written} (h : Held g ps w) (hedge : w.rightEdge = [])
    {op : Operator} {r : Reading} (happly : g.apply (ps.map Pending.frame) ⟨w.expr, w.top⟩ op = some r) :
    Reached g (stackTokens ps ++ w.tokens ++ op.tokens) r := by
  obtain ⟨ps', w', hs⟩ := h.settle op (by simp [hedge])
  rw [apply_eq, hs.settle, Option.ite_none_right_eq_some] at happly
  obtain ⟨hadmits, hplaced⟩ := happly
  have hbefore : Before g w' op := ⟨hs.yields, hadmits⟩
  have hwaits : Waits g ps' (op :: w'.leftEdge) := by
    intro p hp op' hop' c hc
    rcases List.mem_cons.mp hc with rfl | hc
    · exact hs.waits p hp op' hop' _ (.head _)
    · exact hs.held.waits p hp op' hop' c hc
  cases op with
  | leading op => cases hplaced
  | binary op =>
    cases hplaced
    refine .wanting (.binary op w' :: ps') ⟨⟨hbefore, hs.held.operand⟩, hwaits, hs.held.stack⟩ ?_
    rw [stackTokens, Pending.tokens, ← List.append_assoc, hs.tokens]
  | trailing op =>
    cases hplaced
    refine .holding (w := .trailing op w') ⟨hs.held.stack, ⟨hbefore, hs.held.operand⟩, hwaits⟩ rfl ?_
    rw [List.map_nil, List.append_nil, Written.tokens, ← List.append_assoc, hs.tokens]

theorem reached_step {ts : List Token} {r r' : Reading} (h : Reached g ts r) {t : Token}
    (hstep : g.step r t = some r') : Reached g (ts ++ [t]) r' := by
  cases h with
  | wanting ps hps hts =>
    subst hts
    cases t with
    | name n =>
      cases hstep
      exact .holding (w := .name n) ⟨hps, trivial, by simp [Waits, leftEdge]⟩ rfl (by simp [Written.tokens])
    | opening =>
      cases hstep
      exact .wanting (.opening :: ps) ⟨trivial, by simp [Waits, Pending.leftEdge], hps⟩ rfl
    | closing => cases hstep
    | word word =>
      obtain ⟨op, hop, rfl⟩ := Option.map_eq_some_iff.mp hstep
      refine .wanting (.leading op :: ps) ⟨trivial, by simp [Waits, Pending.leftEdge], hps⟩ ?_
      rw [stackTokens, Pending.tokens, tokens_of_leadingOf? hop]
  | @holding ps w words hw hedge hts =>
    subst hts
    cases t with
    | name n => cases hstep
    | opening => cases hstep
    | closing =>
      cases words with
      | cons _ _ => cases hstep
      | nil =>
        obtain ⟨ps', w', hs⟩ := hw.close
        rw [step, hs.close] at hstep
        cases ps' with
        | nil => cases hstep
        | cons p ps' =>
          cases p with
          | leading op | binary op l => cases hstep
          | opening =>
            cases hstep
            refine .holding (w := .paren w') ⟨hs.held.stack.2.2, hs.held.operand, by simp [Waits, leftEdge]⟩
              rfl ?_
            have htokens := hs.tokens
            rw [stackTokens, Pending.tokens] at htokens
            simp [Written.tokens, inParenTokens, ← htokens]
    | word word =>
      rw [List.append_assoc, ← List.map_singleton, ← List.map_append]
      rw [step] at hstep
      cases hop : operatorOf? (words ++ [word]) with
      | none =>
        rw [hop] at hstep
        cases hstep
        exact .holding hw hedge rfl
      | some op =>
        rw [hop] at hstep
        rw [← (tokens_of_operatorOf? hop).2]
        exact reached_apply hw hedge hstep

theorem reached_run {ts us : List Token} {r r' : Reading} (h : Reached g ts r)
    (hrun : g.run r us = some r') : Reached g (ts ++ us) r' := by
  induction us generalizing ts r with
  | nil =>
    cases hrun
    rwa [List.append_nil]
  | cons t us ih =>
    rw [run_cons] at hrun
    obtain ⟨r₁, hstep, hrun⟩ := Option.bind_eq_some_iff.mp hrun
    rw [← List.singleton_append, ← List.append_assoc]
    exact ih (reached_step h hstep) hrun

/-- What is read is a proper expression with these tokens. -/
theorem Reached.finish? {ts : List Token} {r : Reading} (h : Reached g ts r) {e : SqlExpr}
    (hfinish : finish? r = some e) : ∃ w : Written, w.Proper g ∧ w.tokens = ts ∧ w.expr = e := by
  cases h with
  | wanting hps hts => cases hfinish
  | @holding ps w words hw hedge hts =>
    cases words with
    | cons _ _ => cases hfinish
    | nil =>
      obtain ⟨ps', w', hs⟩ := hw.close
      rw [Grammar.finish?, hs.close] at hfinish
      cases ps' with
      | cons p ps' => cases hfinish
      | nil =>
        refine ⟨w', hs.held.operand, ?_, Option.some.inj hfinish⟩
        rw [List.map_nil, List.append_nil, ← hs.tokens] at hts
        exact hts

variable (g) in
/-- Reading finds the proper expressions, and nothing else. -/
theorem read_tokens_iff (ts : List Token) (e : SqlExpr) :
    (g.run (.wanting []) ts).bind finish? = some e ↔
      ∃ w : Written, w.Proper g ∧ w.tokens = ts ∧ w.expr = e := by
  constructor
  · intro h
    obtain ⟨r, hrun, hfinish⟩ := Option.bind_eq_some_iff.mp h
    exact (reached_run (.wanting [] trivial rfl) hrun).finish? hfinish
  · rintro ⟨w, hw, rfl, rfl⟩
    obtain ⟨fs, x, hw⟩ := run_proper hw [] (by simp [Accepts])
    have hclose : close (fs ++ []) x = ([], ⟨w.expr, w.top⟩) := by
      rw [close_append, hw.operand]
      · rfl
      · intro f hf
        obtain ⟨c, -, hfc⟩ := hw.waiting f hf
        rw [hfc]
        rfl
    rw [hw.run, Option.bind_some, Grammar.finish?, hclose]

end Grammar

/-- The text of an operator tree reads back to the tree exactly if its parentheses are proper. -/
theorem read_render_iff (g : Grammar) {allowed : Operator → Bool} {e : SqlExpr}
    (h : OperatorTree allowed e) (regime : Regime) (select : StageId → String) :
    g.read? (e.renderWith regime select none) = some e ↔ (e.written regime none).Proper g := by
  rw [Grammar.read?, tokensOf_render h, Option.bind_eq_bind, Option.bind_some, Option.bind_eq_bind,
    g.read_tokens_iff, ← tokens_written h]
  constructor
  · rintro ⟨w, hw, htokens, hexpr⟩
    rwa [← eq_of_tokens_eq htokens (hexpr.trans (expr_written h regime none).symm)]
  · exact fun hw => ⟨_, hw, rfl, expr_written h regime none⟩

end TreeSql.Sql
