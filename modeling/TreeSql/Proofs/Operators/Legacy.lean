import TreeSql.Proofs.Operators.ReadBack
import TreeSql.Proofs.Operators.Recognition

/-
  TreeSql.Proofs.Operators.Legacy — before 9.5, one text is written for several operator trees.

  Before 9.5 `NOT IN` and `NOT LIKE` bind what stands before them as weakly as `NOT` and what stands
  after them as tightly as `IN` and `LIKE`. Whether an operand is put in parentheses depends on the
  operator at its top only. So a `NOT IN` further down on the left edge of a right operand takes what
  stands before it, and a `NOT` further down on the right edge of a left operand takes a `NOT IN` that
  comes after it.

  `read_render_legacy_iff`: a tree reads back from its text exactly if neither happens in the text
  (`keepsNot`). Two such trees have different texts.
-/
namespace TreeSql.Sql

open Written

namespace Operator

/-- What two operators of one power mean in a row before 9.5: `=` and the operators before their operand
    group from the right; IS, IN, LIKE, `<` and `>` do not chain. -/
def legacyChaining : Operator → Chaining
  | .binary .equals | .leading .not | .leading .minus => .fromRight
  | .trailing _ | .binary .isIn | .binary .notIn | .binary .like | .binary .notLike
  | .binary .lessThan | .binary .greaterThan => .refused
  | _ => .fromLeft

/-- The operators that begin with the word `NOT` and bind what stands before them like it. -/
def beginsWithNot : Operator → Bool
  | .binary .notIn | .binary .notLike => true
  | _ => false

end Operator

/-- The grammar of servers before 9.5. -/
def Grammar.legacy : Grammar where
  before := Operator.legacyLeft
  after := Operator.legacyRight
  chaining := Operator.legacyChaining

namespace Written

/-- No `NOT` on the right edge of the operand takes an operator after it that begins with `NOT`. -/
def keepsLeft (op : Operator) (l : Written) : Bool :=
  !(op.beginsWithNot && l.rightEdge.contains (.leading .not))

/-- No operator on the left edge of the operand that begins with `NOT` takes what stands before it. -/
def keepsRight (op : Operator) (r : Written) : Bool :=
  decide (op.legacyRight ≤ 3) || !r.leftEdge.any Operator.beginsWithNot

theorem keepsLeft_iff {op : Operator} {l : Written} :
    keepsLeft op l = true ↔ ∀ c ∈ l.rightEdge, ¬(op.beginsWithNot = true ∧ c = .leading .not) := by
  simp only [keepsLeft, Bool.not_eq_true', Bool.and_eq_false_imp, List.contains_eq_mem,
    decide_eq_false_iff_not]
  constructor
  · rintro h c hc ⟨hnot, rfl⟩
    exact h hnot hc
  · exact fun h hnot hmem => h _ hmem ⟨hnot, rfl⟩

theorem keepsRight_iff {op : Operator} {r : Written} :
    keepsRight op r = true ↔ (3 < op.legacyRight → ∀ c ∈ r.leftEdge, c.beginsWithNot = false) := by
  simp [keepsRight, Decidable.or_iff_not_imp_left]

/-- Every `NOT` has the operand that it was written with, before 9.5. -/
def keepsNot : Written → Bool
  | name _ => true
  | paren w => w.keepsNot
  | binary op l r => (keepsLeft (.binary op) l && keepsRight (.binary op) r) && (l.keepsNot && r.keepsNot)
  | leading op r => keepsRight (.leading op) r && r.keepsNot
  | trailing op l => keepsLeft (.trailing op) l && l.keepsNot

end Written

/-! ## The legacy table -/

namespace Operator

/-- What is checked for every row of the table holds of all operators. -/
theorem of_all {p : Operator → Prop} (h : ∀ op ∈ all, p op) (op : Operator) : p op := h op (mem_all op)

theorem legacyLeft_le_legacyRight : ∀ op : Operator, op.legacyLeft ≤ op.legacyRight := of_all (by decide)

theorem legacyRight_eq :
    ∀ {op : Operator}, op.beginsWithNot = false → op.legacyRight = op.legacyLeft :=
  @(of_all (by decide))

theorem legacyLeft_eq_three : ∀ {op : Operator}, op.beginsWithNot = true → op.legacyLeft = 3 :=
  @(of_all (by decide))

/-- Up to the power of `NOT`, both sides of an operator are bound alike. -/
theorem min_legacyRight (op : Operator) : min 3 op.legacyRight = min 3 op.legacyLeft := by
  cases h : op.beginsWithNot with
  | false => rw [legacyRight_eq h]
  | true =>
    have := legacyLeft_eq_three h
    have := op.legacyLeft_le_legacyRight
    omega

/-- The operators that group from the right, and those of the power of `NOT`. -/
theorem legacyChaining_eq_fromRight : ∀ {op : Operator}, op.isScalar = true →
    op.isRightAssoc = true ∨ op.legacyRight = 3 → op.legacyChaining = .fromRight :=
  @(of_all (by decide))

/-- Operators do not chain with others of their power if one of them does not. -/
theorem isNonAssoc_of_refused : ∀ {op c : Operator}, c.legacyChaining = .refused →
    c.legacyRight = op.legacyLeft → op.isNonAssoc .legacy = true :=
  @(of_all fun op hop => @(of_all (by revert op hop; decide +kernel)))

/-- Only `NOT` takes a next operator of its power that does not group from the right. -/
theorem eq_not_of_fromRight : ∀ {f c : Operator}, f.fixity ≠ .leading → f.isRightAssoc = false →
    f.legacyLeft = c.legacyRight → c.legacyChaining = .fromRight →
    c = .leading .not ∧ f.beginsWithNot = true :=
  @(of_all fun f hf => @(of_all (by revert f hf; decide +kernel)))

/-- The operator `c` is done with its right operand before `f` comes. -/
def Done (f c : Operator) : Prop :=
  f.legacyLeft ≤ c.legacyRight ∧ (f.isRightAssoc = true → f.legacyLeft < c.legacyRight)

end Operator

open Operator

theorem yields_eq_false {g : Grammar} {op c : Operator} :
    g.yields op c = false ↔
      g.after op ≤ g.before c ∧ (g.before c = g.after op → g.chaining op = .fromRight) := by
  simp only [Grammar.yields, Bool.or_eq_false_iff, decide_eq_false_iff_not, Nat.not_lt,
    Bool.and_eq_false_imp, beq_iff_eq, bne_eq_false_iff_eq]

/-! ## Where parentheses are left out -/

/-- A bare left operand is done, and no chain that is refused. -/
theorem done_of_bare_left {op c : Operator} (h : wrapsLeft .legacy op c = false) :
    Done op c ∧ (c.legacyRight = op.legacyLeft → op.isNonAssoc .legacy = false) := by
  simp only [wrapsLeft, leftPower, rightPower, Bool.or_eq_false_iff, Bool.and_eq_false_imp, beq_iff_eq] at h
  have hle : op.legacyLeft ≤ c.legacyRight := Nat.not_lt.mp (of_decide_eq_false h.1)
  refine ⟨⟨hle, fun hassoc => Nat.lt_of_le_of_ne hle fun heq => ?_⟩, fun heq => (h.2 heq).2⟩
  rw [(h.2 heq.symm).1] at hassoc
  cases hassoc

/-- A bare right operand is done when its operator is. -/
theorem done_of_bare_right {f op c : Operator} (hop : Done f op)
    (h : wrapsRight .legacy (some f) op c = false) : Done f c := by
  rcases wrapsRight_eq_false h with ⟨hle, -⟩ | ⟨-, hfits⟩
  · have hle : op.legacyRight ≤ c.legacyRight := Nat.le_trans hle c.legacyLeft_le_legacyRight
    exact ⟨Nat.le_trans hop.1 hle, fun hassoc => Nat.lt_of_lt_of_le (hop.2 hassoc) hle⟩
  · refine ⟨le_of_fitsBefore hfits, fun hassoc => ?_⟩
    rw [fitsBefore, if_pos hassoc] at hfits
    exact of_decide_eq_true hfits

/-! ## The edges of what is written -/

variable {e : SqlExpr}

theorem mem_rightEdge_operand {wraps : Bool} {inner bare : Written} {c : Operator}
    (h : c ∈ (operand wraps inner bare).rightEdge) : wraps = false ∧ c ∈ bare.rightEdge := by
  cases wraps with
  | false => exact ⟨rfl, h⟩
  | true => cases h

theorem mem_leftEdge_operand {wraps : Bool} {inner bare : Written} {c : Operator}
    (h : c ∈ (operand wraps inner bare).leftEdge) : wraps = false ∧ c ∈ bare.leftEdge := by
  cases wraps with
  | false => exact ⟨rfl, h⟩
  | true => cases h

/-- The left edge of a text begins at the top. -/
theorem operator?_of_mem_leftEdge {regime : Regime} {follower : Option Operator} {c : Operator}
    (h : c ∈ (e.written regime follower).leftEdge) :
    ∃ t, e.operator? = some t ∧ t.fixity ≠ .leading ∧ t ∈ (e.written regime follower).leftEdge := by
  cases e with
  | binary op l r => exact ⟨_, rfl, by simp [Operator.fixity], .head _⟩
  | trailing op l => exact ⟨_, rfl, by simp [Operator.fixity], .head _⟩
  | _ => cases h

/-- If the operator at the top is done before the next one comes, then so is the whole right edge. -/
theorem done_rightEdge {allowed : Operator → Bool} (h : OperatorTree allowed e) {f : Operator}
    (htop : ∀ t, e.operator? = some t → Done f t) :
    ∀ c ∈ (e.written .legacy (some f)).rightEdge, Done f c := by
  have hright {op : Operator} {r : SqlExpr} (hop : Done f op)
      (ih : (∀ t, r.operator? = some t → Done f t) → ∀ c ∈ (r.written .legacy (some f)).rightEdge, Done f c) :
      ∀ c ∈ (operand (wrapsRightOperand .legacy (some f) op r) (r.written .legacy none)
        (r.written .legacy (some f))).rightEdge, Done f c := by
    intro c hc
    obtain ⟨hbare, hc⟩ := mem_rightEdge_operand hc
    refine ih (fun t ht => ?_) c hc
    rw [wrapsRightOperand, ht] at hbare
    exact done_of_bare_right hop hbare
  induction h with
  | column n => simp [SqlExpr.written, rightEdge]
  | binary _ _ _ _ ihr =>
    exact List.forall_mem_cons.mpr ⟨htop _ rfl, hright (htop _ rfl) ihr⟩
  | leading _ _ ih => exact List.forall_mem_cons.mpr ⟨htop _ rfl, hright (htop _ rfl) ih⟩
  | trailing _ _ _ => simp [SqlExpr.written, rightEdge]

/-- Downwards on the left edge operators bind more tightly, as measured by `m`, if no operator there binds
    its right side more tightly than its left side. -/
theorem le_leftEdge {allowed : Operator → Bool} (h : OperatorTree allowed e) (m : Nat → Nat)
    (hm : ∀ a b, a ≤ b → m a ≤ m b) {follower : Option Operator}
    (hsides : ∀ c ∈ (e.written .legacy follower).leftEdge, m c.legacyRight ≤ m c.legacyLeft) {t : Operator}
    (ht : e.operator? = some t) :
    ∀ c ∈ (e.written .legacy follower).leftEdge, m t.legacyLeft ≤ m c.legacyLeft := by
  have hleft {op : Operator} {l : SqlExpr} {w : Written}
      (hsides : ∀ c ∈ (operand (wrapsLeftOperand .legacy op l) w
        (l.written .legacy (some op))).leftEdge, m c.legacyRight ≤ m c.legacyLeft)
      (ih : (∀ c ∈ (l.written .legacy (some op)).leftEdge, m c.legacyRight ≤ m c.legacyLeft) →
        ∀ {t}, l.operator? = some t →
          ∀ c ∈ (l.written .legacy (some op)).leftEdge, m t.legacyLeft ≤ m c.legacyLeft) :
      ∀ c ∈ (operand (wrapsLeftOperand .legacy op l) w (l.written .legacy (some op))).leftEdge,
        m op.legacyLeft ≤ m c.legacyLeft := by
    intro c hc
    obtain ⟨hbare, hc⟩ := mem_leftEdge_operand hc
    obtain ⟨t, ht, -, hmem⟩ := operator?_of_mem_leftEdge hc
    rw [hbare] at hsides
    rw [wrapsLeftOperand, ht] at hbare
    calc m op.legacyLeft
      _ ≤ m t.legacyRight := hm _ _ (done_of_bare_left hbare).1.1
      _ ≤ m t.legacyLeft := hsides t hmem
      _ ≤ m c.legacyLeft := ih hsides ht c hc
  induction h generalizing follower t with
  | column n => cases ht
  | binary _ _ _ ihl _ =>
    cases ht
    exact List.forall_mem_cons.mpr
      ⟨Nat.le_refl _, hleft (fun c hc => hsides c (.tail _ hc)) fun hs _ => ihl hs⟩
  | leading _ _ _ => simp [SqlExpr.written, leftEdge]
  | trailing _ _ ih =>
    cases ht
    exact List.forall_mem_cons.mpr
      ⟨Nat.le_refl _, hleft (fun c hc => hsides c (.tail _ hc)) fun hs _ => ih hs⟩

/-! ## Where the text is read as the tree -/

/-- An operator that is done yields, unless it is `NOT` and the next one begins with `NOT`. -/
theorem Operator.Done.yields_iff {op c : Operator} (h : Done op c) (hop : op.fixity ≠ .leading) :
    Grammar.legacy.yields c op = true ↔ ¬(op.beginsWithNot = true ∧ c = .leading .not) := by
  constructor
  · rintro hyields ⟨hnot, rfl⟩
    have hlate : Grammar.legacy.yields (.leading .not) op = false :=
      yields_eq_false.mpr ⟨Nat.le_of_eq (legacyLeft_eq_three hnot).symm, fun _ => rfl⟩
    rw [hlate] at hyields
    cases hyields
  · refine fun hkeeps => eq_true_of_ne_false fun hlate => hkeeps ?_
    obtain ⟨hle, hchain⟩ := yields_eq_false.mp hlate
    have heq : op.legacyLeft = c.legacyRight := Nat.le_antisymm h.1 hle
    have hassoc : op.isRightAssoc = false :=
      eq_false_of_ne_true fun hassoc => Nat.ne_of_lt (h.2 hassoc) heq
    exact (eq_not_of_fromRight hop hassoc heq (hchain heq)).symm

section

variable {allowed : Operator → Bool}

/-- A bare left operand loses nothing to the operator after it but to one that begins with `NOT`. -/
theorem before_bare {l : SqlExpr} (h : OperatorTree allowed l) {op : Operator} (hop : op.fixity ≠ .leading)
    (hbare : wrapsLeftOperand .legacy op l = false) :
    (l.written .legacy (some op)).Before .legacy op ↔ keepsLeft op (l.written .legacy (some op)) = true := by
  have htop : ∀ t, l.operator? = some t →
      Done op t ∧ (t.legacyRight = op.legacyLeft → op.isNonAssoc .legacy = false) := by
    intro t ht
    rw [wrapsLeftOperand, ht] at hbare
    exact done_of_bare_left hbare
  have hdone := done_rightEdge h fun t ht => (htop t ht).1
  have hadmits : Grammar.legacy.admits ⟨(l.written .legacy (some op)).expr,
      (l.written .legacy (some op)).top⟩ op = true := by
    rw [Grammar.admits, top_written]
    cases ht : l.operator? with
    | none => rfl
    | some t =>
      simp only [Bool.not_eq_true', Bool.and_eq_false_imp, beq_iff_eq, beq_eq_false_iff_ne]
      intro heq hrefused
      have hassoc := (htop t ht).2 heq
      rw [isNonAssoc_of_refused hrefused heq] at hassoc
      cases hassoc
  rw [keepsLeft_iff]
  constructor
  · exact fun hbefore c hc => ((hdone c hc).yields_iff hop).mp (hbefore.yields c hc)
  · exact fun hyields => ⟨fun c hc => ((hdone c hc).yields_iff hop).mpr (hyields c hc), hadmits⟩

/-- A bare right operand loses nothing to the operator before it, unless an operator inside begins with `NOT` and binds
    more weakly. -/
theorem after_bare {r : SqlExpr} (h : OperatorTree allowed r) {op : Operator} (hop : op.isScalar = true)
    {follower : Option Operator} (hbare : wrapsRightOperand .legacy follower op r = false) :
    (r.written .legacy follower).After .legacy op ↔ keepsRight op (r.written .legacy follower) = true := by
  rw [keepsRight_iff]
  constructor
  · intro hafter htight c hc
    refine eq_false_of_ne_true fun hnot => ?_
    have hle : op.legacyRight ≤ c.legacyLeft := (yields_eq_false.mp (hafter c hc)).1
    rw [legacyLeft_eq_three hnot] at hle
    omega
  · intro hfree c hc
    obtain ⟨t, ht, hfixity, -⟩ := operator?_of_mem_leftEdge hc
    rw [wrapsRightOperand, ht] at hbare
    rcases wrapsRight_eq_false hbare with ⟨hle, hchain⟩ | ⟨hleading, -⟩
    · have hle : op.legacyRight ≤ t.legacyLeft := hle
      have hedge : op.legacyRight ≤ c.legacyLeft ∧
          (c.legacyLeft = op.legacyRight → t.legacyLeft = op.legacyRight ∨ op.legacyRight = 3) := by
        by_cases htight : 3 < op.legacyRight
        · have hedge : t.legacyLeft ≤ c.legacyLeft := le_leftEdge h id (fun _ _ h => h)
            (fun c hc => Nat.le_of_eq (legacyRight_eq (hfree htight c hc))) ht c hc
          omega
        · have hedge : min 3 t.legacyLeft ≤ min 3 c.legacyLeft := le_leftEdge h (min 3) (by omega)
            (fun c _ => Nat.le_of_eq c.min_legacyRight) ht c hc
          omega
      exact yields_eq_false.mpr ⟨hedge.1, fun heq =>
        legacyChaining_eq_fromRight hop ((hedge.2 heq).imp_left fun htop => (hchain htop).1)⟩
    · exact absurd hleading hfixity

end

theorem proper_operand {g : Grammar} {wraps : Bool} {inner bare : Written}
    (hinner : inner.Proper g ↔ inner.keepsNot = true) (hbare : bare.Proper g ↔ bare.keepsNot = true) :
    (operand wraps inner bare).Proper g ↔ (operand wraps inner bare).keepsNot = true :=
  of_operand (P := fun w => w.Proper g ↔ w.keepsNot = true) wraps hinner hbare

theorem before_operand {wraps : Bool} {inner bare : Written} {op : Operator}
    (h : wraps = false → (bare.Before .legacy op ↔ keepsLeft op bare = true)) :
    (operand wraps inner bare).Before .legacy op ↔ keepsLeft op (operand wraps inner bare) = true := by
  cases wraps with
  | true => exact iff_of_true (before_paren _ _ _) (by simp [operand, keepsLeft, rightEdge])
  | false => exact h rfl

theorem after_operand {wraps : Bool} {inner bare : Written} {op : Operator}
    (h : wraps = false → (bare.After .legacy op ↔ keepsRight op bare = true)) :
    (operand wraps inner bare).After .legacy op ↔ keepsRight op (operand wraps inner bare) = true := by
  cases wraps with
  | true => exact iff_of_true (after_paren _ _ _) (by simp [operand, keepsRight, leftEdge])
  | false => exact h rfl

/-- The parentheses that are written are proper exactly if every `NOT` keeps its operand. -/
theorem proper_written_iff (h : OperatorTree Operator.isScalar e) (follower : Option Operator) :
    (e.written .legacy follower).Proper .legacy ↔ (e.written .legacy follower).keepsNot = true := by
  induction h generalizing follower with
  | column n => simp [SqlExpr.written, Proper, keepsNot]
  | @binary op _ _ hop hl hr ihl ihr =>
    have hfixity : (Operator.binary op).fixity ≠ .leading := by simp [Operator.fixity]
    simp only [SqlExpr.written, Proper, keepsNot, Bool.and_eq_true,
      before_operand (before_bare hl hfixity), after_operand (after_bare hr hop),
      proper_operand (ihl _) (ihl _), proper_operand (ihr _) (ihr _)]
  | leading hop hr ih =>
    simp only [SqlExpr.written, Proper, keepsNot, Bool.and_eq_true, after_operand (after_bare hr hop),
      proper_operand (ih _) (ih _)]
  | @trailing op _ hop hl ih =>
    have hfixity : (Operator.trailing op).fixity ≠ .leading := by simp [Operator.fixity]
    simp only [SqlExpr.written, Proper, keepsNot, Bool.and_eq_true,
      before_operand (before_bare hl hfixity), proper_operand (ih _) (ih _)]

/-! ### Trees without `NOT IN` and `NOT LIKE` -/

theorem allowed_of_mem_leftEdge {allowed : Operator → Bool} (h : OperatorTree allowed e) {regime : Regime}
    {follower : Option Operator} : ∀ c ∈ (e.written regime follower).leftEdge, allowed c = true := by
  induction h generalizing follower with
  | column n => simp [SqlExpr.written, leftEdge]
  | binary hop _ _ ihl _ =>
    exact List.forall_mem_cons.mpr ⟨hop, fun c hc => ihl c (mem_leftEdge_operand hc).2⟩
  | leading _ _ _ => simp [SqlExpr.written, leftEdge]
  | trailing hop _ ih => exact List.forall_mem_cons.mpr ⟨hop, fun c hc => ih c (mem_leftEdge_operand hc).2⟩

/-- Without operators that begin with `NOT`, every `NOT` keeps its operand. -/
theorem keepsNot_written (h : OperatorTree (fun op => !op.beginsWithNot) e) (follower : Option Operator) :
    (e.written .legacy follower).keepsNot = true := by
  have hleft {op : Operator} {l : Written} (hop : (!op.beginsWithNot) = true) : keepsLeft op l = true :=
    keepsLeft_iff.mpr fun c _ hnot => by simp [hnot.1] at hop
  have hright {op : Operator} {r : SqlExpr} (hr : OperatorTree (fun op => !op.beginsWithNot) r)
      {wraps : Bool} {inner : Written} (follower : Option Operator) :
      keepsRight op (operand wraps inner (r.written .legacy follower)) = true :=
    keepsRight_iff.mpr fun _ c hc =>
      (Bool.not_eq_true' _).mp (allowed_of_mem_leftEdge hr c (mem_leftEdge_operand hc).2)
  have hoperand {wraps : Bool} {inner bare : Written} (hi : inner.keepsNot = true) (hb : bare.keepsNot = true) :
      (operand wraps inner bare).keepsNot = true :=
    of_operand (P := fun w => w.keepsNot = true) wraps hi hb
  induction h generalizing follower with
  | column n => rfl
  | binary hop _ hr ihl ihr =>
    simp only [SqlExpr.written, keepsNot, hleft hop, hright hr, hoperand (ihl _) (ihl _),
      hoperand (ihr _) (ihr _), Bool.and_self]
  | leading _ hr ih =>
    simp only [SqlExpr.written, keepsNot, hright hr, hoperand (ih _) (ih _), Bool.and_self]
  | trailing hop _ ih =>
    simp only [SqlExpr.written, keepsNot, hleft hop, hoperand (ih _) (ih _), Bool.and_self]

/-- Before 9.5, a tree reads back from its text exactly if every `NOT` in the text keeps its operand, and the texts of
    two such trees differ. -/
theorem read_render_legacy_iff (h : OperatorTree Operator.isScalar e) (select : StageId → String) :
    (Grammar.legacy.read? (e.renderWith .legacy select none) = some e ↔
      (e.written .legacy none).keepsNot = true) ∧
    ∀ e', OperatorTree Operator.isScalar e' → e ≠ e' →
      (e.written .legacy none).keepsNot = true → (e'.written .legacy none).keepsNot = true →
      e.renderWith .legacy select none ≠ e'.renderWith .legacy select none := by
  have hread {e : SqlExpr} (h : OperatorTree Operator.isScalar e) :=
    (read_render_iff .legacy h .legacy select).trans (proper_written_iff h none)
  refine ⟨hread h, fun e' h' hne hkeeps hkeeps' htext => hne ?_⟩
  have hback := (hread h).mpr hkeeps
  rw [htext, (hread h').mpr hkeeps'] at hback
  exact (Option.some.inj hback).symm

/-- A tree with a `NOT IN` that has its operands, on the right of `AND` and of `NOT`. -/
theorem read_render_legacy_and_not_in :
    let e : SqlExpr := .binary .and (.property "x")
      (.leading .not (.binary .notIn (.binary .equals (.property "a") (.property "b")) (.property "c")))
    OperatorTree Operator.isScalar e ∧ (e.written .legacy none).keepsNot = true ∧
      Grammar.legacy.read? (e.renderWith .legacy (fun _ => "") none) = some e := by
  intro e
  have h : OperatorTree Operator.isScalar e :=
    .binary rfl (.column "x")
      (.leading rfl (.binary rfl (.binary rfl (.column "a") (.column "b")) (.column "c")))
  have hkeeps : (e.written .legacy none).keepsNot = true := by decide
  exact ⟨h, hkeeps, (read_render_legacy_iff h _).1.mpr hkeeps⟩

/-- A comparison with `a NOT IN b < c` has the text of another tree, and is read as that: `NOT IN` takes the whole of
    `x = a`. -/
theorem legacy_text_of_two_trees :
    let e : SqlExpr := .binary .equals (.property "x")
      (.binary .lessThan (.binary .notIn (.property "a") (.property "b")) (.property "c"))
    let e' : SqlExpr := .binary .lessThan
      (.binary .notIn (.binary .equals (.property "x") (.property "a")) (.property "b")) (.property "c")
    (OperatorTree Operator.isScalar e ∧ OperatorTree Operator.isScalar e' ∧ e ≠ e') ∧
      e.renderWith .legacy (fun _ => "") none = e'.renderWith .legacy (fun _ => "") none ∧
      Grammar.legacy.read? (e.renderWith .legacy (fun _ => "") none) = some e' := by
  intro e e'
  have h : OperatorTree Operator.isScalar e :=
    .binary rfl (.column "x") (.binary rfl (.binary rfl (.column "a") (.column "b")) (.column "c"))
  have h' : OperatorTree Operator.isScalar e' :=
    .binary rfl (.binary rfl (.binary rfl (.column "x") (.column "a")) (.column "b")) (.column "c")
  have hne : e ≠ e' := by simp [e, e']
  have htext : e.renderWith .legacy (fun _ => "") none = e'.renderWith .legacy (fun _ => "") none := by decide
  refine ⟨⟨h, h', hne⟩, htext, ?_⟩
  rw [htext, read_render_iff .legacy h', proper_written_iff h']
  decide

end TreeSql.Sql
