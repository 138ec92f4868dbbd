import TreeSql.Proofs.Compile.Arena
import TreeSql.Proofs.Compile.Run
import TreeSql.Proofs.Compile.TreeComparison

/-
  TreeSql.Proofs.Compile.Constants — where the constants of a tree are written.

  `buildWriting f` builds a body with the constants of its tree written by `f`: it registers each one and writes
  what `f` makes of the name and the value, and is compiling otherwise. So what comes from a constant of the
  tree is known by where it was compiled, not by its looks: compiling brings integers and texts of its own, and
  those may look the same.

  Building with constants lifted is building with placeholders, and without it is building with literals. With
  any two writings the same is built but for the constants (`Fills`), so that each stands in the same places
  whatever it is written as (`build_writing`). `writing` compares the two. Its worlds are the constants
  registered so far.
-/
namespace TreeSql

open Compile

/-! ## Writings -/

namespace Sql

/-- A text or a literal: an expression that nothing else looks into. -/
inductive Atom where
  | text (s : String)
  | literal (v : Value)

def Atom.sql : Atom → SqlExpr
  | text s => .verbatim s
  | literal v => .constant v

theorem Atom.negate_sql (a : Atom) : a.sql.negate = .leading .not a.sql := by
  cases a <;> rfl

theorem Atom.followedBy_sql (a : Atom) (text : String) : a.sql.followedBy text = .seq [a.sql, .verbatim text] := by
  cases a <;> rfl

/-- How a constant is written, from the name that it is registered under and its value. -/
abbrev Writing := String → Value → Atom

namespace Writing

def placeholders : Writing := fun name _ => .text (placeholder name)

def literals : Writing := fun _ v => .literal v

/-- How constants are written with lifting and without. -/
def lifting : Bool → Writing
  | true => placeholders
  | false => literals

end Writing

/-! ## Expressions -/

mutual

/-- Expressions that differ in the constants that are filled in: where the first one has one of the constants as
    `f` writes it, the second one has it as `g` does. The integers and texts that compiling brings along are the
    same in both. -/
inductive Fills (f g : Writing) (vs : List Value) : SqlExpr → SqlExpr → Prop
  | constant {k : Nat} {v : Value} (h : vs[k]? = some v) :
      Fills f g vs (f (liftedName k) v).sql (g (liftedName k) v).sql
  | own {n : Int32} (h : n ∈ ownIntegers) : Fills f g vs (int n) (int n)
  | verbatim (text : String) : Fills f g vs (.verbatim text) (.verbatim text)
  | columnRef (qualifier name : String) : Fills f g vs (.columnRef qualifier name) (.columnRef qualifier name)
  | property (name : String) : Fills f g vs (.property name) (.property name)
  | stage (id : StageId) : Fills f g vs (.stage id) (.stage id)
  | seq {as bs : List SqlExpr} (h : FillsAll f g vs as bs) : Fills f g vs (.seq as) (.seq bs)
  | list {as bs : List SqlExpr} (h : FillsAll f g vs as bs) : Fills f g vs (.list as) (.list bs)
  | paren {a b : SqlExpr} (h : Fills f g vs a b) : Fills f g vs (.paren a) (.paren b)
  | column {a b : SqlExpr} (h : Fills f g vs a b) (name : String) (type : DataType) :
      Fills f g vs (.column a name type) (.column b name type)
  | call (name : String) {as bs : List SqlExpr} (h : FillsAll f g vs as bs) :
      Fills f g vs (.call name as) (.call name bs)
  | cast {a b : SqlExpr} (h : Fills f g vs a b) (type : String) : Fills f g vs (.cast a type) (.cast b type)
  | binary (op : BinaryOp) {a b a' b' : SqlExpr} (ha : Fills f g vs a a') (hb : Fills f g vs b b') :
      Fills f g vs (.binary op a b) (.binary op a' b')
  | leading (op : LeadingOp) {a b : SqlExpr} (h : Fills f g vs a b) : Fills f g vs (.leading op a) (.leading op b)
  | trailing (op : TrailingOp) {a b : SqlExpr} (h : Fills f g vs a b) :
      Fills f g vs (.trailing op a) (.trailing op b)
  | exists_ {a b : SqlExpr} (h : Fills f g vs a b) : Fills f g vs (.exists_ a) (.exists_ b)

inductive FillsAll (f g : Writing) (vs : List Value) : List SqlExpr → List SqlExpr → Prop
  | nil : FillsAll f g vs [] []
  | cons {a b : SqlExpr} {as bs : List SqlExpr} (h : Fills f g vs a b) (hs : FillsAll f g vs as bs) :
      FillsAll f g vs (a :: as) (b :: bs)

end

variable {f g : Writing} {vs ws : List Value}

theorem fillsAll_of_forall₂ {as bs : List SqlExpr} (h : List.Forall₂ (Fills f g vs) as bs) :
    FillsAll f g vs as bs := by
  induction h with
  | nil => exact .nil
  | cons h _ ih => exact .cons h ih

theorem FillsAll.append {as bs as' bs' : List SqlExpr} (h : FillsAll f g vs as bs) (h' : FillsAll f g vs as' bs') :
    FillsAll f g vs (as ++ as') (bs ++ bs') := by
  match h with
  | .nil => exact h'
  | .cons h hs => exact .cons h (hs.append h')

theorem getElem?_longer (hvs : vs <+: ws) {k : Nat} {v : Value} (h : vs[k]? = some v) : ws[k]? = some v := by
  obtain ⟨rest, rfl⟩ := hvs
  have hk : k < vs.length := (List.getElem?_eq_some_iff.mp h).1
  rw [List.getElem?_append_left hk, h]

mutual

/-- A constant keeps its number when more are registered. -/
theorem Fills.mono (hvs : vs <+: ws) : ∀ {a b : SqlExpr}, Fills f g vs a b → Fills f g ws a b
  | _, _, .constant h => .constant (getElem?_longer hvs h)
  | _, _, .own h => .own h
  | _, _, .verbatim text => .verbatim text
  | _, _, .columnRef qualifier name => .columnRef qualifier name
  | _, _, .property name => .property name
  | _, _, .stage id => .stage id
  | _, _, .seq h => .seq (h.mono hvs)
  | _, _, .list h => .list (h.mono hvs)
  | _, _, .paren h => .paren (h.mono hvs)
  | _, _, .column h name type => .column (h.mono hvs) name type
  | _, _, .call name h => .call name (h.mono hvs)
  | _, _, .cast h type => .cast (h.mono hvs) type
  | _, _, .binary op ha hb => .binary op (ha.mono hvs) (hb.mono hvs)
  | _, _, .leading op h => .leading op (h.mono hvs)
  | _, _, .trailing op h => .trailing op (h.mono hvs)
  | _, _, .exists_ h => .exists_ (h.mono hvs)

theorem FillsAll.mono (hvs : vs <+: ws) : ∀ {as bs : List SqlExpr}, FillsAll f g vs as bs → FillsAll f g ws as bs
  | _, _, .nil => .nil
  | _, _, .cons h hs => .cons (h.mono hvs) (hs.mono hvs)

end

mutual

/-- Written in the same way, they are equal. -/
theorem Fills.eq : ∀ {a b : SqlExpr}, Fills f f vs a b → a = b
  | _, _, .constant _ | _, _, .own _ | _, _, .verbatim _ | _, _, .columnRef .. | _, _, .property _
  | _, _, .stage _ => rfl
  | _, _, .seq h => congrArg SqlExpr.seq h.eq
  | _, _, .list h => congrArg SqlExpr.list h.eq
  | _, _, .paren h => congrArg SqlExpr.paren h.eq
  | _, _, .column h name type => congrArg (SqlExpr.column · name type) h.eq
  | _, _, .call name h => congrArg (SqlExpr.call name) h.eq
  | _, _, .cast h type => congrArg (SqlExpr.cast · type) h.eq
  | _, _, .binary op ha hb => congrArg₂ (SqlExpr.binary op) ha.eq hb.eq
  | _, _, .leading op h => congrArg (SqlExpr.leading op) h.eq
  | _, _, .trailing op h => congrArg (SqlExpr.trailing op) h.eq
  | _, _, .exists_ h => congrArg SqlExpr.exists_ h.eq

theorem FillsAll.eq : ∀ {as bs : List SqlExpr}, FillsAll f f vs as bs → as = bs
  | _, _, .nil => rfl
  | _, _, .cons h hs => congrArg₂ List.cons h.eq hs.eq

end

theorem Fills.negate {a b : SqlExpr} (h : Fills f g vs a b) : Fills f g vs a.negate b.negate := by
  have hself := h
  cases h with
  | constant h =>
    rw [Atom.negate_sql, Atom.negate_sql]
    exact .leading _ (.constant h)
  | binary op ha hb =>
    cases hop : op.negated? with
    | some op' =>
      simp only [SqlExpr.negate, hop]
      exact .binary op' ha hb
    | none =>
      simp only [SqlExpr.negate, hop]
      exact .leading _ hself
  | trailing op h => exact .trailing _ h
  | leading op h =>
    cases op with
    | not => exact h
    | _ => exact .leading _ hself
  | _ => exact .leading _ hself

theorem Fills.followedBy {a b : SqlExpr} (h : Fills f g vs a b) (text : String) :
    Fills f g vs (a.followedBy text) (b.followedBy text) := by
  have hself := h
  have hsuffix : FillsAll f g vs [.verbatim text] [.verbatim text] := .cons (.verbatim text) .nil
  cases h with
  | constant h =>
    rw [Atom.followedBy_sql, Atom.followedBy_sql]
    exact .seq (.cons (.constant h) hsuffix)
  | seq h => exact .seq (h.append hsuffix)
  | _ => exact .seq (.cons hself hsuffix)

theorem congruence_fills (f g : Writing) (vs : List Value) : Congruence (Fills f g vs) where
  verbatim _ := .verbatim _
  int h := .own h
  seq h := .seq (fillsAll_of_forall₂ h)
  list h := .list (fillsAll_of_forall₂ h)
  paren h _ := .paren h
  column h name type := .column h name type
  call name _ _ h := .call name (fillsAll_of_forall₂ h)
  cast h type := .cast h type
  binary op _ _ _ _ ha hb := .binary op ha hb
  leading op _ _ h := .leading op h
  trailing op _ _ h := .trailing op h
  exists_ h := .exists_ h
  negate h := h.negate
  followedBy h _ _ := h.followedBy _

end Sql

namespace Compile

open Sql

/-! ## Compiling with a writing -/

/-- The steps for expressions down to a number of levels, with the constants of the tree written by `f`. -/
def writingTo (f : Writing) : (levels : Nat) → Parts
  | 0 => { value := fun _ => .fail .nestedTooDeeply, rows := fun _ _ => .fail .nestedTooDeeply }
  | n + 1 =>
    { value := fun
        | .constant v => do return (f (← liftConstant v) v).sql
        | e => valueStep (writingTo f n) e
      rows := rowsStep (writingTo f n) }

/-- Parts of any depth, with the constants of the tree written by `f`. -/
def allWriting (f : Writing) : Parts where
  value e := (writingTo f (levels e)).value e
  rows e var := (writingTo f (levels e)).rows e var

/-- What is built for a body if the constants of the tree are written by `f`. -/
def buildWriting (f : Writing) (settings : Settings) (body : CommandBody) :
    Except Error ((Statement × List Member) × State) :=
  (statement (allWriting f) body).run (contextOf settings body) {}

end Compile

/-! ## Compilations side by side -/

/-- Both results are errors, and the same one, or both are values that are related. -/
inductive SameOutcome {α β : Type} (P : α → β → Prop) : Except Error α → Except Error β → Prop
  | error (e : Error) : SameOutcome P (.error e) (.error e)
  | ok {a : α} {b : β} (h : P a b) : SameOutcome P (.ok a) (.ok b)

theorem SameOutcome.mono {α β : Type} {P Q : α → β → Prop} (h : ∀ a b, P a b → Q a b) {x : Except Error α}
    {y : Except Error β} (hxy : SameOutcome P x y) : SameOutcome Q x y := by
  cases hxy with
  | error e => exact .error e
  | ok hab => exact .ok (h _ _ hab)

namespace Compile

open Sql

/-- The same context with the choice to lift constants. -/
def Context.lifting (c : Context) (lift : Bool) : Context := { c with liftConstants := lift }

/-- The states of a compilation, with lifting or without, and of one with constants written by `f`: nothing
    differs but the constants in the expressions of stages. Without lifting none is registered. -/
structure SameState (lift : Bool) (f : Writing) (s t : State) : Prop where
  length : s.stages.length = t.stages.length
  stages : ∀ id, StageAlike (Fills (.lifting lift) f t.lifted) (s.stages.get id) (t.stages.get id)
  nodes : s.nodes = t.nodes
  bindings : s.bindings = t.bindings
  aliases : s.aliases = t.aliases
  lifted : s.lifted = if lift then t.lifted else []

/-- Which column is pulled, and under which name, does not depend on expressions. -/
theorem pull_alike {R : SqlExpr → SqlExpr → Prop} {s t : Stage} (h : StageAlike R s t) (source column : String)
    (k : Nat) :
    (s.pull source column k).1 = (t.pull source column k).1 ∧
      StageAlike R (s.pull source column k).2.1 (t.pull source column k).2.1 ∧
      (s.pull source column k).2.2 = (t.pull source column k).2.2 := by
  have hexposed : s.exposedName? source column = t.exposedName? source column := by
    unfold Stage.exposedName?
    rw [h.pulled]
  unfold Stage.pull
  rw [hexposed, h.pulled]
  split
  · exact ⟨rfl, h, rfl⟩
  · exact ⟨rfl, { h with pulled := rfl }, rfl⟩

section

variable {lift : Bool} {f : Writing} {s t : State} (h : SameState lift f s t)

include h

theorem SameState.register (v : Value) :
    SameState lift f { s with lifted := if lift then s.lifted ++ [v] else s.lifted }
      { t with lifted := t.lifted ++ [v] } where
  length := h.length
  stages id := (h.stages id).mono fun _ _ => Fills.mono (List.prefix_append _ _)
  nodes := h.nodes
  bindings := h.bindings
  aliases := h.aliases
  lifted := by
    have hlifted := h.lifted
    cases lift with
    | true => exact congrArg (· ++ [v]) hlifted
    | false => exact hlifted

theorem SameState.pushStage {a b : Stage} (hab : StageAlike (Fills (.lifting lift) f t.lifted) a b) :
    SameState lift f { s with stages := s.stages ++ [a] } { t with stages := t.stages ++ [b] } where
  length := by simp [h.length]
  stages id := by
    rw [Stages.get_append, Stages.get_append, h.length]
    split
    · exact hab
    · exact h.stages id
  nodes := h.nodes
  bindings := h.bindings
  aliases := h.aliases
  lifted := h.lifted

theorem SameState.modifyStage (id : StageId) {k k' : Stage → Stage}
    (hk : ∀ {a b}, StageAlike (Fills (.lifting lift) f t.lifted) a b →
      StageAlike (Fills (.lifting lift) f t.lifted) (k a) (k' b)) :
    SameState lift f { s with stages := s.stages.modify id k } { t with stages := t.stages.modify id k' } where
  length := by simp [h.length]
  stages j := by
    rw [Stages.get_modify, Stages.get_modify, h.length]
    split
    · exact hk (h.stages id)
    · exact h.stages j
  nodes := h.nodes
  bindings := h.bindings
  aliases := h.aliases
  lifted := h.lifted

theorem SameState.pullColumn (id : StageId) (source column : String) :
    SameState lift f
      { s with
        stages := s.stages.set id ((s.stages.get id).pull source column s.aliases).2.1
        aliases := ((s.stages.get id).pull source column s.aliases).2.2 }
      { t with
        stages := t.stages.set id ((t.stages.get id).pull source column t.aliases).2.1
        aliases := ((t.stages.get id).pull source column t.aliases).2.2 } := by
  obtain ⟨-, hstage, hcount⟩ := pull_alike (h.stages id) source column s.aliases
  rw [← h.aliases]
  refine ⟨by simp [h.length], fun j => ?_, h.nodes, h.bindings, hcount, h.lifted⟩
  show StageAlike _ (Stages.get _ j) (Stages.get _ j)
  rw [Stages.get_set, Stages.get_set, h.length]
  split
  · exact hstage
  · exact h.stages j

end

/-- From states that are the same on, the first program does with lifting or without what the second one does
    in any case. -/
def InStep {α : Type} (lift : Bool) (f : Writing) (vs : List Value) (m m' : CompileM α)
    (R : List Value → α → α → Prop) : Prop :=
  ∀ (c : Context) (s t : State), vs <+: t.lifted → SameState lift f s t →
    SameOutcome (fun r r' => t.lifted <+: r'.2.lifted ∧ SameState lift f r.2 r'.2 ∧ R r'.2.lifted r.1 r'.1)
      (m.run (c.lifting lift) s) (m'.run c t)

section

variable {lift : Bool} {f : Writing} {α β : Type} {vs : List Value} {R : List Value → α → α → Prop}

theorem inStep_pure {a b : α} (h : ∀ ws, vs <+: ws → R ws a b) : InStep lift f vs (pure a) (pure b) R := by
  intro c s t hvs hsame
  exact .ok ⟨List.prefix_refl _, hsame, h _ hvs⟩

theorem inStep_bind {m m' : CompileM α} {k k' : α → CompileM β} {R' : List Value → β → β → Prop}
    (hm : InStep lift f vs m m' R) (hk : ∀ {ws a b}, vs <+: ws → R ws a b → InStep lift f ws (k a) (k' b) R') :
    InStep lift f vs (m >>= k) (m' >>= k') R' := by
  intro c s t hvs hsame
  have hfirst := hm c s t hvs hsame
  rw [run_bind, run_bind]
  generalize m.run (c.lifting lift) s = x, m'.run c t = y at hfirst
  cases hfirst with
  | error e => exact .error e
  | @ok r r' h =>
    obtain ⟨hlater, hsame', hab⟩ := h
    have hrest := hk (hvs.trans hlater) hab c r.2 r'.2 (List.prefix_refl _) hsame'
    exact hrest.mono fun _ _ ⟨hlast, hresult⟩ => ⟨hlater.trans hlast, hresult⟩

/-- Two programs that succeed. -/
theorem sameOutcome_gives {m m' : CompileM α} {c d : Context} {s t s' t' : State} {a b : α}
    {P : α × State → α × State → Prop} (h : Gives m c s a t) (h' : Gives m' d s' b t') (hab : P (a, t) (b, t')) :
    SameOutcome P (m.run c s) (m'.run d s') := by
  unfold Gives at h h'
  rw [h, h']
  exact .ok hab

/-- A constant of the tree: a placeholder with lifting, a literal without, and else as `f` writes it. -/
theorem inStep_constant (v : Value) :
    InStep lift f vs (constantValue v) (do return (f (← liftConstant v) v).sql) (Fills (.lifting lift) f) := by
  intro c s t _ hsame
  have hright : Gives (do return (f (← liftConstant v) v).sql) c t (f (liftedName t.lifted.length) v).sql
      { t with lifted := t.lifted ++ [v] } := rfl
  have hfills : Fills (.lifting lift) f (t.lifted ++ [v]) (Writing.lifting lift (liftedName t.lifted.length) v).sql
      (f (liftedName t.lifted.length) v).sql := .constant (by simp)
  have hstate := hsame.register v
  have hlifted := hsame.lifted
  cases lift with
  | true =>
    have hleft : Gives (constantValue v) (c.lifting true) s (.verbatim (placeholder (liftedName s.lifted.length)))
        { s with lifted := s.lifted ++ [v] } := rfl
    refine sameOutcome_gives hleft hright ⟨List.prefix_append _ _, hstate, ?_⟩
    rw [hlifted]
    exact hfills
  | false =>
    have hleft : Gives (constantValue v) (c.lifting false) s (.constant v) s := rfl
    exact sameOutcome_gives hleft hright ⟨List.prefix_append _ _, hstate, hfills⟩

theorem inStep_nextAlias : InStep lift f vs nextAlias nextAlias fun _ a b => a = b := by
  intro c s t _ hsame
  refine sameOutcome_gives (gives_nextAlias.mpr ⟨rfl, rfl⟩) (gives_nextAlias.mpr ⟨rfl, rfl⟩)
    ⟨List.prefix_refl _, ?_, ?_⟩
  · exact { hsame with aliases := congrArg (· + 1) hsame.aliases }
  · rw [hsame.aliases]

theorem inStep_pushStage {a b : Stage} (h : StageAlike (Fills (.lifting lift) f vs) a b) :
    InStep lift f vs (pushStage a) (pushStage b) fun _ i j => i = j := by
  intro c s t hvs hsame
  exact sameOutcome_gives (gives_pushStage.mpr ⟨rfl, rfl⟩) (gives_pushStage.mpr ⟨rfl, rfl⟩)
    ⟨List.prefix_refl _, hsame.pushStage (h.mono fun _ _ => Fills.mono hvs), hsame.length⟩

theorem inStep_getStage (id : StageId) :
    InStep lift f vs (getStage id) (getStage id) fun ws => StageAlike (Fills (.lifting lift) f ws) := by
  intro c s t _ hsame
  exact sameOutcome_gives (gives_getStage.mpr ⟨rfl, rfl⟩) (gives_getStage.mpr ⟨rfl, rfl⟩)
    ⟨List.prefix_refl _, hsame, hsame.stages id⟩

theorem inStep_modifyStage (id : StageId) {k k' : Stage → Stage}
    (hk : ∀ {ws a b}, vs <+: ws → StageAlike (Fills (.lifting lift) f ws) a b →
      StageAlike (Fills (.lifting lift) f ws) (k a) (k' b)) :
    InStep lift f vs (modifyStage id k) (modifyStage id k') fun _ _ _ => True := by
  intro c s t hvs hsame
  exact sameOutcome_gives (gives_modifyStage.mpr ⟨rfl, rfl⟩) (gives_modifyStage.mpr ⟨rfl, rfl⟩)
    ⟨List.prefix_refl _, hsame.modifyStage id (hk hvs), trivial⟩

theorem inStep_pullColumn (id : StageId) (source column : String) :
    InStep lift f vs (pullColumn id source column) (pullColumn id source column) fun _ a b => a = b := by
  intro c s t _ hsame
  obtain ⟨hname, -, -⟩ := pull_alike (hsame.stages id) source column s.aliases
  refine sameOutcome_gives (gives_pullColumn.mpr ⟨rfl, rfl⟩) (gives_pullColumn.mpr ⟨rfl, rfl⟩)
    ⟨List.prefix_refl _, hsame.pullColumn id source column, ?_⟩
  rw [hname, hsame.aliases]

theorem inStep_pushNode (n : Node) : InStep lift f vs (pushNode n) (pushNode n) fun _ i j => i = j := by
  intro c s t _ hsame
  refine sameOutcome_gives (gives_pushNode.mpr ⟨rfl, rfl⟩) (gives_pushNode.mpr ⟨rfl, rfl⟩)
    ⟨List.prefix_refl _, ?_, ?_⟩
  · exact { hsame with nodes := congrArg (· ++ [n]) hsame.nodes }
  · rw [hsame.nodes]

theorem inStep_getNode (id : NodeId) : InStep lift f vs (getNode id) (getNode id) fun _ a b => a = b := by
  intro c s t _ hsame
  refine sameOutcome_gives (gives_getNode.mpr ⟨rfl, rfl⟩) (gives_getNode.mpr ⟨rfl, rfl⟩)
    ⟨List.prefix_refl _, hsame, ?_⟩
  rw [hsame.nodes]

theorem inStep_boundNode (var : String) :
    InStep lift f vs (boundNode var) (boundNode var) fun _ a b => a = b := by
  intro c s t _ hsame
  refine sameOutcome_gives (gives_boundNode.mpr ⟨rfl, rfl⟩) (gives_boundNode.mpr ⟨rfl, rfl⟩)
    ⟨List.prefix_refl _, hsame, ?_⟩
  rw [hsame.bindings]

theorem inStep_modifyNode (id : NodeId) (k : Node → Node) :
    InStep lift f vs (modifyNode id k) (modifyNode id k) fun _ _ _ => True := by
  intro c s t _ hsame
  exact sameOutcome_gives (gives_modifyNode.mpr ⟨rfl, rfl⟩) (gives_modifyNode.mpr ⟨rfl, rfl⟩)
    ⟨List.prefix_refl _, { hsame with nodes := congrArg (·.modify id k) hsame.nodes }, trivial⟩

theorem inStep_bindVar (var : String) (node : NodeId) :
    InStep lift f vs (bindVar var node) (bindVar var node) fun _ _ _ => True := by
  intro c s t _ hsame
  exact sameOutcome_gives (gives_bindVar.mpr ⟨rfl, rfl⟩) (gives_bindVar.mpr ⟨rfl, rfl⟩)
    ⟨List.prefix_refl _, { hsame with bindings := congrArg ((var, node) :: ·) hsame.bindings }, trivial⟩

theorem inStep_mono {m m' : CompileM α} {R' : List Value → α → α → Prop} (h : InStep lift f vs m m' R)
    (hR : ∀ ws a b, R ws a b → R' ws a b) : InStep lift f vs m m' R' :=
  fun c s t hvs hsame => (h c s t hvs hsame).mono fun _ _ ⟨hlater, hsame', hab⟩ =>
    ⟨hlater, hsame', hR _ _ _ hab⟩

end

/-- A compilation with lifting or without, beside one with a writing. Either may change all of its stages. -/
def writing (lift : Bool) (f : Writing) : TreeComparison where
  World := List Value
  Le := (· <+: ·)
  Alike := Fills (.lifting lift) f
  Steps := InStep lift f
  refl := List.prefix_refl
  trans := .trans
  later h := Fills.mono h
  congruence := congruence_fills _ f
  pure := inStep_pure
  bind := inStep_bind
  fail e := fun _ _ _ _ _ => .error e
  Owned _ _ := True
  OwnedNode _ _ := True
  owned_later _ h := h
  ownedNode_later _ h := h
  alike_stage _ := .stage _
  alike_element h := .paren h
  alike_columnRef _ := .columnRef
  alike_property _ := .property
  alike_placeholder _ _ := .verbatim _
  alike_null _ := .verbatim _
  steps_context h := fun c s t hvs hsame => @h (c.lifting lift) c rfl rfl c s t hvs hsame
  steps_boundNode _ := inStep_boundNode
  steps_node _ := inStep_getNode
  steps_nextAlias _ := inStep_nextAlias
  steps_inScope id := fun h c s t hvs hsame => by
    rw [run_inScope, run_inScope]
    exact h { c with scopes := id :: c.scopes } s t hvs hsame
  steps_pushStage h := inStep_mono (inStep_pushStage h) fun _ _ _ hid => ⟨hid, trivial⟩
  steps_getStage _ := inStep_getStage
  steps_modifyStage _ := fun hk => inStep_modifyStage _ hk
  steps_pullColumn _ := inStep_pullColumn
  steps_pushNode _ := inStep_mono (inStep_pushNode _) fun _ _ _ hid => ⟨hid, trivial⟩
  steps_getNode _ := inStep_mono (inStep_getNode _) fun _ _ _ hn => ⟨hn, fun _ _ => trivial⟩
  steps_modifyNode _ := fun _ => inStep_modifyNode _ _
  steps_bindVar var := fun _ => inStep_bindVar var _

theorem agree_writingTo (lift : Bool) (f : Writing) (n : Nat) : (writing lift f).Agree (partsTo n) (writingTo f n) := by
  induction n with
  | zero => exact ⟨fun _ _ => (writing lift f).fail _, fun _ _ _ => (writing lift f).fail _⟩
  | succ n ih =>
    refine ⟨fun e w => ?_, fun e var _ => TreeComparison.steps_rowsStep ih e var⟩
    -- only constants are compiled in a way of their own
    by_cases hconstant : ∃ v, e = .constant v
    · obtain ⟨v, rfl⟩ := hconstant
      exact inStep_constant v
    · have hvalue : (writingTo f (n + 1)).value e = valueStep (writingTo f n) e := by
        cases e with
        | constant v => exact (hconstant ⟨v, rfl⟩).elim
        | _ => rfl
      rw [hvalue]
      exact TreeComparison.steps_valueStep ih e fun v he => (hconstant ⟨v, he⟩).elim

end Compile

/-! ## What is built -/

/-- The same settings with constants lifted wherever they stand, or nowhere. -/
def Settings.lifting (s : Settings) (lift : Bool) : Settings :=
  { s with liftInChanges := lift, liftInQueries := lift }

theorem contextOf_lifting (s : Settings) (body : CommandBody) (lift : Bool) :
    contextOf (s.lifting lift) body = (contextOf s body).lifting lift := by
  cases body <;> rfl

/-- What is built with lifting or without, beside what is built with constants written by `f`. -/
structure SameWriting (lift : Bool) (f : Sql.Writing) (a b : (Statement × List Member) × State) : Prop where
  statement : StatementAlike (Sql.Fills (.lifting lift) f b.2.lifted) a.1.1 b.1.1
  columns : a.1.2 = b.1.2
  state : SameState lift f a.2 b.2

/-- Nothing that is built depends on how constants are written, but the constants. -/
theorem build_writing (lift : Bool) (f : Sql.Writing) (settings : Settings) (body : CommandBody) :
    SameOutcome (SameWriting lift f) (build (settings.lifting lift) body) (buildWriting f settings body) := by
  have hparts : (writing lift f).Agree allParts (allWriting f) :=
    ⟨fun e => (agree_writingTo lift f (levels e)).value e, fun e => (agree_writingTo lift f (levels e)).rows e⟩
  have hinitial : SameState lift f {} {} :=
    ⟨rfl, fun _ => Sql.stageAlike_empty, rfl, rfl, rfl, by cases lift <;> rfl⟩
  have hrun := TreeComparison.steps_statement hparts (w := []) body (contextOf settings body) {} {}
    (List.prefix_refl _) hinitial
  rw [← contextOf_lifting] at hrun
  exact hrun.mono fun a b ⟨_, hstate, hstatement, hcolumns⟩ => ⟨hstatement, hcolumns, hstate⟩

end TreeSql
