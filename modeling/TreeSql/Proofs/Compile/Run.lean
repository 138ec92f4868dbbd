import TreeSql.Compile.Tree

/-
  TreeSql.Proofs.Compile.Run — successful compilations, taken apart.

  `Gives m c s a s'`: in the context `c`, the program `m` leads from `s` to `s'` and gives `a`. A program
  that is put together succeeds if its parts do (`gives_bind`, `gives_inScope`), and each primitive
  step has one lemma that says what it gives and what it changes. Two results side by side may be required to
  fail together only (`FailTogether`).
-/
namespace TreeSql

/-- Both results are errors, or both are values that are related. -/
inductive FailTogether {α β : Type} (P : α → β → Prop) : Except Error α → Except Error β → Prop
  | error (e e' : Error) : FailTogether P (.error e) (.error e')
  | ok {a : α} {b : β} (h : P a b) : FailTogether P (.ok a) (.ok b)

theorem FailTogether.mono {α β : Type} {P Q : α → β → Prop} (h : ∀ a b, P a b → Q a b) {x : Except Error α}
    {y : Except Error β} (hxy : FailTogether P x y) : FailTogether Q x y := by
  cases hxy with
  | error e e' => exact .error e e'
  | ok hab => exact .ok (h _ _ hab)

namespace Compile

open Sql

variable {α β : Type} {c : Context} {s s' : State}

/-- The program succeeds. -/
def Gives (m : CompileM α) (c : Context) (s : State) (a : α) (s' : State) : Prop :=
  m.run c s = .ok (a, s')

/-- A result that is computed to have a property. -/
theorem exists_ok {α : Type} {x : Except Error α} {p : α → Prop} [DecidablePred p]
    (h : x.toOption.any (fun a => decide (p a)) = true) : ∃ a, x = .ok a ∧ p a := by
  cases x with
  | error _ => cases h
  | ok a => exact ⟨a, rfl, of_decide_eq_true h⟩

/-! ## Programs put together -/

theorem gives_pure {a b : α} : Gives (pure a) c s b s' ↔ b = a ∧ s' = s := by
  constructor
  · intro h
    cases h
    exact ⟨rfl, rfl⟩
  · rintro ⟨rfl, rfl⟩
    rfl

theorem CompileM.bind_pure (m : CompileM α) : m.bind pure = m := by
  induction m with
  | pure | fail => rfl
  | context next ih => exact congrArg context (funext ih)
  | step x next ih => exact congrArg (step x) (funext ih)
  | inScope id body next _ ih => exact congrArg (inScope id body) (funext ih)

theorem CompileM.bind_assoc {γ : Type} (m : CompileM α) (f : α → CompileM β) (g : β → CompileM γ) :
    (m.bind f).bind g = m.bind fun a => (f a).bind g := by
  induction m with
  | pure | fail => rfl
  | context next ih => exact congrArg context (funext fun c => ih c f)
  | step x next ih => exact congrArg (step x) (funext fun a => ih a f)
  | inScope id body next _ ih => exact congrArg (inScope id body) (funext fun a => ih a f)

instance : LawfulMonad CompileM :=
  .mk' CompileM CompileM.bind_pure (fun _ _ => rfl) CompileM.bind_assoc

/-- A program ends with an error, or runs on with its result. -/
theorem run_bind (m : CompileM α) (f : α → CompileM β) (c : Context) (s : State) :
    (m >>= f).run c s = (m.run c s).bind fun r => (f r.1).run c r.2 := by
  induction m generalizing c s with
  | pure | fail => rfl
  | context next ih => exact ih c f c s
  | step x next ih => exact ih _ f c _
  | inScope id body next _ ih =>
    show (body.run _ s).bind (fun r => (next r.1 >>= f).run c r.2) =
      ((body.run _ s).bind fun r => (next r.1).run c r.2).bind fun r => (f r.1).run c r.2
    cases body.run { c with scopes := id :: c.scopes } s with
    | error e => rfl
    | ok r => exact ih r.1 f c r.2

theorem gives_bind {m : CompileM α} {f : α → CompileM β} {b : β} :
    Gives (m >>= f) c s b s' ↔ ∃ a t, Gives m c s a t ∧ Gives (f a) c t b s' := by
  unfold Gives
  rw [run_bind]
  cases m.run c s with
  | error e =>
    constructor
    · intro h
      cases h
    · rintro ⟨a, t, h, -⟩
      cases h
  | ok r =>
    constructor
    · intro h
      exact ⟨r.1, r.2, rfl, h⟩
    · rintro ⟨a, t, h, h'⟩
      cases h
      exact h'

theorem not_gives_fail {e : Error} {a : α} : ¬Gives (.fail e) c s a s' := by
  intro h
  cases h

theorem gives_lift {x : Except Error α} {a : α} :
    Gives (liftM x) c s a s' ↔ x = .ok a ∧ s' = s := by
  cases x with
  | error e =>
    constructor
    · intro h
      cases h
    · rintro ⟨h, -⟩
      cases h
  | ok b =>
    constructor
    · intro h
      cases h
      exact ⟨rfl, rfl⟩
    · rintro ⟨h, rfl⟩
      cases h
      rfl

theorem run_inScope (id : StageId) (m : CompileM α) (c : Context) (s : State) :
    (inScope id m).run c s = m.run { c with scopes := id :: c.scopes } s := by
  have hrun : (inScope id m).run c s = (m.run { c with scopes := id :: c.scopes } s).bind .ok := rfl
  rw [hrun]
  cases m.run { c with scopes := id :: c.scopes } s <;> rfl

theorem gives_inScope {m : CompileM α} {id : StageId} {a : α} :
    Gives (inScope id m) c s a s' ↔ Gives m { c with scopes := id :: c.scopes } s a s' := by
  unfold Gives
  rw [run_inScope]

/-! ## Primitive steps -/

theorem gives_read_bind {f : Context → CompileM α} {a : α} :
    Gives (read >>= f) c s a s' ↔ Gives (f c) c s a s' := .rfl

theorem gives_boundNode {var : String} {node : Option NodeId} :
    Gives (boundNode var) c s node s' ↔ node = s.bindings.lookup var ∧ s' = s := gives_pure (c := c)

theorem gives_boundNode_bind {var : String} {f : Option NodeId → CompileM α} {a : α} :
    Gives (boundNode var >>= f) c s a s' ↔ Gives (f (s.bindings.lookup var)) c s a s' := .rfl

theorem gives_nextAlias {a : String} :
    Gives nextAlias c s a s' ↔
      a = aliasName (s.aliases + 1) ∧ s' = { s with aliases := s.aliases + 1 } := gives_pure (c := c)

theorem gives_pushStage {stage : Stage} {id : StageId} :
    Gives (pushStage stage) c s id s' ↔
      id = s.stages.length ∧ s' = { s with stages := s.stages ++ [stage] } := gives_pure (c := c)

theorem gives_getStage {id : StageId} {stage : Stage} :
    Gives (getStage id) c s stage s' ↔ stage = s.stages.get id ∧ s' = s := gives_pure (c := c)

theorem gives_getStage_bind {id : StageId} {f : Stage → CompileM α} {a : α} :
    Gives (getStage id >>= f) c s a s' ↔ Gives (f (s.stages.get id)) c s a s' := .rfl

theorem gives_modifyStage {id : StageId} {f : Stage → Stage} {u : Unit} :
    Gives (modifyStage id f) c s u s' ↔ u = () ∧ s' = { s with stages := s.stages.modify id f } :=
  gives_pure (c := c)

theorem gives_pullColumn {id : StageId} {source column name : String} :
    Gives (pullColumn id source column) c s name s' ↔
      name = ((s.stages.get id).pull source column s.aliases).1 ∧
        s' = { s with
          stages := s.stages.set id ((s.stages.get id).pull source column s.aliases).2.1
          aliases := ((s.stages.get id).pull source column s.aliases).2.2 } := gives_pure (c := c)

theorem gives_pushNode {node : Node} {id : NodeId} :
    Gives (pushNode node) c s id s' ↔
      id = s.nodes.length ∧ s' = { s with nodes := s.nodes ++ [node] } := gives_pure (c := c)

theorem gives_getNode {id : NodeId} {node : Node} :
    Gives (getNode id) c s node s' ↔
      node = (s.nodes[id]?).getD { first := ⟨"", 0⟩ } ∧ s' = s := gives_pure (c := c)

theorem gives_modifyNode {id : NodeId} {f : Node → Node} {u : Unit} :
    Gives (modifyNode id f) c s u s' ↔ u = () ∧ s' = { s with nodes := s.nodes.modify id f } :=
  gives_pure (c := c)

theorem gives_openStage {id : NodeId} {stage : AliasedStage} :
    Gives (openStage id) c s stage s' ↔
      stage = ((s.nodes[id]?).getD { first := ⟨"", 0⟩ }).last ∧ s' = s := gives_pure (c := c)

theorem gives_bindVar {var : String} {node : NodeId} {u : Unit} :
    Gives (bindVar var node) c s u s' ↔
      u = () ∧ s' = { s with bindings := (var, node) :: s.bindings } := gives_pure (c := c)

theorem gives_pushSource {source : Source} {name : String} {node : NodeId} :
    Gives (pushSource source name) c s node s' ↔
      node = s.nodes.length ∧
        s' = { s with
          stages := s.stages ++ [.ofSource source name]
          nodes := s.nodes ++ [{ first := ⟨name, s.stages.length⟩ }] } := gives_pure (c := c)

theorem gives_liftConstant {v : Value} {name : String} :
    Gives (liftConstant v) c s name s' ↔
      name = liftedName s.lifted.length ∧ s' = { s with lifted := s.lifted ++ [v] } := gives_pure (c := c)

/-! ## Columns and joins -/

/-- A column starts at the node that the variable of the property is bound to. -/
theorem boundColumn_inv {base : Expr} {name : String} {e : SqlExpr} (h : Gives (boundColumn base name) c s e s') :
    ∃ owner id node t path, propertyOwner base = .ok owner ∧ s.bindings.lookup owner = some id ∧
      Gives (getNode id) c s node t ∧ Gives (pullFrom id ⟨node.first.name, name⟩) c t path s' ∧
      e = .columnRef path.qualifier path.name := by
  obtain ⟨owner, t, hlift, hrest⟩ := gives_bind.mp h
  obtain ⟨howner, rfl⟩ := gives_lift.mp hlift
  rw [gives_boundNode_bind] at hrest
  split at hrest
  · exact (not_gives_fail hrest).elim
  · rename_i id hlookup
    obtain ⟨node, t', hnode, hrest⟩ := gives_bind.mp hrest
    obtain ⟨path, u, hpull, hlast⟩ := gives_bind.mp hrest
    obtain ⟨rfl, rfl⟩ := gives_pure.mp hlast
    exact ⟨owner, id, node, t', path, howner, hlookup, hnode, hpull, rfl⟩

theorem joined_eq {p : Parts} {stage : StageId} {left right f : FromTree} {kind : JoinKind} {condition : Option Expr}
    (h : Gives (joined p stage left kind right condition) c s f s') : ∃ written, f = .join left kind right written := by
  cases condition with
  | none =>
    obtain ⟨rfl, -⟩ := gives_pure.mp h
    exact ⟨none, rfl⟩
  | some condition =>
    obtain ⟨x, t, -, h⟩ := gives_bind.mp h
    obtain ⟨rfl, -⟩ := gives_pure.mp h
    exact ⟨some x, rfl⟩

end Compile

end TreeSql
