import Mathlib.Logic.Relation
import TreeSql.Proofs.Arena.Inside
import TreeSql.Proofs.Compile.Run

/-
  TreeSql.Proofs.Arena.Runs — the states that a compilation runs through.

  `CompileM.events` lists the primitive steps of a run in order, each with the context and the state that it starts
  from, whether the run fails or not. They are read off the program that `CompileM.run` runs.

  `Along I` says of a program that its steps lead from states with the invariant `I` to such states, that the
  numbers they look up are in range, and that its result has a property. There is one rule for each way to put
  programs together. `WellFormed` is what holds all along; `Proceeds` is `Along` for it.
-/
namespace TreeSql.Compile

open Sql

/-! ## Well-formed states -/

/-- All numbers are in range, joins come before their sides, and no stage contains itself. -/
structure WellFormed (c : Context) (s : State) : Prop where
  scopes : ∀ id ∈ c.scopes, id < s.stages.length
  bindings : ∀ b ∈ s.bindings, b.2 < s.nodes.length
  selects : ∀ n ∈ s.nodes, n.selects ≠ [] ∧ ∀ a ∈ n.selects, a.stage < s.stages.length
  parents : ∀ (id : NodeId) (n : Node), s.nodes[id]? = some n → ∀ parent ∈ n.joinParent, parent < id
  inside : ∀ id < s.stages.length, ∀ j ∈ (s.stages.get id).inside, j < s.stages.length
  acyclic : ∀ id, ¬Relation.TransGen s.stages.Refers id id

theorem wellFormed_empty (mode : Mode) (lift : Bool) : WellFormed { mode, liftConstants := lift } {} where
  scopes := by simp
  bindings := by simp
  selects := by simp
  parents := by simp
  inside := by simp
  acyclic id h := by
    obtain ⟨b, hb⟩ := Relation.TransGen.head'_iff.mp h
    cases hb.1

/-! ## Events -/

/-- The numbers that a step looks up are in range. -/
def Step.InRange (s : State) : Step → Prop
  | getStage id | modifyStage id _ | pullColumn id .. => id < s.stages.length
  | getNode id | modifyNode id _ => id < s.nodes.length
  | nextAlias | pushStage _ | pushNode _ | bindVar .. | boundNode _ | liftConstant _ => True

/-- A primitive step of a run, with the stages in scope and the state that it starts from. -/
structure Event where
  context : Context
  before : State
  step : Step

/-- The state that the step leads to. -/
def Event.after (e : Event) : State := (e.step.apply e.before).2

/-- All primitive steps of a run, up to its end or its failure. -/
def CompileM.events {α : Type} : CompileM α → Context → State → List Event
  | pure _, _, _ | fail _, _, _ => []
  | context next, c, s => (next c).events c s
  | step x next, c, s => ⟨c, s, x⟩ :: (next (x.apply s).1).events c (x.apply s).2
  | inScope id body next, c, s =>
    body.events { c with scopes := id :: c.scopes } s ++
      match body.run { c with scopes := id :: c.scopes } s with
      | .ok (a, t) => (next a).events c t
      | .error _ => []

/-- The steps follow on one another, from the first state to the last one. -/
inductive Leads : State → List Event → State → Prop
  | nil (s : State) : Leads s [] s
  | cons (e : Event) {es : List Event} {t : State} (h : Leads e.after es t) : Leads e.before (e :: es) t

theorem Leads.append {s t u : State} {es es' : List Event} (h : Leads s es t) (h' : Leads t es' u) :
    Leads s (es ++ es') u := by
  induction h with
  | nil => exact h'
  | cons e _ ih => exact .cons e (ih h')

/-- The steps of a run follow on one another, up to the state of its result if it has one. -/
theorem leads_events {α : Type} (m : CompileM α) (c : Context) (s : State) :
    ∃ t, Leads s (m.events c s) t ∧ ∀ a u, Gives m c s a u → u = t := by
  induction m generalizing c s with
  | pure a =>
    refine ⟨s, .nil s, fun b u hrun => ?_⟩
    cases hrun
    rfl
  | fail e => exact ⟨s, .nil s, fun _ _ hrun => (not_gives_fail hrun).elim⟩
  | context next ih => exact ih c c s
  | step x next ih =>
    obtain ⟨t, hleads, hlast⟩ := ih (x.apply s).1 c (x.apply s).2
    exact ⟨t, .cons ⟨c, s, x⟩ hleads, hlast⟩
  | inScope id body next ihb ihn =>
    obtain ⟨t, hbody, hend⟩ := ihb { c with scopes := id :: c.scopes } s
    cases hrun : body.run { c with scopes := id :: c.scopes } s with
    | error e =>
      refine ⟨t, ?_, fun a u h => ?_⟩
      · simpa only [CompileM.events, hrun, List.append_nil] using hbody
      · rw [Gives, CompileM.run, hrun] at h
        cases h
    | ok r =>
      obtain rfl : r.2 = t := hend r.1 r.2 hrun
      obtain ⟨u, hnext, hlast⟩ := ihn r.1 c r.2
      refine ⟨u, ?_, fun a v h => ?_⟩
      · simpa only [CompileM.events, hrun] using hbody.append hnext
      · rw [Gives, CompileM.run, hrun] at h
        exact hlast a v h

/-- A step with numbers in range that leads from a state with the invariant to one. -/
structure Event.Keeps (I : Context → State → Prop) (e : Event) : Prop where
  before : I e.context e.before
  inRange : e.step.InRange e.before
  after : I e.context e.after

theorem Event.Keeps.mono {I J : Context → State → Prop} {e : Event} (h : e.Keeps I) (hIJ : ∀ c s, I c s → J c s) :
    e.Keeps J := ⟨hIJ _ _ h.before, h.inRange, hIJ _ _ h.after⟩

/-! ## Programs along an invariant -/

/-- All steps of the run keep the invariant, whether it fails or not, and its result has the property. -/
structure Along {α : Type} (I : Context → State → Prop) (c : Context) (s : State) (m : CompileM α)
    (post : α → State → Prop) : Prop where
  events : ∀ e ∈ m.events c s, e.Keeps I
  result : ∀ a t, Gives m c s a t → post a t

/-- The program runs through well-formed states, and its result has the property. -/
abbrev Proceeds {α : Type} (c : Context) (s : State) (m : CompileM α) (post : α → State → Prop) : Prop :=
  Along WellFormed c s m post

section

variable {I : Context → State → Prop} {α β : Type} {c : Context} {s : State} {post : α → State → Prop}
  {post' : β → State → Prop}

theorem along_pure {a : α} (h : post a s) : Along I c s (pure a) post where
  events _ he := (List.not_mem_nil he).elim
  result b t hrun := by
    obtain ⟨rfl, rfl⟩ := gives_pure.mp hrun
    exact h

theorem along_fail (e : Error) : Along I c s (.fail e) post where
  events _ he := (List.not_mem_nil he).elim
  result _ _ hrun := (not_gives_fail hrun).elim

/-- The steps inside a scope come first. What follows is run if the body succeeds. -/
theorem mem_events_inScope {id : StageId} {body : CompileM α} {next : α → CompileM β} {e : Event} :
    e ∈ (CompileM.inScope id body next).events c s ↔ e ∈ body.events { c with scopes := id :: c.scopes } s ∨
      ∃ a t, Gives body { c with scopes := id :: c.scopes } s a t ∧ e ∈ (next a).events c t := by
  rw [CompileM.events, List.mem_append]
  refine or_congr_right ?_
  unfold Gives
  cases body.run { c with scopes := id :: c.scopes } s with
  | error err => simp
  | ok r =>
    constructor
    · intro he
      exact ⟨r.1, r.2, rfl, he⟩
    · rintro ⟨a, t, hbody, he⟩
      cases hbody
      exact he

/-- The steps of a program and of what follows its result. -/
theorem mem_events_bind {m : CompileM α} {f : α → CompileM β} {e : Event} (he : e ∈ (m >>= f).events c s) :
    e ∈ m.events c s ∨ ∃ a t, Gives m c s a t ∧ e ∈ (f a).events c t := by
  induction m generalizing c s with
  | pure a => exact .inr ⟨a, s, rfl, he⟩
  | fail => exact .inl he
  | context next ih => exact ih c he
  | step x next ih =>
    rcases List.mem_cons.mp he with rfl | he
    · exact .inl (.head _)
    · exact (ih _ he).imp_left (.tail _)
  | inScope id body next _ ih =>
    rcases mem_events_inScope.mp he with he | ⟨b, u, hbody, he⟩
    · exact .inl (mem_events_inScope.mpr (.inl he))
    · rcases ih b he with he | ⟨a, t, hrun, he⟩
      · exact .inl (mem_events_inScope.mpr (.inr ⟨b, u, hbody, he⟩))
      · exact .inr ⟨a, t, gives_bind.mpr ⟨b, u, gives_inScope.mpr hbody, hrun⟩, he⟩

theorem along_bind {m : CompileM α} {f : α → CompileM β} (hm : Along I c s m post)
    (hf : ∀ a t, post a t → Along I c t (f a) post') : Along I c s (m >>= f) post' where
  events e he := by
    rcases mem_events_bind he with he | ⟨a, t, hrun, he⟩
    · exact hm.events e he
    · exact (hf a t (hm.result a t hrun)).events e he
  result b u hrun := by
    obtain ⟨a, t, hm', hf'⟩ := gives_bind.mp hrun
    exact (hf a t (hm.result a t hm')).result b u hf'

theorem along_lift_bind {x : Except Error α} {f : α → CompileM β} (h : ∀ a, x = .ok a → Along I c s (f a) post') :
    Along I c s (liftM x >>= f) post' := by
  cases x with
  | error e => exact along_fail e
  | ok a => exact h a rfl

theorem along_read_bind {f : Context → CompileM β} (h : Along I c s (f c) post') :
    Along I c s (read >>= f) post' := ⟨h.events, h.result⟩

theorem along_mono {m : CompileM α} {post' : α → State → Prop} (h : Along I c s m post)
    (hpost : ∀ a t, post a t → post' a t) : Along I c s m post' :=
  ⟨h.events, fun a t hrun => hpost a t (h.result a t hrun)⟩

theorem along_step {x : Step} {post : x.Answer → State → Prop} {a : x.Answer} {t : State} (hs : I c s)
    (hx : x.InRange s) (hrun : Gives (.step x .pure) c s a t) (ht : I c t) (hpost : post a t) :
    Along I c s (.step x .pure) post := by
  cases hrun
  constructor
  · intro e he
    obtain rfl := List.mem_singleton.mp he
    exact ⟨hs, hx, ht⟩
  · intro b u hrun
    cases hrun
    exact hpost

theorem along_inScope {m : CompileM α} {id : StageId} (h : Along I { c with scopes := id :: c.scopes } s m post) :
    Along I c s (inScope id m) post where
  events e he := by
    rcases mem_events_inScope.mp he with he | ⟨_, _, _, he⟩
    · exact h.events e he
    · exact (List.not_mem_nil he).elim
  result a t hrun := h.result a t (gives_inScope.mp hrun)

end

end TreeSql.Compile
