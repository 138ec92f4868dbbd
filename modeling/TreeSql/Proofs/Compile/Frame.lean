import TreeSql.Proofs.Compile.Arena
import TreeSql.Proofs.Compile.Run
import TreeSql.Proofs.Compile.TreeComparison

/-
  TreeSql.Proofs.Compile.Frame — what compiling an expression leaves as it was.

  Clauses are attached to stages, and stages put around nodes, while other parts of the tree are already
  built. Of those, compiling an expression changes nothing but which columns a stage exposes: more of them
  may be pulled up (`Undisturbed`). That holds from any state, because clauses go only to the last stage of a
  node, and only nodes that the compilation made itself are taken up (`Kept`).

  `frame` is a comparison of a compilation with itself. Its worlds are states, and it owns what was added
  since a fixed state. The result is `undisturbed_value_rows`.
-/
namespace TreeSql.Compile

open Sql

/-! ## Stages that expose more -/

/-- The second stage exposes further columns after those of the first, and is the same otherwise. -/
structure Extended (s t : Stage) : Prop where
  rest : t = { s with pulled := t.pulled }
  pulled : s.pulled <+: t.pulled

theorem Extended.refl (s : Stage) : Extended s s := ⟨rfl, List.prefix_refl _⟩

theorem Extended.trans {s t u : Stage} (h : Extended s t) (h' : Extended t u) : Extended s u where
  rest := by rw [h'.rest, h.rest]
  pulled := h.pulled.trans h'.pulled

theorem extended_pull (s : Stage) (source column : String) (k : Nat) :
    Extended s (s.pull source column k).2.1 := by
  unfold Stage.pull
  split
  · exact .refl s
  · exact ⟨rfl, List.prefix_append _ _⟩

theorem le_pull (s : Stage) (source column : String) (k : Nat) : k ≤ (s.pull source column k).2.2 := by
  unfold Stage.pull
  split
  · exact Nat.le_refl k
  · exact le_freshName _ _ _ _ _

/-! ## States -/

/-- What there was before is there still, apart from further columns that its stages expose. -/
structure Undisturbed (s t : State) : Prop where
  length : s.stages.length ≤ t.stages.length
  stages : ∀ id < s.stages.length, Extended (s.stages.get id) (t.stages.get id)
  nodes : s.nodes <+: t.nodes
  lifted : s.lifted <+: t.lifted
  aliases : s.aliases ≤ t.aliases

/-- The stage was added between two states. -/
def Added (s t : State) (id : StageId) : Prop := s.stages.length ≤ id ∧ id < t.stages.length

/-- Everything that was added stands on its own: the stages of a new node are new. -/
structure Kept (b t : State) : Prop extends Undisturbed b t where
  fresh : ∀ id n, b.nodes.length ≤ id → t.nodes[id]? = some n → ∀ a ∈ n.selects, Added b t a.stage

theorem Kept.refl (s : State) : Kept s s where
  length := Nat.le_refl _
  stages _ _ := .refl _
  nodes := List.prefix_refl _
  lifted := List.prefix_refl _
  aliases := Nat.le_refl _
  fresh id n hid hn := by
    have := (List.getElem?_eq_some_iff.mp hn).1
    omega

theorem Added.mono {b s t : State} {id : StageId} (h : Added b s id) (hlength : s.stages.length ≤ t.stages.length) :
    Added b t id := ⟨h.1, Nat.lt_of_lt_of_le h.2 hlength⟩

theorem prefix_modify {α : Type} {l m : List α} (h : l <+: m) {i : Nat} (hi : l.length ≤ i) (f : α → α) :
    l <+: m.modify i f := by
  rw [List.prefix_iff_getElem?] at h ⊢
  intro j hj
  have hne : i ≠ j := by omega
  rw [List.getElem?_modify, h j hj]
  simp [hne]

section

variable {b s : State} (h : Kept b s)

include h

/-- The parts of a state other than its stages and nodes only grow. -/
theorem Kept.other {t : State} (hstages : t.stages = s.stages) (hnodes : t.nodes = s.nodes)
    (hlifted : s.lifted <+: t.lifted) (haliases : s.aliases ≤ t.aliases) : Kept b t where
  length := hstages ▸ h.length
  stages := hstages ▸ h.stages
  nodes := hnodes ▸ h.nodes
  lifted := h.lifted.trans hlifted
  aliases := Nat.le_trans h.aliases haliases
  fresh id n hid hn a ha := by
    rw [hnodes] at hn
    unfold Added
    rw [hstages]
    exact h.fresh id n hid hn a ha

theorem Kept.pushStage (stage : Stage) : Kept b { s with stages := s.stages ++ [stage] } where
  length := by
    have := h.length
    simp
    omega
  stages id hid := by
    have := h.length
    rw [Stages.get_append, if_neg (by omega)]
    exact h.stages id hid
  nodes := h.nodes
  lifted := h.lifted
  aliases := h.aliases
  fresh id n hid hn a ha := (h.fresh id n hid hn a ha).mono (by simp)

theorem Kept.modifyStage {id : StageId} (hid : b.stages.length ≤ id) (f : Stage → Stage) :
    Kept b { s with stages := s.stages.modify id f } where
  length := by simpa using h.length
  stages j hj := by
    rw [Stages.get_modify, if_neg (by omega)]
    exact h.stages j hj
  nodes := h.nodes
  lifted := h.lifted
  aliases := h.aliases
  fresh j n hj hn a ha := (h.fresh j n hj hn a ha).mono (by simp)

theorem Kept.pullColumn (id : StageId) (source column : String) :
    Kept b { s with
      stages := s.stages.set id ((s.stages.get id).pull source column s.aliases).2.1
      aliases := ((s.stages.get id).pull source column s.aliases).2.2 } where
  length := by simpa using h.length
  stages j hj := by
    rw [Stages.get_set]
    split
    · rename_i hsame
      rw [← hsame.1]
      exact (h.stages j hj).trans (extended_pull _ _ _ _)
    · exact h.stages j hj
  nodes := h.nodes
  lifted := h.lifted
  aliases := Nat.le_trans h.aliases (le_pull _ _ _ _)
  fresh j n hj hn a ha := (h.fresh j n hj hn a ha).mono (by simp)

theorem Kept.pushNode {node : Node} (hnode : ∀ a ∈ node.selects, Added b s a.stage) :
    Kept b { s with nodes := s.nodes ++ [node] } where
  length := h.length
  stages := h.stages
  nodes := h.nodes.trans (List.prefix_append _ _)
  lifted := h.lifted
  aliases := h.aliases
  fresh id n hid hn := by
    rw [List.getElem?_append] at hn
    split at hn
    · exact h.fresh id n hid hn
    · obtain rfl : n = node := by simpa using List.mem_of_getElem? hn
      exact hnode

theorem Kept.modifyNode {id : NodeId} (hid : b.nodes.length ≤ id) {f : Node → Node}
    (hf : ∀ n, (∀ a ∈ n.selects, Added b s a.stage) → ∀ a ∈ (f n).selects, Added b s a.stage) :
    Kept b { s with nodes := s.nodes.modify id f } where
  length := h.length
  stages := h.stages
  nodes := prefix_modify h.nodes hid f
  lifted := h.lifted
  aliases := h.aliases
  fresh j n hj hn := by
    rw [List.getElem?_modify] at hn
    obtain ⟨m, hm, rfl⟩ := Option.map_eq_some_iff.mp hn
    split
    · exact hf m (h.fresh j m hj hm)
    · exact h.fresh j m hj hm

end

/-! ## Steps -/

/-- There are no fewer stages and nodes. -/
def Larger (s t : State) : Prop := s.stages.length ≤ t.stages.length ∧ s.nodes.length ≤ t.nodes.length

theorem Larger.refl (s : State) : Larger s s := ⟨Nat.le_refl _, Nat.le_refl _⟩

theorem Larger.trans {s t u : State} (h : Larger s t) (h' : Larger t u) : Larger s u :=
  ⟨Nat.le_trans h.1 h'.1, Nat.le_trans h.2 h'.2⟩

/-- From any later state, the step keeps what was there at first. -/
def Keeps {α : Type} (b w : State) (m : CompileM α) (P : State → α → Prop) : Prop :=
  ∀ c s a t, Larger w s → Kept b s → Gives m c s a t → Larger s t ∧ Kept b t ∧ P t a

section

variable {α β : Type} {b w : State} {P : State → α → Prop}

theorem keeps_pure {a : α} (h : ∀ u, Larger w u → P u a) : Keeps b w (pure a) P := by
  intro c s a' t hw hs hrun
  obtain ⟨rfl, rfl⟩ := gives_pure.mp hrun
  exact ⟨.refl _, hs, h _ hw⟩

theorem keeps_bind {m : CompileM α} {f : α → CompileM β} {P' : State → β → Prop} (hm : Keeps b w m P)
    (hf : ∀ {u a}, Larger w u → P u a → Keeps b u (f a) P') : Keeps b w (m >>= f) P' := by
  intro c s r t hw hs hrun
  obtain ⟨a, u, hfirst, hrest⟩ := gives_bind.mp hrun
  obtain ⟨hu, hkept, ha⟩ := hm c s a u hw hs hfirst
  obtain ⟨ht, hresult⟩ := hf (hw.trans hu) ha c u r t (.refl u) hkept hrest
  exact ⟨hu.trans ht, hresult⟩

theorem keeps_constantValue (v : Value) : Keeps b w (constantValue v) fun _ _ => True := by
  intro c s a t _ hs hrun
  unfold constantValue at hrun
  rw [gives_read_bind] at hrun
  split at hrun
  · obtain ⟨name, u, hlift, hrest⟩ := gives_bind.mp hrun
    obtain ⟨rfl, rfl⟩ := gives_liftConstant.mp hlift
    obtain ⟨rfl, rfl⟩ := gives_pure.mp hrest
    exact ⟨.refl _, hs.other rfl rfl (List.prefix_append _ _) (Nat.le_refl _), trivial⟩
  · obtain ⟨rfl, rfl⟩ := gives_pure.mp hrun
    exact ⟨.refl _, hs, trivial⟩

theorem keeps_nextAlias : Keeps b w nextAlias fun _ _ => True := by
  intro c s a t _ hs hrun
  obtain ⟨rfl, rfl⟩ := gives_nextAlias.mp hrun
  exact ⟨.refl _, hs.other rfl rfl (List.prefix_refl _) (Nat.le_succ _), trivial⟩

theorem keeps_pushStage (stage : Stage) : Keeps b w (pushStage stage) (Added b) := by
  intro c s a t _ hs hrun
  obtain ⟨rfl, rfl⟩ := gives_pushStage.mp hrun
  exact ⟨⟨by simp, Nat.le_refl _⟩, hs.pushStage stage, hs.length, by simp⟩

theorem keeps_modifyStage {id : StageId} (h : Added b w id) (f : Stage → Stage) :
    Keeps b w (modifyStage id f) fun _ _ => True := by
  intro c s a t _ hs hrun
  obtain ⟨-, rfl⟩ := gives_modifyStage.mp hrun
  exact ⟨⟨by simp, Nat.le_refl _⟩, hs.modifyStage h.1 f, trivial⟩

theorem keeps_pullColumn (id : StageId) (source column : String) :
    Keeps b w (pullColumn id source column) fun _ _ => True := by
  intro c s a t _ hs hrun
  obtain ⟨-, rfl⟩ := gives_pullColumn.mp hrun
  exact ⟨⟨by simp, Nat.le_refl _⟩, hs.pullColumn id source column, trivial⟩

/-- The node was added between two states. -/
def AddedNode (b t : State) (id : NodeId) : Prop := b.nodes.length ≤ id ∧ id < t.nodes.length

theorem keeps_pushNode {n : Node} (h : ∀ a ∈ n.selects, Added b w a.stage) :
    Keeps b w (pushNode n) (AddedNode b) := by
  intro c s a t hw hs hrun
  obtain ⟨rfl, rfl⟩ := gives_pushNode.mp hrun
  refine ⟨⟨Nat.le_refl _, by simp⟩, hs.pushNode fun a ha => (h a ha).mono hw.1, hs.nodes.length_le, by simp⟩

/-- An added node is one that there is, so its stages were added too. -/
theorem keeps_getNode {id : NodeId} (h : AddedNode b w id) :
    Keeps b w (getNode id) fun t n => ∀ a ∈ n.selects, Added b t a.stage := by
  intro c s n t hw hs hrun
  obtain ⟨rfl, rfl⟩ := gives_getNode.mp hrun
  have hbound : id < t.nodes.length := Nat.lt_of_lt_of_le h.2 hw.2
  have hnode : t.nodes[id]? = some t.nodes[id] := List.getElem?_eq_getElem hbound
  rw [hnode]
  exact ⟨.refl _, hs, hs.fresh id _ h.1 hnode⟩

theorem keeps_modifyNode {id : NodeId} (h : AddedNode b w id) {f : Node → Node}
    (hf : ∀ {u n}, Larger w u → (∀ a ∈ n.selects, Added b u a.stage) → ∀ a ∈ (f n).selects, Added b u a.stage) :
    Keeps b w (modifyNode id f) fun _ _ => True := by
  intro c s a t hw hs hrun
  obtain ⟨-, rfl⟩ := gives_modifyNode.mp hrun
  exact ⟨⟨Nat.le_refl _, by simp⟩, hs.modifyNode h.1 fun _ => hf hw, trivial⟩

theorem keeps_bindVar (var : String) (node : NodeId) : Keeps b w (bindVar var node) fun _ _ => True := by
  intro c s a t _ hs hrun
  obtain ⟨-, rfl⟩ := gives_bindVar.mp hrun
  exact ⟨.refl _, hs.other rfl rfl (List.prefix_refl _) (Nat.le_refl _), trivial⟩

theorem keeps_mono {m : CompileM α} {P' : State → α → Prop} (h : Keeps b w m P) (hP : ∀ t a, P t a → P' t a) :
    Keeps b w m P' := by
  intro c s a t hw hs hrun
  obtain ⟨ht, hkept, ha⟩ := h c s a t hw hs hrun
  exact ⟨ht, hkept, hP t a ha⟩

end

/-! ## Expressions of any depth -/

/-- Compilations that keep a state own what was added to it. What is said of one compilation is that it has
    a counterpart. -/
def frame (b : State) : TreeComparison where
  World := State
  Le := Larger
  Alike _ _ _ := True
  Steps w m _ R := Keeps b w m fun t a => ∃ a', R t a a'
  refl := .refl
  trans := .trans
  later _ h := h
  congruence _ := by constructor <;> intros <;> trivial
  pure h := keeps_pure fun u hu => ⟨_, h u hu⟩
  bind hm hf := keeps_bind hm fun hu ⟨_, ha⟩ => hf hu ha
  fail _ := fun _ _ _ _ _ _ hrun => (not_gives_fail hrun).elim
  Owned := Added b
  OwnedNode := AddedNode b
  owned_later h hid := hid.mono h.1
  ownedNode_later h hid := ⟨hid.1, Nat.lt_of_lt_of_le hid.2 h.2⟩
  alike_stage _ := trivial
  alike_element h := h
  alike_columnRef _ _ _ := trivial
  alike_property _ _ := trivial
  alike_placeholder _ _ := trivial
  alike_null _ := trivial
  steps_context h := fun c s a t hw hs hrun => h rfl rfl c s a t hw hs (gives_read_bind.mp hrun)
  steps_boundNode _ _ := fun _ _ _ _ _ hs hrun => by
    obtain ⟨rfl, rfl⟩ := gives_boundNode.mp hrun
    exact ⟨.refl _, hs, _, rfl⟩
  steps_node _ _ := fun _ _ _ _ _ hs hrun => by
    obtain ⟨rfl, rfl⟩ := gives_getNode.mp hrun
    exact ⟨.refl _, hs, _, rfl⟩
  steps_nextAlias _ := keeps_mono keeps_nextAlias fun _ a _ => ⟨a, rfl⟩
  steps_inScope _ := fun h _ s a t hw hs hrun => h _ s a t hw hs (gives_inScope.mp hrun)
  steps_pushStage _ := keeps_mono (keeps_pushStage _) fun _ id hid => ⟨id, rfl, hid⟩
  steps_getStage _ _ := fun _ _ s _ _ hs hrun => by
    obtain ⟨rfl, rfl⟩ := gives_getStage.mp hrun
    exact ⟨.refl _, hs, _, .refl (fun _ => trivial) _⟩
  steps_modifyStage h := fun _ => keeps_mono (keeps_modifyStage h _) fun _ a _ => ⟨a, trivial⟩
  steps_pullColumn _ id source column := keeps_mono (keeps_pullColumn id source column) fun _ a _ => ⟨a, rfl⟩
  steps_pushNode h := keeps_mono (keeps_pushNode h) fun _ id hid => ⟨id, rfl, hid⟩
  steps_getNode h := keeps_mono (keeps_getNode h) fun _ n hn => ⟨n, rfl, hn⟩
  steps_modifyNode h := fun hf => keeps_mono (keeps_modifyNode h hf) fun _ a _ => ⟨a, trivial⟩
  steps_bindVar var := fun _ => keeps_mono (keeps_bindVar var _) fun _ a _ => ⟨a, trivial⟩

theorem frame_agreeOnConstants (b : State) : (frame b).AgreeOnConstants :=
  fun _ v => keeps_mono (keeps_constantValue v) fun _ a _ => ⟨a, trivial⟩

theorem undisturbed_value {c : Context} {s t : State} {e : Expr} {a : SqlExpr} (h : Gives (value e) c s a t) :
    Undisturbed s t := by
  have hkeeps : Keeps s s (value e) _ := TreeComparison.steps_value (frame_agreeOnConstants s) e s
  obtain ⟨-, hkept, -⟩ := hkeeps c s a t (.refl s) (.refl s) h
  exact hkept.toUndisturbed

theorem undisturbed_rows {c : Context} {s t : State} {e : Expr} {var : String} {node : NodeId}
    (h : Gives (rows e var) c s node t) :
    Undisturbed s t ∧ AddedNode s t node ∧ ∃ n, t.nodes[node]? = some n ∧ Added s t n.last.stage := by
  have hkeeps : Keeps s s (rows e var) _ := TreeComparison.steps_rows (frame_agreeOnConstants s) e var s
  obtain ⟨-, hkept, _, -, hadded⟩ := hkeeps c s node t (.refl s) (.refl s) h
  have hnode : AddedNode s t node := hadded
  have hn : t.nodes[node]? = some (t.nodes.get ⟨node, hnode.2⟩) := List.getElem?_eq_getElem hnode.2
  exact ⟨hkept.toUndisturbed, hnode, _, hn, hkept.fresh node _ hnode.1 hn _ (TreeComparison.last_mem_selects _)⟩

/-- A program, and the context that it leaves. -/
def withContext {α : Type} (m : CompileM α) : CompileM (α × Context) := do return (← m, ← read)

theorem gives_withContext {α : Type} {m : CompileM α} {c d : Context} {s t : State} {a : α} :
    Gives (withContext m) c s (a, d) t ↔ Gives m c s a t ∧ d = c := by
  constructor
  · intro h
    obtain ⟨b, u, hm, hrest⟩ := gives_bind.mp h
    have hpair : Gives (pure (b, c)) c u (a, d) t := gives_read_bind.mp hrest
    cases hpair
    exact ⟨hm, rfl⟩
  · rintro ⟨hm, rfl⟩
    exact gives_bind.mpr ⟨a, t, hm, gives_read_bind.mpr (gives_pure.mpr ⟨rfl, rfl⟩)⟩

/-- Whatever has been built when an expression is compiled stays as it was, up to further columns that its
    stages expose. Rows come in a new node, of which a new stage is open. The same stages are in scope
    afterwards; that goes for every program, since the stages in scope are part of its context and not of the
    state: `inScope` puts one there for the extent of its body. -/
theorem undisturbed_value_rows (c : Context) (s : State) (e : Expr) :
    (∀ a d t, Gives (withContext (value e)) c s (a, d) t → Undisturbed s t ∧ d.scopes = c.scopes) ∧
      ∀ var node d t, Gives (withContext (rows e var)) c s (node, d) t →
        Undisturbed s t ∧ d.scopes = c.scopes ∧ AddedNode s t node ∧
          ∃ n, t.nodes[node]? = some n ∧ Added s t n.last.stage := by
  constructor
  · intro a d t h
    obtain ⟨hvalue, rfl⟩ := gives_withContext.mp h
    exact ⟨undisturbed_value hvalue, rfl⟩
  · intro var node d t h
    obtain ⟨hrows, rfl⟩ := gives_withContext.mp h
    obtain ⟨hkept, hnode, hopen⟩ := undisturbed_rows hrows
    exact ⟨hkept, rfl, hnode, hopen⟩

/-- A table `T` that the variable `x` is bound to. -/
def oneTable : State where
  stages := [.ofSource (.table "\"T\"") "x"]
  nodes := [{ first := ⟨"x", 0⟩ }]
  bindings := [("x", 0)]

/-- The rows of `U` that have a column like one of `x`. -/
def correlated : Expr :=
  let type := DataType.ofKind .int32
  let scan := Expr.scan { name := "U", container := "", columns := [⟨"A", type⟩] }
  let column (var name : String) := Expr.property (.varRef var type) name type
  .filter ⟨scan, "y"⟩ (.comparison .equals (column "y" "A") (column "x" "B"))

/-- A correlated subquery pulls a column of the table around it up, and changes nothing else there. -/
theorem undisturbed_correlated :
    let c : Context := { mode := .query, liftConstants := true }
    (∃ a t, Gives (withContext (value correlated)) c oneTable (a, c) t ∧ Undisturbed oneTable t ∧
        (t.stages.get 0).pulled = [⟨"x", "B", "B"⟩]) ∧
      ∃ node t n, Gives (withContext (rows correlated "z")) c oneTable (node, c) t ∧ Undisturbed oneTable t ∧
        AddedNode oneTable t node ∧ t.nodes[node]? = some n ∧ Added oneTable t n.last.stage := by
  intro c
  obtain ⟨hvalue, hrows⟩ := undisturbed_value_rows c oneTable correlated
  obtain ⟨⟨a, t⟩, hrun, hpulled⟩ : ∃ r : SqlExpr × State, (value correlated).run c oneTable = .ok r ∧
      (r.2.stages.get 0).pulled = [⟨"x", "B", "B"⟩] := exists_ok (by decide +kernel)
  obtain ⟨⟨node, u⟩, hrun', -⟩ : ∃ r : NodeId × State, (rows correlated "z").run c oneTable = .ok r ∧ r.1 = 1 :=
    exists_ok (by decide +kernel)
  have hfirst := gives_withContext.mpr ⟨hrun, rfl⟩
  have hsecond := gives_withContext.mpr ⟨hrun', rfl⟩
  obtain ⟨hkept, -⟩ := hvalue a c t hfirst
  obtain ⟨hkept', -, hnode, n, hn, hopen⟩ := hrows "z" node c u hsecond
  exact ⟨⟨a, t, hfirst, hkept, hpulled⟩, node, u, n, hsecond, hkept', hnode, hn, hopen⟩

end TreeSql.Compile
