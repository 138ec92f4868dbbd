import TreeSql.Proofs.Compile.Comparison
import TreeSql.Proofs.Compile.Run
import TreeSql.Proofs.Renaming.Names
import TreeSql.Proofs.Renaming.Stages
import TreeSql.Proofs.Renaming.Trees

/-
  TreeSql.Proofs.Renaming.Steps — compilation steps under other names.

  `Mirrors f w m m'`: from a state with at least `w` nodes, `m'` does on the renamed state what `m` does on the
  state. Both fail, not always with the same error, or both succeed and the state that `m'` leads to is the
  renamed one of `m`. A node that is referred to exists (`Linked`), so that it has a name to be renamed. There
  is one rule for each way to put steps together (`mirroring`, as a comparison) and one for each primitive step.
-/
namespace TreeSql

namespace Compile

open Sql

/-- The renaming goes with the names that compiling makes. -/
structure Renames (r : VarRenaming) (vars : List String) : Prop extends r.Faithful where
  fixesAlias (k : Nat) : r.name (aliasName k) = aliasName k
  fixesType (k : Nat) (t : DataType) : r.rowType (aliasName k) t = t
  operand {x : String} (h : Occurs vars x) (place : Nat) : r.name (operandName x place) = operandName (r.name x) place

/-- The nodes that are referred to exist. -/
structure Linked (s : State) : Prop where
  bindings : ∀ b ∈ s.bindings, b.2 < s.nodes.length
  joins : ∀ n ∈ s.nodes, ∀ parent ∈ n.joinParent, parent < s.nodes.length

theorem linked_empty : Linked {} := ⟨fun _ h => (List.not_mem_nil h).elim, fun _ h => (List.not_mem_nil h).elim⟩

theorem Linked.lookup {s : State} (h : Linked s) {x : String} {node : NodeId}
    (hx : s.bindings.lookup x = some node) : node < s.nodes.length := by
  obtain ⟨before, after, hsplit, -⟩ := List.lookup_eq_some_iff.mp hx
  exact h.bindings (x, node) (hsplit ▸ List.mem_append_right before (.head after))

/-- From a state with so many nodes on, the second step does on the renamed state what the first one does on the
    state. -/
def Mirrors {α : Type} (f : String → String) (w : Nat) (m m' : CompileM α) (R : Nat → α → α → Prop) : Prop :=
  ∀ (c : Context) (s : State), c.mode = .query → Linked s → w ≤ s.nodes.length →
    FailTogether
      (fun a b => Linked a.2 ∧ s.nodes.length ≤ a.2.nodes.length ∧ b.2 = a.2.renamed f ∧ R a.2.nodes.length a.1 b.1)
      (m.run c s) (m'.run c (s.renamed f))

section

variable {α β : Type} {f : String → String} {w : Nat} {R : Nat → α → α → Prop}

/-! ## Steps put together -/

theorem mirrors_pure {a b : α} (h : ∀ u, w ≤ u → R u a b) : Mirrors f w (pure a) (pure b) R :=
  fun _ s _ hs hw => .ok ⟨hs, Nat.le_refl _, rfl, h s.nodes.length hw⟩

theorem mirrors_fail (e e' : Error) : Mirrors f w (.fail e) (.fail e') R := fun _ _ _ _ _ => .error e e'

theorem mirrors_bind {m m' : CompileM α} {g g' : α → CompileM β} {R' : Nat → β → β → Prop} (hm : Mirrors f w m m' R)
    (hg : ∀ {u a b}, w ≤ u → R u a b → Mirrors f u (g a) (g' b) R') : Mirrors f w (m >>= g) (m' >>= g') R' := by
  intro c s hc hs hw
  have hfirst := hm c s hc hs hw
  rw [run_bind, run_bind]
  generalize m.run c s = x, m'.run c (s.renamed f) = y at hfirst
  cases hfirst with
  | error e e' => exact .error e e'
  | @ok a b h =>
    obtain ⟨a, t⟩ := a
    obtain ⟨b, t'⟩ := b
    obtain ⟨ht, hle, rfl, hab⟩ := h
    exact (hg (Nat.le_trans hw hle) hab c t hc ht (Nat.le_refl _)).mono fun _ _ ⟨hlinked, hle', hrest⟩ =>
      ⟨hlinked, Nat.le_trans hle hle', hrest⟩

theorem mirrors_mono {m m' : CompileM α} {R' : Nat → α → α → Prop} (h : Mirrors f w m m' R)
    (hR : ∀ u a b, R u a b → R' u a b) : Mirrors f w m m' R' :=
  fun c s hc hs hw => (h c s hc hs hw).mono fun _ _ ⟨hlinked, hle, hstate, hab⟩ => ⟨hlinked, hle, hstate, hR _ _ _ hab⟩

theorem mirrors_lift {x y : Except Error α} {P : α → α → Prop} (h : FailTogether P x y) :
    Mirrors f w (liftM x) (liftM y) fun _ => P := by
  cases h with
  | error e e' => exact mirrors_fail e e'
  | ok h => exact mirrors_pure fun _ _ => h

/-- A step that fails or not by itself. -/
theorem mirrors_except (x : Except Error α) : Mirrors f w (liftM x) (liftM x) fun _ a b => b = a :=
  mirrors_lift (by cases x with
    | error e => exact .error e e
    | ok a => exact .ok rfl)

theorem mirrors_inScope (id : StageId) {m m' : CompileM α} (h : Mirrors f w m m' R) :
    Mirrors f w (inScope id m) (inScope id m') R :=
  fun c s hc hs hw => by
  rw [run_inScope, run_inScope]
  exact h { c with scopes := id :: c.scopes } s hc hs hw

theorem mirrors_read_bind {g g' : Context → CompileM α}
    (h : ∀ c : Context, c.mode = .query → Mirrors f w (g c) (g' c) R) : Mirrors f w (read >>= g) (read >>= g') R :=
  fun c s hc hs hw => h c hc c s hc hs hw

/-- Two steps that only compute. -/
theorem mirrors_gives {m m' : CompileM α}
    (h : ∀ (c : Context) (s : State), Linked s → w ≤ s.nodes.length → ∃ a b t, Gives m c s a t ∧
      Gives m' c (s.renamed f) b (t.renamed f) ∧ Linked t ∧ s.nodes.length ≤ t.nodes.length ∧ R t.nodes.length a b) :
    Mirrors f w m m' R := by
  intro c s _ hs hw
  obtain ⟨a, b, t, hm, hm', hlinked, hle, hab⟩ := h c s hs hw
  rw [hm, hm']
  exact .ok ⟨hlinked, hle, rfl, hab⟩

end

variable {f : String → String} {w : Nat}

/-! ## Primitive steps -/

section

variable {s : State} (hs : Linked s)

include hs

theorem Linked.congr {t : State} (hnodes : t.nodes = s.nodes) (hbindings : t.bindings = s.bindings) : Linked t where
  bindings b hb := by
    rw [hnodes]
    exact hs.bindings b (hbindings ▸ hb)
  joins n hn := by
    rw [hnodes] at hn ⊢
    exact hs.joins n hn

end

theorem mirrors_nextAlias_drawn (f : String → String) :
    Mirrors f w nextAlias nextAlias fun _ a b => b = a ∧ ∃ k, a = aliasName k :=
  mirrors_gives fun _ s hs _ => ⟨_, _, { s with aliases := s.aliases + 1 }, gives_nextAlias.mpr ⟨rfl, rfl⟩,
    gives_nextAlias.mpr ⟨rfl, rfl⟩, hs.congr rfl rfl, Nat.le_refl _, rfl, _, rfl⟩

theorem mirrors_nextAlias {r : VarRenaming} {vars : List String} (hr : Renames r vars) :
    Mirrors r.name w nextAlias nextAlias fun _ a b => b = r.name a ∧ Occurs vars a := by
  refine mirrors_mono (mirrors_nextAlias_drawn r.name) fun _ a b hab => ?_
  obtain ⟨rfl, k, rfl⟩ := hab
  exact ⟨(hr.fixesAlias k).symm, .drawn k⟩

theorem mirrors_pushStage (stage : Stage) :
    Mirrors f w (pushStage stage) (pushStage (stage.renamed f)) fun _ i j => j = i := by
  refine mirrors_gives fun c s hs hw => ⟨_, _, { s with stages := s.stages ++ [stage] },
    gives_pushStage.mpr ⟨rfl, rfl⟩, gives_pushStage.mpr ⟨rfl, ?_⟩, hs.congr rfl rfl, Nat.le_refl _, ?_⟩
  · simp [State.renamed]
  · simp [State.renamed]

theorem mirrors_getStage (id : StageId) :
    Mirrors f w (getStage id) (getStage id) fun _ s t => t = s.renamed f := by
  refine mirrors_gives fun c s hs hw => ⟨_, _, s, gives_getStage.mpr ⟨rfl, rfl⟩, gives_getStage.mpr ⟨rfl, rfl⟩, hs,
    Nat.le_refl _, Stages.get_renamed _ _⟩

theorem mirrors_modifyStage (id : StageId) {g g' : Stage → Stage} (hg : ∀ s, g' (s.renamed f) = (g s).renamed f) :
    Mirrors f w (modifyStage id g) (modifyStage id g') fun _ _ _ => True := by
  refine mirrors_gives fun c s hs hw => ⟨_, _, { s with stages := s.stages.modify id g },
    gives_modifyStage.mpr ⟨rfl, rfl⟩, gives_modifyStage.mpr ⟨rfl, ?_⟩, hs.congr rfl rfl, Nat.le_refl _, trivial⟩
  simp only [State.renamed, modify_map hg]

theorem mirrors_pullColumn (hf : Function.Injective f) (id : StageId) (source column : String) :
    Mirrors f w (pullColumn id source column) (pullColumn id (f source) column) fun _ a b => b = a := by
  refine mirrors_gives fun c s hs hw => ⟨_, _, _, gives_pullColumn.mpr ⟨rfl, rfl⟩, gives_pullColumn.mpr ⟨rfl, ?_⟩,
    hs.congr rfl rfl, Nat.le_refl _, ?_⟩
  · simp only [State.renamed, Stages.get_renamed, Stage.pull_renamed hf, List.map_set]
  · simp only [State.renamed, Stages.get_renamed, Stage.pull_renamed hf]

/-- The same node, which exists. -/
def SameNode (u i j : Nat) : Prop := j = i ∧ i < u

theorem mirrors_pushNode {n : Node} (h : n.joinParent = none) :
    Mirrors f w (pushNode n) (pushNode (n.renamed f)) SameNode := by
  refine mirrors_gives fun c s hs hw => ⟨_, _, { s with nodes := s.nodes ++ [n] }, gives_pushNode.mpr ⟨rfl, rfl⟩,
    gives_pushNode.mpr ⟨rfl, ?_⟩, ⟨fun b hb => ?_, fun m hm p hp => ?_⟩, ?_, ?_, ?_⟩
  · simp [State.renamed]
  · rw [List.length_append]
    exact Nat.lt_of_lt_of_le (hs.bindings b hb) (Nat.le_add_right _ _)
  · rcases List.mem_append.mp hm with hm | hm
    · rw [List.length_append]
      exact Nat.lt_of_lt_of_le (hs.joins m hm p hp) (Nat.le_add_right _ _)
    · rw [List.mem_singleton.mp hm, h] at hp
      cases hp
  · simp
  · simp [State.renamed]
  · simp

/-- A node, and the renamed one. -/
def NodeRenamed (f : String → String) (u : Nat) (n n' : Node) : Prop :=
  n' = n.renamed f ∧ ∀ parent ∈ n.joinParent, parent < u

theorem mirrors_getNode {id : NodeId} (h : id < w) : Mirrors f w (getNode id) (getNode id) (NodeRenamed f) := by
  refine mirrors_gives fun c s hs hw => ⟨_, _, s, gives_getNode.mpr ⟨rfl, rfl⟩, gives_getNode.mpr ⟨rfl, rfl⟩, hs,
    Nat.le_refl _, ?_, ?_⟩
  · simp [State.renamed, List.getElem?_eq_getElem (Nat.lt_of_lt_of_le h hw)]
  · rw [List.getElem?_eq_getElem (Nat.lt_of_lt_of_le h hw)]
    exact hs.joins _ (List.getElem_mem _)

theorem mirrors_openStage {id : NodeId} (h : id < w) :
    Mirrors f w (openStage id) (openStage id) fun _ a b => b = a.renamed f :=
  mirrors_bind (mirrors_getNode h) fun _ hn => mirrors_pure fun _ _ => by rw [hn.1, Node.last_renamed]

theorem mirrors_modifyNode (id : NodeId) {g g' : Node → Node} (hg : ∀ n, g' (n.renamed f) = (g n).renamed f)
    (hjoin : ∀ n, ∀ parent ∈ (g n).joinParent, parent ∈ n.joinParent ∨ parent < w) :
    Mirrors f w (modifyNode id g) (modifyNode id g') fun _ _ _ => True := by
  refine mirrors_gives fun c s hs hw => ⟨_, _, { s with nodes := s.nodes.modify id g },
    gives_modifyNode.mpr ⟨rfl, rfl⟩, gives_modifyNode.mpr ⟨rfl, ?_⟩, ⟨fun b hb => ?_, fun n hn p hp => ?_⟩, ?_, trivial⟩
  · simp only [State.renamed, modify_map hg]
  · rw [List.length_modify]
    exact hs.bindings b hb
  · rw [List.length_modify]
    obtain ⟨i, hi, rfl⟩ := List.mem_iff_getElem.mp hn
    rw [List.length_modify] at hi
    rw [List.getElem_modify] at hp
    split at hp
    · exact (hjoin _ p hp).elim (hs.joins _ (List.getElem_mem hi) p) (Nat.lt_of_lt_of_le · hw)
    · exact hs.joins _ (List.getElem_mem hi) p hp
  · simp

theorem mirrors_bindVar (var : String) {node : NodeId} (h : node < w) :
    Mirrors f w (bindVar var node) (bindVar (f var) node) fun _ _ _ => True := by
  refine mirrors_gives fun c s hs hw => ⟨_, _, { s with bindings := (var, node) :: s.bindings },
    gives_bindVar.mpr ⟨rfl, rfl⟩, gives_bindVar.mpr ⟨rfl, rfl⟩, ⟨fun b hb => ?_, hs.joins⟩, Nat.le_refl _, trivial⟩
  rcases List.mem_cons.mp hb with rfl | hb
  · exact Nat.lt_of_lt_of_le h hw
  · exact hs.bindings b hb

theorem mirrors_boundNode (hf : Function.Injective f) (var : String) :
    Mirrors f w (boundNode var) (boundNode (f var)) fun u a b => b = a ∧ ∀ node ∈ a, node < u :=
  mirrors_gives fun _ s hs _ => ⟨_, _, s, gives_boundNode.mpr ⟨rfl, rfl⟩, gives_boundNode.mpr ⟨rfl, rfl⟩, hs,
    Nat.le_refl _, lookup_renamed hf _ _, fun _ hnode => hs.lookup hnode⟩

theorem mirrors_liftConstant (v : Value) :
    Mirrors f w (liftConstant v) (liftConstant v) fun _ a b => b = a :=
  mirrors_gives fun _ s hs _ => ⟨_, _, { s with lifted := s.lifted ++ [v] }, gives_liftConstant.mpr ⟨rfl, rfl⟩,
    gives_liftConstant.mpr ⟨rfl, rfl⟩, hs.congr rfl rfl, Nat.le_refl _, rfl⟩

/-- A compilation beside the one under other names. The world is the number of nodes. -/
def mirroring (f : String → String) : Comparison where
  World := Nat
  Le := (· ≤ ·)
  Alike _ a b := b = a.renamed f
  Steps := Mirrors f
  refl := Nat.le_refl
  trans := Nat.le_trans
  later _ h := h
  congruence _ := congruence_renamed f
  pure := mirrors_pure
  bind := mirrors_bind
  fail e := mirrors_fail e e

/-! ## Stages around a node -/

theorem mirrors_wrap {node : Nat} (h : node < w) (label : String) :
    Mirrors f w (wrap node label) (wrap node (f label)) fun _ i j => j = i := by
  refine mirrors_bind (mirrors_openStage h) fun _ hlast => ?_
  subst hlast
  refine mirrors_bind (mirrors_pushStage _) fun _ hid => ?_
  subst hid
  refine mirrors_bind (mirrors_modifyNode _ (fun n => ?_) fun n parent hp => .inl hp) fun _ _ => mirrors_pure fun _ _ => rfl
  simp [Node.renamed, AliasedStage.renamed]

theorem mirrors_openFor (clause : Clause) {node : Nat} (h : node < w) (label : String) :
    Mirrors f w (openFor clause node label) (openFor clause node (f label)) fun _ i j => j = i := by
  refine mirrors_bind (mirrors_openStage h) fun hw hlast => ?_
  subst hlast
  refine mirrors_bind (mirrors_getStage _) fun hu hstage => ?_
  subst hstage
  rw [Clause.compatible_renamed]
  split
  · exact mirrors_pure fun _ _ => rfl
  · exact mirrors_wrap (by omega) label

theorem mirrors_pushSource (source : Source) (name : String) :
    Mirrors f w (pushSource source name) (pushSource (source.renamed f) (f name)) SameNode := by
  refine mirrors_bind (mirrors_pushStage _) fun _ hid => ?_
  subst hid
  exact mirrors_pushNode rfl

/-! ## Columns -/

def ColumnPath.renamed (f : String → String) (path : ColumnPath) : ColumnPath :=
  { path with qualifier := f path.qualifier }

theorem mirrors_pullThrough (hf : Function.Injective f) (path : ColumnPath) (stage : AliasedStage) :
    Mirrors f w (pullThrough path stage) (pullThrough (path.renamed f) (stage.renamed f)) fun _ a b =>
      b = a.renamed f := by
  refine mirrors_bind (mirrors_pullColumn hf _ _ _) fun _ hname => ?_
  subst hname
  exact mirrors_pure fun _ _ => rfl

theorem mirrors_pullToScope (hf : Function.Injective f) (path : ColumnPath) (stages : List AliasedStage) :
    Mirrors f w (pullToScope path stages) (pullToScope (path.renamed f) (stages.map (·.renamed f))) fun _ a b =>
      b = (a.1.renamed f, a.2) := by
  induction stages generalizing w path with
  | nil => exact mirrors_pure fun _ _ => rfl
  | cons stage stages ih =>
    refine mirrors_read_bind fun c _ => ?_
    show Mirrors f w (if c.scopes.contains stage.stage then _ else _) (if c.scopes.contains stage.stage then _ else _) _
    split
    · exact mirrors_pure fun _ _ => rfl
    · refine mirrors_bind (mirrors_pullThrough hf path stage) fun _ hpath => ?_
      subst hpath
      exact ih _

theorem mirrors_pullFrom (hf : Function.Injective f) (node : NodeId) (h : node < w) (path : ColumnPath) :
    Mirrors f w (pullFrom node path) (pullFrom node (path.renamed f)) fun _ a b => b = a.renamed f := by
  induction node using Nat.strongRecOn generalizing w path with
  | ind node ih =>
    rw [pullFrom, pullFrom]
    refine mirrors_bind (mirrors_getNode h) @fun _ n _ _ hn => ?_
    obtain ⟨rfl, hparent⟩ := hn
    rw [Node.selects_renamed]
    refine mirrors_bind (mirrors_pullToScope hf path _) @fun _ r _ hu hpath => ?_
    subst hpath
    obtain ⟨path', found⟩ := r
    dsimp only
    split
    · exact mirrors_pure fun _ _ => rfl
    · rw [Node.joinParent_renamed]
      split
      · rename_i parent hjoin
        split
        · exact ih parent ‹_› (Nat.lt_of_lt_of_le (hparent parent hjoin) hu) _
        · exact mirrors_pure fun _ _ => rfl
      · exact mirrors_pure fun _ _ => rfl

theorem propertyOwner_rename (r : VarRenaming) (base : Expr) :
    FailTogether (fun x y => y = r.name x) (propertyOwner base) (propertyOwner ((base.rename r).memberRenamed r)) := by
  cases base with
  | varRef | property => exact .ok rfl
  | _ => exact .error _ _

theorem mirrors_boundColumn {r : VarRenaming} (hr : r.Faithful) (base : Expr) (name : String) :
    Mirrors r.name w (boundColumn base name) (boundColumn ((base.rename r).memberRenamed r) name) fun _ a b =>
      b = a.renamed r.name := by
  refine mirrors_bind (mirrors_lift (propertyOwner_rename r base)) @fun _ owner _ _ howner => ?_
  subst howner
  refine mirrors_bind (mirrors_boundNode hr.name_inj owner) @fun _ _ bound _ hbound => ?_
  obtain ⟨rfl, hbound⟩ := hbound
  cases bound with
  | none => exact mirrors_fail _ _
  | some node =>
    have hnode := hbound node rfl
    refine mirrors_bind (mirrors_getNode hnode) fun hu hn => ?_
    obtain ⟨rfl, -⟩ := hn
    refine mirrors_bind (mirrors_pullFrom hr.name_inj _ (Nat.lt_of_lt_of_le hnode hu) _) fun _ hpath => ?_
    subst hpath
    exact mirrors_pure fun _ _ => rfl

theorem mirrors_propertyValue {r : VarRenaming} (hr : r.Faithful) (base : Expr) (name : String) :
    Mirrors r.name w (propertyValue base name) (propertyValue ((base.rename r).memberRenamed r) name) fun _ a b =>
      b = a.renamed r.name := by
  refine mirrors_read_bind fun c hc => ?_
  rw [hc]
  exact mirrors_boundColumn hr base name

end Compile

end TreeSql
