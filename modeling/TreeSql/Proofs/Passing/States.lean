import TreeSql.Proofs.Compile.Frame
import TreeSql.Proofs.Compile.Pulling

/-
  TreeSql.Proofs.Passing.States — states in which stages pass columns on under their own names.

  A stage that has one source and no select list of its own exposes columns of that source (`Exposes`). Names are
  kept (`PassesOn`) as long as all of them are pulled under one alias, which has to be that of the source; a column
  is pulled under the alias of the stage that it comes from (`Takes`). Whether one goes through a stage is decided
  long after the stage was put in place. So a state is `Transparent` if every route that a column can be sent along
  leads through stages that take it: the stages of a node one after the other (`Chained`), and then the stage of
  the join that the node is a side of, which takes columns of all sources.

  What is built afterwards keeps the routes (`Onward`), since a stage that has got its source never gets another
  one and never loses its select list (`Succeeds`).
-/
namespace TreeSql.Compile

open Sql

/-! ## Stages -/

/-- The stage exposes columns of the item: its only source, over which it has no select list. -/
def Exposes (s : Stage) (item : FromItem) : Prop := s.from_ = some (.item item) ∧ s.projection = none

/-- A column may be pulled through the stage under the qualifier. -/
def Takes (qualifier : String) (s : Stage) : Prop := ∀ item, Exposes s item → item.name = qualifier

/-- The columns that the stage exposes of its only source keep their names. -/
def PassesOn (s : Stage) : Prop := ∀ item, Exposes s item → Plain item.name s

/-- What the second stage exposes, the first one did, and it still keeps the names. -/
def Succeeds (s t : Stage) : Prop := ∀ item, Exposes t item → Exposes s item ∧ (Plain item.name s → Plain item.name t)

section

variable {s t : Stage} {qualifier : String}

theorem PassesOn.succeeds (h : PassesOn s) (hst : Succeeds s t) : PassesOn t :=
  fun item hitem => (hst item hitem).2 (h item (hst item hitem).1)

theorem Takes.succeeds (h : Takes qualifier s) (hst : Succeeds s t) : Takes qualifier t :=
  fun item hitem => h item (hst item hitem).1

theorem Succeeds.refl (s : Stage) : Succeeds s s := fun _ h => ⟨h, id⟩

/-- A stage with a select list exposes the columns of that. -/
theorem not_exposes_projected (h : t.projection.isSome = true) (item : FromItem) : ¬Exposes t item := by
  rintro ⟨-, hnone⟩
  rw [hnone] at h
  cases h

theorem succeeds_of_not_exposes (h : ∀ item, ¬Exposes t item) : Succeeds s t := fun item hitem => (h item hitem).elim

theorem takes_of_not_exposes (h : ∀ item, ¬Exposes t item) : Takes qualifier t := fun item hitem => (h item hitem).elim

/-- Neither the source nor the exposed columns change. -/
theorem succeeds_clause (hfrom : t.from_ = s.from_) (hpulled : t.pulled = s.pulled)
    (hprojection : t.projection = s.projection) : Succeeds s t := by
  intro item hitem
  unfold Exposes Plain at *
  rw [hfrom, hprojection] at hitem
  rw [hpulled]
  exact ⟨hitem, id⟩

/-- More columns of the source are exposed under their own names. -/
theorem succeeds_expose (h : Takes qualifier s) (names : List String) : Succeeds s (s.expose qualifier names) := by
  intro item hitem
  have hwider := wider_expose s qualifier names
  have hsame : Exposes s item := ⟨hwider.from_eq ▸ hitem.1, hwider.projection ▸ hitem.2⟩
  obtain rfl := h item hsame
  exact ⟨hsame, fun hplain => plain_expose hplain names⟩

theorem succeeds_pull (h : Takes qualifier s) (column : String) (k : Nat) :
    Succeeds s (s.pull qualifier column k).2.1 := by
  intro item hitem
  have hextended := extended_pull s qualifier column k
  have hsame : Exposes s item := by
    unfold Exposes at hitem ⊢
    rwa [hextended.rest] at hitem
  obtain rfl := h item hsame
  refine ⟨hsame, fun hplain => ?_⟩
  rw [pull_plain hplain]
  exact plain_expose hplain [column]

theorem exposes_ofSource {source : Source} {name : String} {item : FromItem} (h : Exposes (.ofSource source name) item) :
    item = { source, name } := by
  obtain ⟨hfrom, -⟩ := h
  cases hfrom
  rfl

/-- A new stage exposes nothing, and takes columns of its source. -/
theorem passesOn_ofSource (source : Source) (name : String) : PassesOn (.ofSource source name) :=
  fun _ _ _ hp => absurd hp List.not_mem_nil

theorem takes_ofSource (source : Source) (name : String) : Takes name (.ofSource source name) := by
  intro item hitem
  rw [exposes_ofSource hitem]

end

/-! ## Routes -/

/-- A column comes to the first stage under the qualifier, and goes on under the alias of each. -/
def Chained (stages : Stages) : (qualifier : String) → List AliasedStage → Prop
  | _, [] => True
  | qualifier, a :: rest =>
    (a.stage < stages.length ∧ Takes qualifier (stages.get a.stage)) ∧ Chained stages a.name rest

/-- The innermost stage of the node takes columns under all qualifiers. -/
def TakesAll (s : State) (node : NodeId) : Prop :=
  ∃ n, s.nodes[node]? = some n ∧ ∀ qualifier, Takes qualifier (s.stages.get n.first.stage)

/-- The routes through a node: along its stages, and then out to the join. -/
structure Routed (s : State) (n : Node) : Prop where
  chained : Chained s.stages n.first.name n.selects
  parent : ∀ parent ∈ n.joinParent, TakesAll s parent

/-- All stages pass columns on, and all routes lead through stages that take them. -/
structure Transparent (s : State) : Prop where
  passes : ∀ id, PassesOn (s.stages.get id)
  bindings : ∀ b ∈ s.bindings, b.2 < s.nodes.length
  routes : ∀ n ∈ s.nodes, Routed s n

/-- All that there is stays on the routes that it was on. -/
structure Onward (s t : State) : Prop where
  length : s.stages.length ≤ t.stages.length
  first : ∀ (id : NodeId) (n : Node), s.nodes[id]? = some n → ∃ m, t.nodes[id]? = some m ∧ m.first = n.first
  takes : ∀ id < s.stages.length, ∀ qualifier, Takes qualifier (s.stages.get id) → Takes qualifier (t.stages.get id)

section

variable {s t u : State} {n : Node} {node : NodeId} {stage : StageId} {qualifier : String}

theorem transparent_empty : Transparent {} where
  passes _ _ hitem := nomatch hitem.1
  bindings := by simp
  routes := by simp

namespace Onward

theorem refl (s : State) : Onward s s := ⟨Nat.le_refl _, fun _ n hn => ⟨n, hn, rfl⟩, fun _ _ _ h => h⟩

theorem trans (h : Onward s t) (h' : Onward t u) : Onward s u where
  length := Nat.le_trans h.length h'.length
  first id n hn := by
    obtain ⟨m, hm, hfirst⟩ := h.first id n hn
    obtain ⟨m', hm', hfirst'⟩ := h'.first id m hm
    exact ⟨m', hm', hfirst'.trans hfirst⟩
  takes id hid qualifier hq := h'.takes id (Nat.lt_of_lt_of_le hid h.length) qualifier (h.takes id hid qualifier hq)

theorem stage_lt (h : Onward s t) (hid : stage < s.stages.length) : stage < t.stages.length :=
  Nat.lt_of_lt_of_le hid h.length

theorem node_lt (h : Onward s t) (hid : node < s.nodes.length) : node < t.nodes.length := by
  obtain ⟨m, hm, -⟩ := h.first node _ (List.getElem?_eq_getElem hid)
  exact (List.getElem?_eq_some_iff.mp hm).1

end Onward

theorem Chained.onward {l : List AliasedStage} (h : Chained s.stages qualifier l) (hst : Onward s t) :
    Chained t.stages qualifier l := by
  induction l generalizing qualifier with
  | nil => trivial
  | cons a l ih => exact ⟨⟨hst.stage_lt h.1.1, hst.takes _ h.1.1 _ h.1.2⟩, ih h.2⟩

theorem Chained.bound {stages : Stages} {l : List AliasedStage} (h : Chained stages qualifier l) :
    ∀ a ∈ l, a.stage < stages.length := by
  induction l generalizing qualifier with
  | nil => simp
  | cons a l ih => exact List.forall_mem_cons.mpr ⟨h.1.1, ih h.2⟩

/-- One more stage at the end of a route. -/
theorem Chained.concat {stages : Stages} {inner : AliasedStage} {outers : List AliasedStage}
    (h : Chained stages inner.name outers) {a : AliasedStage} (hbound : a.stage < stages.length)
    (htakes : Takes (topOf inner outers).name (stages.get a.stage)) :
    Chained stages inner.name (outers ++ [a]) := by
  induction outers generalizing inner with
  | nil => exact ⟨⟨hbound, htakes⟩, trivial⟩
  | cons outer outers ih =>
    rw [topOf_cons] at htakes
    exact ⟨h.1, ih h.2 htakes⟩

theorem Transparent.routed (hs : Transparent s) (hn : s.nodes[node]? = some n) : Routed s n :=
  hs.routes n (List.mem_of_getElem? hn)

theorem Transparent.bound (hs : Transparent s) (hn : s.nodes[node]? = some n) :
    ∀ a ∈ n.selects, a.stage < s.stages.length := (hs.routed hn).chained.bound

theorem TakesAll.onward (h : TakesAll s node) (hs : Transparent s) (hst : Onward s t) : TakesAll t node := by
  obtain ⟨n, hn, hall⟩ := h
  obtain ⟨m, hm, hfirst⟩ := hst.first node n hn
  refine ⟨m, hm, fun qualifier => ?_⟩
  rw [hfirst]
  exact hst.takes _ (hs.bound hn _ (.head _)) qualifier (hall qualifier)

theorem Routed.onward (h : Routed s n) (hs : Transparent s) (hst : Onward s t) : Routed t n where
  chained := h.chained.onward hst
  parent parent hparent := (h.parent parent hparent).onward hs hst

/-! ## Primitive steps -/

/-- A stage gives way to one that succeeds it. -/
theorem Transparent.restaged (hs : Transparent s) {g : Stage} (hg : Succeeds (s.stages.get stage) g)
    (hlength : t.stages.length = s.stages.length) (hnodes : t.nodes = s.nodes) (hbindings : t.bindings = s.bindings)
    (hget : ∀ j, t.stages.get j = if j = stage ∧ stage < s.stages.length then g else s.stages.get j) :
    Transparent t ∧ Onward s t := by
  have hsucceeds (j : StageId) : Succeeds (s.stages.get j) (t.stages.get j) := by
    rw [hget]
    split
    · rename_i hsame
      exact hsame.1 ▸ hg
    · exact .refl _
  have honward : Onward s t :=
    ⟨Nat.le_of_eq hlength.symm, fun id n hn => ⟨n, hnodes ▸ hn, rfl⟩, fun id _ _ h => h.succeeds (hsucceeds id)⟩
  refine ⟨⟨fun id => (hs.passes id).succeeds (hsucceeds id), ?_, ?_⟩, honward⟩
  · rw [hbindings, hnodes]
    exact hs.bindings
  · rw [hnodes]
    exact fun n hn => (hs.routes n hn).onward hs honward

theorem Transparent.other (hs : Transparent s) (hstages : t.stages = s.stages) (hnodes : t.nodes = s.nodes)
    (hbindings : t.bindings = s.bindings) : Transparent t ∧ Onward s t := by
  refine hs.restaged (Succeeds.refl (s.stages.get s.stages.length)) (by rw [hstages]) hnodes hbindings fun j => ?_
  rw [hstages, if_neg fun h => Nat.lt_irrefl _ h.2]

theorem Transparent.modifyStage (hs : Transparent s) {f : Stage → Stage}
    (hf : Succeeds (s.stages.get stage) (f (s.stages.get stage))) :
    Transparent { s with stages := s.stages.modify stage f } ∧ Onward s { s with stages := s.stages.modify stage f } :=
  hs.restaged hf (by simp) rfl rfl fun j => Stages.get_modify s.stages stage j f

theorem Transparent.pullColumn (hs : Transparent s) (h : Takes qualifier (s.stages.get stage)) (column : String)
    (k k' : Nat) :
    let t := { s with stages := s.stages.set stage ((s.stages.get stage).pull qualifier column k).2.1, aliases := k' }
    Transparent t ∧ Onward s t :=
  hs.restaged (succeeds_pull h column k) (by simp) rfl rfl fun j => Stages.get_set s.stages stage j _

theorem Transparent.pushStage (hs : Transparent s) {g : Stage} (hg : PassesOn g) :
    Transparent { s with stages := s.stages ++ [g] } ∧ Onward s { s with stages := s.stages ++ [g] } := by
  have honward : Onward s { s with stages := s.stages ++ [g] } := by
    refine ⟨by simp, fun id n hn => ⟨n, hn, rfl⟩, fun id hid _ h => ?_⟩
    rw [Stages.get_append, if_neg (Nat.ne_of_lt hid)]
    exact h
  refine ⟨⟨fun id => ?_, hs.bindings, fun n hn => (hs.routes n hn).onward hs honward⟩, honward⟩
  rw [Stages.get_append]
  split
  · exact hg
  · exact hs.passes id

theorem Transparent.pushNode (hs : Transparent s) (hn : Routed s n) :
    Transparent { s with nodes := s.nodes ++ [n] } ∧ Onward s { s with nodes := s.nodes ++ [n] } := by
  have honward : Onward s { s with nodes := s.nodes ++ [n] } := by
    refine ⟨Nat.le_refl _, fun id m hm => ⟨m, ?_, rfl⟩, fun _ _ _ h => h⟩
    rwa [List.getElem?_append_left (List.getElem?_eq_some_iff.mp hm).1]
  refine ⟨⟨hs.passes, fun b hb => honward.node_lt (hs.bindings b hb), fun m hm => ?_⟩, honward⟩
  rcases List.mem_append.mp hm with hm | hm
  · exact (hs.routes m hm).onward hs honward
  · exact List.mem_singleton.mp hm ▸ hn.onward hs honward

theorem Transparent.modifyNode (hs : Transparent s) {f : Node → Node}
    (hf : ∀ n, s.nodes[node]? = some n → (f n).first = n.first ∧ Routed s (f n)) :
    Transparent { s with nodes := s.nodes.modify node f } ∧ Onward s { s with nodes := s.nodes.modify node f } := by
  have honward : Onward s { s with nodes := s.nodes.modify node f } := by
    refine ⟨Nat.le_refl _, fun id n hn => ?_, fun _ _ _ h => h⟩
    refine ⟨_, by rw [List.getElem?_modify, hn]; rfl, ?_⟩
    split
    · rename_i hsame
      exact (hf n (hsame ▸ hn)).1
    · rfl
  refine ⟨⟨hs.passes, fun b hb => honward.node_lt (hs.bindings b hb), fun m hm => ?_⟩, honward⟩
  obtain ⟨id, hm⟩ := List.mem_iff_getElem?.mp hm
  rw [List.getElem?_modify] at hm
  obtain ⟨n, hn, rfl⟩ := Option.map_eq_some_iff.mp hm
  split
  · rename_i hsame
    exact (hf n (hsame ▸ hn)).2.onward hs honward
  · exact (hs.routed hn).onward hs honward

theorem Transparent.bindVar (hs : Transparent s) (var : String) (hnode : node < s.nodes.length) :
    Transparent { s with bindings := (var, node) :: s.bindings } ∧
      Onward s { s with bindings := (var, node) :: s.bindings } := by
  have honward : Onward s { s with bindings := (var, node) :: s.bindings } :=
    ⟨Nat.le_refl _, fun _ n hn => ⟨n, hn, rfl⟩, fun _ _ _ h => h⟩
  refine ⟨⟨hs.passes, ?_, fun n hn => (hs.routes n hn).onward hs honward⟩, honward⟩
  exact List.forall_mem_cons.mpr ⟨hnode, hs.bindings⟩

end

end TreeSql.Compile
