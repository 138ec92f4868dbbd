import TreeSql.Proofs.Meaning.Rows

/-
  TreeSql.Proofs.Meaning.Opening — the open stage of a node: wrapped, or given a clause.

  A stage put around a node gives the same rows (`gives_wrap`), so that each clause finds a stage that
  can take it (`gives_openFor`). Clauses of the open stage may only refer to what the stage below
  shows (`Attaches`); then all stages keep their sources (`Held.attach`), and the open stage selects
  from the rows from which it selected before (`rows_attach`).
-/
namespace TreeSql.Compile

open Sql

/-! ## Nodes and their open stages -/

/-- The stages below the open one. -/
def belowLast (n : Node) : List AliasedStage := n.selects.dropLast

/-- The alias of the source of the open stage. -/
def sourceName (n : Node) : String := ((belowLast n).getLast?.getD n.first).name

/-- Either the first stage is the open one, or the last wrapper is. -/
theorem node_cases (n : Node) :
    (n.wrappers = [] ∧ n.last = n.first ∧ belowLast n = []) ∨
      ∃ outers last, n.wrappers = outers ++ [last] ∧ n.last = last ∧ belowLast n = n.first :: outers := by
  rcases List.eq_nil_or_concat n.wrappers with hw | ⟨outers, last, hw⟩
  · exact .inl ⟨hw, by simp [Node.last, hw], by simp [belowLast, Node.selects, hw]⟩
  · rw [List.concat_eq_append] at hw
    refine .inr ⟨outers, last, hw, by simp [Node.last, hw], ?_⟩
    rw [belowLast, Node.selects, hw, ← List.cons_append, List.dropLast_concat]

theorem selects_eq (n : Node) : n.selects = belowLast n ++ [n.last] := by
  rcases node_cases n with ⟨hw, hlast, hbelow⟩ | ⟨outers, last, hw, hlast, hbelow⟩
  · rw [Node.selects, hw, hlast, hbelow]
    rfl
  · rw [Node.selects, hw, hlast, hbelow]
    rfl

theorem Stacked.last {stages : Stages} {inner outer : AliasedStage} {outers : List AliasedStage}
    (h : Stacked stages inner (outers ++ [outer])) :
    (stages.get outer.stage).from_ =
        some (.item { source := .stage (topOf inner outers).stage, name := (topOf inner outers).name }) ∧
      Plain (topOf inner outers).name (stages.get outer.stage) ∧
      (topOf inner outers).stage < outer.stage ∧ outer.stage < stages.length := by
  induction outers generalizing inner with
  | nil => exact h.1
  | cons a outers ih =>
    rw [topOf_cons]
    exact ih h.2

theorem Stacked.init {stages : Stages} {inner : AliasedStage} {outers rest : List AliasedStage}
    (h : Stacked stages inner (outers ++ rest)) : Stacked stages inner outers := by
  induction outers generalizing inner with
  | nil => trivial
  | cons a outers ih => exact ⟨h.1, ih h.2⟩

theorem Stacked.lt_last {stages : Stages} {inner outer : AliasedStage} {outers : List AliasedStage}
    (h : Stacked stages inner (outers ++ [outer])) : ∀ a ∈ outers, a.stage < outer.stage := by
  induction outers generalizing inner with
  | nil =>
    intro a ha
    cases ha
  | cons b outers ih =>
    intro a ha
    rcases List.mem_cons.mp ha with rfl | ha
    · exact h.2.lt outer (by simp)
    · exact ih h.2 a ha

namespace NodeStacked

variable {stages : Stages} {n : Node}

theorem bound_last (h : NodeStacked stages n) : n.last.stage < stages.length := by
  rcases node_cases n with ⟨hw, hlast, hbelow⟩ | ⟨outers, last, hw, hlast, hbelow⟩
  · rw [hlast]
    exact h.bound
  · have hstacked := h.stacked
    rw [hw] at hstacked
    rw [hlast]
    exact hstacked.last.2.2.2

theorem plain_last (h : NodeStacked stages n) : Plain (sourceName n) (stages.get n.last.stage) := by
  rcases node_cases n with ⟨hw, hlast, hbelow⟩ | ⟨outers, last, hw, hlast, hbelow⟩
  · rw [sourceName, hlast, hbelow]
    exact h.plain
  · have hstacked := h.stacked
    rw [hw] at hstacked
    rw [sourceName, hlast, hbelow, List.getLast?_cons]
    exact hstacked.last.2.1

theorem below_lt (h : NodeStacked stages n) : ∀ a ∈ belowLast n, a.stage < n.last.stage := by
  rcases node_cases n with ⟨hw, hlast, hbelow⟩ | ⟨outers, last, hw, hlast, hbelow⟩
  · intro a ha
    rw [hbelow] at ha
    cases ha
  · have hstacked := h.stacked
    rw [hw] at hstacked
    intro a ha
    rw [hbelow] at ha
    rw [hlast]
    rcases List.mem_cons.mp ha with rfl | ha
    · exact hstacked.lt last (by simp)
    · exact hstacked.lt_last a ha

/-- An open stage without a select list that is over a stage is over the one below it. -/
theorem source_last (h : NodeStacked stages n) (hp : (stages.get n.last.stage).projection = none)
    {source : Nat} (hover : Over source (stages.get n.last.stage)) :
    ∃ a ∈ (belowLast n).getLast?, a.stage = source := by
  obtain ⟨label, hover⟩ := hover
  rcases node_cases n with ⟨hw, hlast, hbelow⟩ | ⟨outers, last, hw, hlast, hbelow⟩
  · rw [hlast] at hp hover
    rcases h.bottom with ⟨text, label', htable⟩ | hsome
    · rw [hover] at htable
      cases htable
    · rw [hp] at hsome
      cases hsome
  · have hstacked := h.stacked
    rw [hw] at hstacked
    obtain ⟨hfrom, -⟩ := hstacked.last
    rw [hlast, hfrom] at hover
    cases hover
    refine ⟨topOf n.first outers, ?_, rfl⟩
    rw [hbelow, List.getLast?_cons]
    rfl

/-- Only the stages of the node count. -/
theorem congr {A B : Stages} {n : Node} (h : NodeStacked A n) (hlength : A.length ≤ B.length)
    (hsame : ∀ a ∈ n.selects, B.get a.stage = A.get a.stage) : NodeStacked B n := by
  have hfirst := hsame n.first (.head _)
  refine ⟨h.alone, Nat.lt_of_lt_of_le h.bound hlength, ?_, ?_, ?_⟩
  · rw [hfirst]
    exact h.plain
  · rw [hfirst]
    exact h.bottom
  · exact h.stacked.congr hlength fun a ha => hsame a (.tail _ ha)

end NodeStacked

/-- A node whose stages are stacked, among stages that find all columns that they read. -/
structure Held (s : State) (node : NodeId) (n : Node) : Prop where
  node : s.nodes[node]? = some n
  stacked : NodeStacked s.stages n
  layered : Layered s.stages

/-- The open stage exposes no columns yet, except under DISTINCT. -/
def Unpulled (s : State) (n : Node) : Prop :=
  (s.stages.get n.last.stage).pulled ≠ [] → (s.stages.get n.last.stage).distinct = true

theorem Held.openStage_eq {c : Context} {s t : State} {node : NodeId} {n : Node} {last : AliasedStage} (h : Held s node n)
    (hopen : Gives (openStage node) c s last t) : last = n.last ∧ t = s := by
  have hopen := gives_openStage.mp hopen
  rwa [h.node, Option.getD_some] at hopen

theorem Held.gives_openStage_bind {α : Type} {c : Context} {s t : State} {node : NodeId} {n : Node}
    {f : AliasedStage → CompileM α} {a : α} (h : Held s node n) :
    Gives (openStage node >>= f) c s a t ↔ Gives (f n.last) c s a t := by
  have hlast : ((s.nodes[node]?).getD { first := ⟨"", 0⟩ }).last = n.last := by
    rw [h.node, Option.getD_some]
  rw [← hlast]
  exact .rfl

/-! ## Rows that stay the same -/

section Rows

variable {ρ V : Type} [DecidableEq ρ] {I : Meaning ρ V} {table : List ρ}

theorem select_wider {s t : Stage} (h : Wider s t) (rows : List ρ) : I.select t rows = I.select s rows := by
  rw [h.rest]
  rfl

/-- Over whole rows it does not count which columns are pulled. -/
theorem rows_pulledIn {ids : List Nat} {A B : Stages} (h : PulledIn ids A B) (hlayered : Layered A)
    {id : Nat} (hid : id < A.length) : B.rows I table whole id = A.rows I table whole id := by
  refine rowsTo_congr hid (by rw [h.length]; exact hid) (fun j hj => below_of_layered hlayered (by omega))
    (fun j _ => (h.wider j).from_eq) fun j _ rows => ?_
  exact select_wider (h.wider j) rows

theorem rows_append {A : Stages} (hlayered : Layered A) (s : Stage) {id : Nat} (hid : id < A.length) :
    Stages.rows I table whole (A ++ [s]) id = A.rows I table whole id := by
  have hsame (j : Nat) (hj : j ≤ id) : Stages.get (A ++ [s]) j = A.get j := by
    rw [Stages.get_append, if_neg (by omega)]
  refine rowsTo_congr hid (by simp; omega) (fun j hj => below_of_layered hlayered (by omega))
    (fun j hj => ?_) fun j hj rows => ?_
  · rw [hsame j hj]
  · rw [hsame j hj]

theorem rows_modify {A : Stages} (hlayered : Layered A) {last id : Nat} (hid : id < last)
    (hbound : last < A.length) (f : Stage → Stage) :
    Stages.rows I table whole (A.modify last f) id = A.rows I table whole id := by
  have hsame (j : Nat) (hj : j ≤ id) : Stages.get (A.modify last f) j = A.get j := by
    rw [Stages.get_modify, if_neg (by omega)]
  refine rowsTo_congr (by omega) (by simp; omega) (fun j hj => below_of_layered hlayered (by omega))
    (fun j hj => ?_) fun j hj rows => ?_
  · rw [hsame j hj]
  · rw [hsame j hj]

/-- A stage without clauses passes its source on. -/
theorem select_ofSource (source : Source) (name : String) (rows : List ρ) :
    I.select (.ofSource source name) rows = rows := by
  rw [I.select_whole rfl]
  rfl

end Rows

/-! ## Wrapping -/

/-- What wrapping a node leaves behind. -/
structure Wrapped (s t : State) (node : NodeId) (n n' : Node) : Prop where
  held : Held t node n'
  below : belowLast n' = n.selects
  last : n'.last.stage = s.stages.length
  stages : t.stages = s.stages ++ [.ofSource (.stage n.last.stage) n.last.name]
  bindings : t.bindings = s.bindings
  lifted : t.lifted = s.lifted

theorem Wrapped.fresh {s t : State} {node : NodeId} {n n' : Node} (h : Wrapped s t node n n') :
    t.stages.get n'.last.stage = .ofSource (.stage n.last.stage) n.last.name := by
  rw [h.stages, h.last, Stages.get_append, if_pos rfl]

/-- A new last stage changes nothing for the stages before it. -/
theorem Layered.append {stages : Stages} {s : Stage} (h : Layered stages)
    (hs : Layer stages stages.length s) : Layered (stages ++ [s]) := by
  have hshows {source : Nat} {names : List String} (hlt : source < stages.length)
      (h : Shows stages source names) : Shows (stages ++ [s]) source names := by
    unfold Shows
    rw [Stages.get_append, if_neg (by omega)]
    exact h
  intro id hid
  rw [Stages.get_append]
  by_cases hnew : id = stages.length
  · obtain ⟨hgroup, hplain, hlayer⟩ := hs
    rw [if_pos hnew, hnew]
    refine ⟨hgroup, hplain, ?_⟩
    rcases hlayer with htable | ⟨source, hlt, hover, hreads⟩
    · exact .inl htable
    · exact .inr ⟨source, hlt, hover, hshows hlt hreads⟩
  · have hid' : id < stages.length := by simp at hid; omega
    obtain ⟨hgroup, hplain, hlayer⟩ := h id hid'
    rw [if_neg hnew]
    refine ⟨hgroup, hplain, ?_⟩
    rcases hlayer with htable | ⟨source, hlt, hover, hreads⟩
    · exact .inl htable
    · exact .inr ⟨source, hlt, hover, hshows (by omega) hreads⟩

theorem layer_ofTable (stages : Stages) (text name : String) :
    Layer stages stages.length (.ofSource (.table text) name) :=
  ⟨rfl, ⟨name, plain_of_pulled rfl⟩, .inl ⟨text, name, rfl⟩⟩

theorem layer_ofStage {stages : Stages} {source : Nat} (hsource : source < stages.length) (name : String) :
    Layer stages stages.length (.ofSource (.stage source) name) :=
  ⟨rfl, ⟨name, plain_of_pulled rfl⟩, .inr ⟨source, hsource, ⟨name, rfl⟩, fun _ r hr => by cases hr⟩⟩

theorem gives_wrap {c : Context} {s t : State} {node : NodeId} {n : Node} {label : String} {id : StageId}
    (h : Held s node n) (hrun : Gives (wrap node label) c s id t) :
    id = s.stages.length ∧ ∃ n', Wrapped s t node n n' := by
  rw [wrap, h.gives_openStage_bind] at hrun
  simp only [gives_bind, gives_pushStage, gives_modifyNode, gives_pure] at hrun
  obtain ⟨_, _, ⟨rfl, rfl⟩, _, _, ⟨-, rfl⟩, rfl, rfl⟩ := hrun
  refine ⟨rfl, { n with wrappers := n.wrappers ++ [⟨label, s.stages.length⟩] }, ?_⟩
  have hbound := h.stacked.bound_last
  have hnew : Stages.get (s.stages ++ [.ofSource (.stage n.last.stage) n.last.name]) s.stages.length =
      .ofSource (.stage n.last.stage) n.last.name := by
    rw [Stages.get_append, if_pos rfl]
  have hselects : ∀ a ∈ n.selects, a.stage < s.stages.length := by
    intro a ha
    rw [selects_eq] at ha
    rcases List.mem_append.mp ha with ha | ha
    · exact Nat.lt_trans (h.stacked.below_lt a ha) hbound
    · rw [List.mem_singleton.mp ha]
      exact hbound
  have hstacked : NodeStacked (s.stages ++ [.ofSource (.stage n.last.stage) n.last.name]) n :=
    h.stacked.congr (by simp) fun a ha => by
      have := hselects a ha
      rw [Stages.get_append, if_neg (Nat.ne_of_lt this)]
  let wrapper : AliasedStage := ⟨label, s.stages.length⟩
  have hlast : (n.wrappers ++ [wrapper]).getLast? = some wrapper := List.getLast?_concat ..
  refine ⟨⟨?_, ⟨hstacked.alone, hstacked.bound, hstacked.plain, hstacked.bottom, ?_⟩,
    h.layered.append (layer_ofStage hbound _)⟩, ?_, ?_, rfl, rfl, rfl⟩
  · rw [List.getElem?_modify, h.node]
    simp
  · refine hstacked.stacked.append (rfl : n.wrappers.getLast?.getD n.first = n.last) ?_ ?_ hbound (by simp)
    · rw [hnew]
      rfl
    · rw [hnew]
      exact plain_of_pulled rfl
  · rw [belowLast, Node.selects, Node.selects, ← List.cons_append, List.dropLast_concat]
  · rw [Node.last, hlast]
    rfl

section Rows

variable {ρ V : Type} [DecidableEq ρ] {I : Meaning ρ V} {table : List ρ}

/-- Wrapping does not change the rows of a node. -/
theorem Wrapped.rows {s t : State} {node : NodeId} {n n' : Node} (h : Wrapped s t node n n')
    (hs : Held s node n) :
    t.stages.rows I table whole n'.last.stage = s.stages.rows I table whole n.last.stage := by
  rw [rows_eq h.held.layered h.held.stacked.bound_last, h.fresh]
  refine (select_ofSource ..).trans ?_
  show t.stages.rows I table whole n.last.stage = _
  rw [h.stages]
  exact rows_append hs.layered _ hs.stacked.bound_last

end Rows

/-- What opening a node for a clause leaves behind. -/
structure Opened (s t : State) (node : NodeId) (n n' : Node) : Prop where
  held : Held t node n'
  unpulled : Unpulled t n'
  bindings : t.bindings = s.bindings
  lifted : t.lifted = s.lifted
  rows {ρ V : Type} [DecidableEq ρ] (I : Meaning ρ V) (table : List ρ) :
    t.stages.rows I table whole n'.last.stage = s.stages.rows I table whole n.last.stage

theorem Wrapped.opened {s t : State} {node : NodeId} {n n' : Node} (h : Wrapped s t node n n')
    (hs : Held s node n) : Opened s t node n n' where
  held := h.held
  unpulled hp := by
    rw [h.fresh] at hp
    exact (hp rfl).elim
  bindings := h.bindings
  lifted := h.lifted
  rows _ _ := h.rows hs

/-- A new stage can take any clause. -/
theorem compatible_ofSource (clause : Clause) (source : Source) (name : String) :
    clause.compatible (.ofSource source name) = true := by
  cases clause <;> rfl

theorem gives_openFor {c : Context} {s t : State} {clause : Clause} {node : NodeId} {n : Node}
    {label : String} {id : StageId} (h : Held s node n) (hopen : Unpulled s n)
    (hrun : Gives (openFor clause node label) c s id t) :
    ∃ n', id = n'.last.stage ∧ Opened s t node n n' ∧ clause.compatible (t.stages.get n'.last.stage) = true := by
  rw [openFor, h.gives_openStage_bind, gives_getStage_bind] at hrun
  split at hrun
  · rename_i hc
    obtain ⟨rfl, rfl⟩ := gives_pure.mp hrun
    exact ⟨n, rfl, ⟨h, hopen, rfl, rfl, fun _ _ => rfl⟩, hc⟩
  · obtain ⟨rfl, n', hwrapped⟩ := gives_wrap h hrun
    refine ⟨n', hwrapped.last.symm, hwrapped.opened h, ?_⟩
    rw [hwrapped.fresh]
    exact compatible_ofSource ..

/-! ## Attaching -/

/-- The open stage may be changed so: it keeps its source, and refers to columns that it referred to
    before, or that the stage below shows. -/
structure Attaches (stages : Stages) (n : Node) (s s' : Stage) : Prop where
  from_eq : s'.from_ = s.from_
  ungrouped : s'.groupBy = s.groupBy
  projection : s'.projection = none → s.projection = none
  pulled : s.pulled ⊆ s'.pulled
  plain : Plain (sourceName n) s'
  unpulled : s'.pulled ≠ [] → s'.distinct = true
  reads : ∀ r ∈ s'.reads, r ∈ s.reads ∨
    (s.projection = none ∧ ∀ a ∈ (belowLast n).getLast?, Shows stages a.stage [r])

/-- A clause that exposes no columns. -/
theorem Held.attaches {s : State} {node : NodeId} {n : Node} {st : Stage} (h : Held s node n)
    (hopen : Unpulled s n) (hfrom : st.from_ = (s.stages.get n.last.stage).from_)
    (hgroup : st.groupBy = (s.stages.get n.last.stage).groupBy)
    (hprojection : st.projection = none → (s.stages.get n.last.stage).projection = none)
    (hpulled : st.pulled = (s.stages.get n.last.stage).pulled)
    (hdistinct : (s.stages.get n.last.stage).distinct = true → st.distinct = true)
    (hreads : ∀ r ∈ st.reads, r ∈ (s.stages.get n.last.stage).reads ∨
      ((s.stages.get n.last.stage).projection = none ∧
        ∀ a ∈ (belowLast n).getLast?, Shows s.stages a.stage [r])) :
    Attaches s.stages n (s.stages.get n.last.stage) st where
  from_eq := hfrom
  ungrouped := hgroup
  projection := hprojection
  pulled := by
    rw [hpulled]
    exact List.Subset.refl _
  plain := by
    unfold Plain
    rw [hpulled]
    exact h.stacked.plain_last
  unpulled hp := hdistinct (hopen (hpulled ▸ hp))
  reads := hreads

/-- A new stage may refer to what the stage shows around which it was put. -/
theorem Wrapped.attaches {s t : State} {node : NodeId} {n n' : Node} {st : Stage}
    (h : Wrapped s t node n n') (hs : Held s node n)
    (hfrom : st.from_ = (Stage.ofSource (.stage n.last.stage) n.last.name).from_)
    (hgroup : st.groupBy = none) (hplain : Plain n.last.name st)
    (hunpulled : st.pulled ≠ [] → st.distinct = true)
    (hreads : ∀ r ∈ st.reads, Shows s.stages n.last.stage [r]) :
    Attaches t.stages n' (t.stages.get n'.last.stage) st := by
  have hlast : (belowLast n').getLast? = some n.last := by
    rw [h.below, selects_eq]
    exact List.getLast?_concat ..
  have hsame : t.stages.get n.last.stage = s.stages.get n.last.stage := by
    have := hs.stacked.bound_last
    rw [h.stages, Stages.get_append, if_neg (Nat.ne_of_lt this)]
  rw [h.fresh]
  refine ⟨hfrom, hgroup, fun _ => rfl, fun p hp => (by cases hp), ?_, hunpulled, fun r hr => .inr ⟨rfl, ?_⟩⟩
  · rw [sourceName, hlast]
    exact hplain
  · intro a ha
    rw [hlast, Option.mem_some_iff] at ha
    subst ha
    unfold Shows
    rw [hsame]
    exact hreads r hr

section Attach

variable {s : State} {node : NodeId} {n : Node} {f : Stage → Stage}

/-- The state with the open stage changed. -/
def attaching (s : State) (n : Node) (f : Stage → Stage) : State :=
  { s with stages := s.stages.modify n.last.stage f }

theorem get_attaching (h : Held s node n) (j : Nat) :
    (attaching s n f).stages.get j =
      if j = n.last.stage then f (s.stages.get n.last.stage) else s.stages.get j := by
  have hbound := h.stacked.bound_last
  show Stages.get (s.stages.modify n.last.stage f) j = _
  rw [Stages.get_modify]
  by_cases hj : j = n.last.stage
  · rw [if_pos ⟨hj, hbound⟩, if_pos hj]
  · rw [if_neg fun hj' => hj hj'.1, if_neg hj]

theorem shows_attaching (h : Held s node n) (hf : Attaches s.stages n (s.stages.get n.last.stage)
    (f (s.stages.get n.last.stage))) {id : Nat} {names : List String}
    (hshows : Shows s.stages id names) : Shows (attaching s n f).stages id names := by
  intro hp name hname
  rw [get_attaching h] at hp ⊢
  by_cases hid : id = n.last.stage
  · rw [if_pos hid] at hp ⊢
    subst hid
    exact List.map_subset _ hf.pulled (hshows (hf.projection hp) name hname)
  · rw [if_neg hid] at hp ⊢
    exact hshows hp name hname

theorem layered_attaching (h : Held s node n) (hf : Attaches s.stages n (s.stages.get n.last.stage)
    (f (s.stages.get n.last.stage))) : Layered (attaching s n f).stages := by
  intro id hid
  have hid' : id < s.stages.length := by
    simpa [attaching] using hid
  obtain ⟨hgroup, hplain, hlayer⟩ := h.layered id hid'
  rw [get_attaching h]
  by_cases hlast : id = n.last.stage
  · subst hlast
    rw [if_pos rfl]
    refine ⟨hf.ungrouped.trans hgroup, ⟨_, hf.plain⟩, ?_⟩
    unfold OverTable Over
    rw [hf.from_eq]
    rcases hlayer with htable | ⟨source, hlt, hover, hshows⟩
    · exact .inl htable
    · refine .inr ⟨source, hlt, hover, shows_attaching h hf fun hp r hr => ?_⟩
      rcases hf.reads r hr with hr | ⟨hnone, hshown⟩
      · exact hshows hp r hr
      · obtain ⟨a, ha, rfl⟩ := h.stacked.source_last hnone hover
        exact hshown a ha hp r (.head _)
  · rw [if_neg hlast]
    refine ⟨hgroup, hplain, hlayer.imp_right fun ⟨source, hlt, hover, hshows⟩ => ?_⟩
    exact ⟨source, hlt, hover, shows_attaching h hf hshows⟩

theorem stacked_attaching (h : Held s node n) (hf : Attaches s.stages n (s.stages.get n.last.stage)
    (f (s.stages.get n.last.stage))) : NodeStacked (attaching s n f).stages n := by
  have hlength : s.stages.length = (attaching s n f).stages.length := by simp [attaching]
  have hsame (a : AliasedStage) (ha : a ∈ belowLast n) :
      (attaching s n f).stages.get a.stage = s.stages.get a.stage := by
    rw [get_attaching h, if_neg (Nat.ne_of_lt (h.stacked.below_lt a ha))]
  have hlast : (attaching s n f).stages.get n.last.stage = f (s.stages.get n.last.stage) := by
    rw [get_attaching h, if_pos rfl]
  rcases node_cases n with ⟨hw, hopen, hbelow⟩ | ⟨outers, last, hw, hopen, hbelow⟩
  · rw [hopen] at hlast
    have hplain := hf.plain
    rw [sourceName, hbelow, hopen] at hplain
    have hfrom := hf.from_eq
    have hprojection := hf.projection
    rw [hopen] at hfrom hprojection
    refine ⟨h.stacked.alone, hlength ▸ h.stacked.bound, ?_, ?_, ?_⟩
    · rw [hlast]
      exact hplain
    · rw [hlast]
      unfold OverTable
      rw [hfrom]
      refine h.stacked.bottom.imp_right fun hsome => ?_
      by_contra hnone
      rw [hprojection (by simpa using hnone)] at hsome
      cases hsome
    · rw [hw]
      trivial
  · have hfirst := hsame n.first (by rw [hbelow]; exact .head _)
    have hstacked := h.stacked.stacked
    rw [hw] at hstacked
    obtain ⟨hfrom, hplain, hlt, hbound⟩ := hstacked.last
    refine ⟨h.stacked.alone, hlength ▸ h.stacked.bound, ?_, ?_, ?_⟩
    · rw [hfirst]
      exact h.stacked.plain
    · rw [hfirst]
      exact h.stacked.bottom
    · rw [hopen] at hlast
      rw [hw]
      refine Stacked.append ?_ (rfl : outers.getLast?.getD n.first = topOf n.first outers) ?_ ?_ hlt
        (hlength ▸ hbound)
      · refine hstacked.init.congr (Nat.le_of_eq hlength) fun a ha => hsame a ?_
        rw [hbelow]
        exact .tail _ ha
      · rw [hlast]
        have := hf.from_eq
        rw [hopen, hfrom] at this
        exact this
      · rw [hlast]
        have := hf.plain
        rw [sourceName, hbelow, List.getLast?_cons] at this
        rw [hopen] at this
        exact this

theorem Held.attach (h : Held s node n) (hf : Attaches s.stages n (s.stages.get n.last.stage)
    (f (s.stages.get n.last.stage))) : Held (attaching s n f) node n :=
  ⟨h.node, stacked_attaching h hf, layered_attaching h hf⟩

theorem unpulled_attaching (h : Held s node n) (hf : Attaches s.stages n (s.stages.get n.last.stage)
    (f (s.stages.get n.last.stage))) : Unpulled (attaching s n f) n := by
  unfold Unpulled
  rw [get_attaching h, if_pos rfl]
  exact hf.unpulled

variable {ρ V : Type} [DecidableEq ρ] (I : Meaning ρ V) (table : List ρ)

/-- The open stage selects from the rows from which it selected before. -/
theorem rows_attach (h : Held s node n) (hf : Attaches s.stages n (s.stages.get n.last.stage)
    (f (s.stages.get n.last.stage))) :
    ∃ rows, s.stages.rows I table whole n.last.stage = I.select (s.stages.get n.last.stage) rows ∧
      (attaching s n f).stages.rows I table whole n.last.stage =
        I.select (f (s.stages.get n.last.stage)) rows := by
  have hbound := h.stacked.bound_last
  have hlength : s.stages.length = (attaching s n f).stages.length := by simp [attaching]
  refine ⟨_, rows_eq h.layered hbound, ?_⟩
  refine (rows_eq (h.attach hf).layered (hlength ▸ hbound)).trans ?_
  rw [get_attaching h, if_pos rfl]
  show I.select (f (s.stages.get n.last.stage)) _ = _
  rw [hf.from_eq]
  congr 1
  rcases below_of_layered h.layered hbound with htable | ⟨source, hlt, hover⟩
  · rw [sourceRows_table htable, sourceRows_table htable]
  · rw [sourceRows_over hover, sourceRows_over hover]
    exact rows_modify h.layered hlt hbound f

end Attach

/-! ## Scalar steps in between -/

/-- Pulling columns changes no rows. -/
theorem rows_later {ρ V : Type} [DecidableEq ρ] {I : Meaning ρ V} {table : List ρ} {s t : State}
    {ids : List Nat} {node : NodeId} {n : Node} (h : Held s node n) (hl : Later ids s t) :
    t.stages.rows I table whole n.last.stage = s.stages.rows I table whole n.last.stage :=
  rows_pulledIn hl.stages h.layered h.stacked.bound_last

/-- Scalar steps in the scope of the open stage leave it as it is. -/
theorem get_later {s t : State} {node : NodeId} {n : Node} (h : Held s node n)
    (hl : Later ((belowLast n).map (·.stage)) s t) :
    t.stages.get n.last.stage = s.stages.get n.last.stage := by
  refine hl.stages.same _ fun hmem => ?_
  obtain ⟨a, ha, hstage⟩ := List.mem_map.mp hmem
  have := h.stacked.below_lt a ha
  rw [hstage] at this
  exact Nat.lt_irrefl _ this

end TreeSql.Compile
