import TreeSql.Proofs.Compile.Arena
import TreeSql.Proofs.Compile.Direct

/-
  TreeSql.Proofs.Compile.Pulling — columns pulled through a stack of stages.

  The stages of a node without joins are stacked (`Stacked`): each selects from the one before. A
  column is pulled through those that are not in scope and keeps its name everywhere (`Plain`), so
  that pulling changes nothing but which columns the stages expose (`Later`), and every stage still
  finds the columns that it reads in its source (`Layered`).

  `pullWorld` says this as a world for scalar expressions; in `closedWorld` there are no columns.
-/
namespace TreeSql

open Sql

namespace Compile

/-! ## Columns that keep their names -/

/-- All pulled columns come from one source and keep their names. -/
def Plain (source : String) (s : Stage) : Prop :=
  ∀ p ∈ s.pulled, p.source = source ∧ p.name = p.column

theorem plain_of_pulled {source : String} {s : Stage} (h : s.pulled = []) : Plain source s := by
  rw [Plain, h]
  exact List.forall_mem_nil _

theorem exposedName?_plain {source : String} {s : Stage} (h : Plain source s) (name : String) :
    s.exposedName? source name = if name ∈ s.pulled.map (·.name) then some name else none := by
  unfold Stage.exposedName?
  cases hfind : s.pulled.find? fun p => p.source == source && p.column == name with
  | none =>
    rw [if_neg]
    · rfl
    · intro hmem
      obtain ⟨p, hp, rfl⟩ := List.mem_map.mp hmem
      have := List.find?_eq_none.mp hfind p hp
      simp [h p hp] at this
  | some p =>
    have hp := List.mem_of_find?_eq_some hfind
    have hname : p.column = name := by
      have := List.find?_some hfind
      simp at this
      exact this.2
    rw [if_pos (List.mem_map.mpr ⟨p, hp, (h p hp).2.trans hname⟩), Option.map_some, (h p hp).2, hname]

theorem plain_expose {source : String} {s : Stage} (h : Plain source s) (names : List String) :
    Plain source (s.expose source names) := by
  induction names generalizing s with
  | nil => exact h
  | cons name names ih =>
    rw [expose_cons]
    refine ih ?_
    rw [expose_single]
    split
    · exact h
    · intro p hp
      rcases List.mem_append.mp hp with hp | hp
      · exact h p hp
      · obtain rfl : p = ⟨source, name, name⟩ := by simpa using hp
        exact ⟨rfl, rfl⟩

/-- A column of the only source is pulled under its own name. -/
theorem pull_plain {source : String} {s : Stage} (h : Plain source s) (name : String) (k : Nat) :
    s.pull source name k = (name, s.expose source [name], k) := by
  have hexposed := exposedName?_plain h name
  rw [Stage.pull, expose_single, hexposed]
  by_cases hname : name ∈ s.pulled.map (·.name)
  · simp only [if_pos hname, Option.isSome_some, if_true]
  · simp only [if_neg hname]
    have hfresh (fuel : Nat) :
        Stage.freshName (s.pulled.map (·.name)) name fuel name k = (name, k) := by
      cases fuel with
      | zero => rfl
      | succ fuel => rw [Stage.freshName, if_neg (by simpa using hname)]
    rw [hfresh]
    rfl

theorem mem_expose {source : String} {s : Stage} (h : Plain source s) {name : String}
    {names : List String} (hname : name ∈ names) :
    name ∈ (s.expose source names).pulled.map (·.name) := by
  induction names generalizing s with
  | nil => cases hname
  | cons first names ih =>
    rw [expose_cons]
    rcases List.mem_cons.mp hname with rfl | hname
    · have hfirst : name ∈ (s.expose source [name]).pulled.map (·.name) := by
        rw [expose_single, exposedName?_plain h]
        by_cases hmem : name ∈ s.pulled.map (·.name)
        · simp [hmem]
        · simp [hmem]
      exact List.map_subset _ (wider_expose _ source names).pulled hfirst
    · exact ih (plain_expose h [first]) hname

/-! ## Stages on stages -/

/-- The stage selects from a table. -/
def OverTable (s : Stage) : Prop :=
  ∃ text name, s.from_ = some (.item { source := .table text, name })

/-- The stage selects from another stage. -/
def Over (source : Nat) (s : Stage) : Prop :=
  ∃ name, s.from_ = some (.item { source := .stage source, name })

/-- A stage exposes the columns, unless it has a select list of its own. -/
def Shows (stages : Stages) (id : Nat) (names : List String) : Prop :=
  (stages.get id).projection = none → ∀ name ∈ names, name ∈ (stages.get id).pulled.map (·.name)

/-- A stage over a table, or over an earlier stage that exposes all columns that are read. -/
structure Layer (stages : Stages) (id : Nat) (s : Stage) : Prop where
  ungrouped : s.groupBy = none
  plain : ∃ source, Plain source s
  source : OverTable s ∨ ∃ source < id, Over source s ∧ Shows stages source s.reads

/-- All stages are layers. -/
def Layered (stages : Stages) : Prop := ∀ id < stages.length, Layer stages id (stages.get id)

/-- Each stage is put around the one before. -/
def Stacked (stages : Stages) : AliasedStage → List AliasedStage → Prop
  | _, [] => True
  | inner, outer :: rest =>
    ((stages.get outer.stage).from_ = some (.item { source := .stage inner.stage, name := inner.name }) ∧
      Plain inner.name (stages.get outer.stage) ∧
      inner.stage < outer.stage ∧ outer.stage < stages.length) ∧
    Stacked stages outer rest

/-- The stages of a node are stacked. The first has a table below it, or a select list. -/
structure NodeStacked (stages : Stages) (n : Node) : Prop where
  alone : n.joinParent = none
  bound : n.first.stage < stages.length
  plain : Plain n.first.name (stages.get n.first.stage)
  bottom : OverTable (stages.get n.first.stage) ∨ (stages.get n.first.stage).projection.isSome
  stacked : Stacked stages n.first n.wrappers

theorem Stacked.lt {stages : Stages} {inner : AliasedStage} {outers : List AliasedStage}
    (h : Stacked stages inner outers) : ∀ a ∈ outers, inner.stage < a.stage := by
  induction outers generalizing inner with
  | nil =>
    intro a ha
    cases ha
  | cons outer outers ih =>
    obtain ⟨⟨_, _, hlt, _⟩, hrest⟩ := h
    intro a ha
    rcases List.mem_cons.mp ha with rfl | ha
    · exact hlt
    · exact Nat.lt_trans hlt (ih hrest a ha)

/-- Only the outer stages themselves count. -/
theorem Stacked.congr {A B : Stages} {inner : AliasedStage} {outers : List AliasedStage}
    (h : Stacked A inner outers) (hlength : A.length ≤ B.length)
    (hsame : ∀ a ∈ outers, B.get a.stage = A.get a.stage) : Stacked B inner outers := by
  induction outers generalizing inner with
  | nil => trivial
  | cons outer outers ih =>
    obtain ⟨⟨hfrom, hplain, hlt, hbound⟩, hrest⟩ := h
    rw [← hsame outer (.head _)] at hfrom hplain
    exact ⟨⟨hfrom, hplain, hlt, Nat.lt_of_lt_of_le hbound hlength⟩,
      ih hrest fun a ha => hsame a (.tail _ ha)⟩

theorem Stacked.append {stages : Stages} {inner last : AliasedStage} {outers : List AliasedStage}
    (h : Stacked stages inner outers) {outer : AliasedStage}
    (hlast : outers.getLast?.getD inner = last)
    (hfrom : (stages.get outer.stage).from_ =
      some (.item { source := .stage last.stage, name := last.name }))
    (hplain : Plain last.name (stages.get outer.stage)) (hlt : last.stage < outer.stage)
    (hbound : outer.stage < stages.length) : Stacked stages inner (outers ++ [outer]) := by
  induction outers generalizing inner with
  | nil =>
    obtain rfl : inner = last := hlast
    exact ⟨⟨hfrom, hplain, hlt, hbound⟩, trivial⟩
  | cons a outers ih =>
    obtain ⟨ha, hrest⟩ := h
    refine ⟨ha, ih hrest ?_⟩
    rw [← hlast, List.getLast?_cons]
    rfl

/-! ## Later states -/

/-- Some stages expose more columns than before. -/
structure PulledIn (ids : List Nat) (A B : Stages) : Prop where
  length : B.length = A.length
  wider : ∀ id, Wider (A.get id) (B.get id)
  same : ∀ id, id ∉ ids → B.get id = A.get id

/-- Columns were pulled through some stages, and constants lifted. -/
structure Later (ids : List Nat) (s t : State) : Prop where
  nodes : t.nodes = s.nodes
  bindings : t.bindings = s.bindings
  lifted : s.lifted <+: t.lifted
  stages : PulledIn ids s.stages t.stages

theorem PulledIn.refl (ids : List Nat) (A : Stages) : PulledIn ids A A :=
  ⟨rfl, fun _ => .refl _, fun _ _ => rfl⟩

theorem PulledIn.trans {ids : List Nat} {A B C : Stages} (h : PulledIn ids A B)
    (h' : PulledIn ids B C) : PulledIn ids A C where
  length := h'.length.trans h.length
  wider id := (h.wider id).trans (h'.wider id)
  same id hid := (h'.same id hid).trans (h.same id hid)

theorem PulledIn.mono {ids ids' : List Nat} {A B : Stages} (h : PulledIn ids A B) (hsub : ids ⊆ ids') :
    PulledIn ids' A B where
  length := h.length
  wider := h.wider
  same id hid := h.same id fun hmem => hid (hsub hmem)

theorem Later.refl (ids : List Nat) (s : State) : Later ids s s :=
  ⟨rfl, rfl, List.prefix_refl _, .refl ids _⟩

theorem Later.trans {ids : List Nat} {s t u : State} (h : Later ids s t) (h' : Later ids t u) :
    Later ids s u where
  nodes := h'.nodes.trans h.nodes
  bindings := h'.bindings.trans h.bindings
  lifted := h.lifted.trans h'.lifted
  stages := h.stages.trans h'.stages

theorem Later.lift (ids : List Nat) (s : State) (v : Value) :
    Later ids s { s with lifted := s.lifted ++ [v] } :=
  ⟨rfl, rfl, List.prefix_append _ _, .refl ids _⟩

theorem PulledIn.shows {ids : List Nat} {A B : Stages} (h : PulledIn ids A B) {id : Nat}
    {names : List String} (hshows : Shows A id names) : Shows B id names := by
  intro hp name hname
  have hwider := h.wider id
  exact List.map_subset _ hwider.pulled (hshows (hwider.projection ▸ hp) name hname)

/-! ## One column through one stage -/

/-- The state in which a stage exposes one more column. -/
def exposing (s : State) (id : StageId) (source name : String) : State :=
  { s with stages := s.stages.set id ((s.stages.get id).expose source [name]) }

theorem gives_pullThrough {c : Context} {s t : State} {source name : String} {a : AliasedStage}
    {path : ColumnPath} (hplain : Plain source (s.stages.get a.stage)) :
    Gives (pullThrough ⟨source, name⟩ a) c s path t ↔
      path = ⟨a.name, name⟩ ∧ t = exposing s a.stage source name := by
  unfold pullThrough
  simp only [gives_bind, gives_pullColumn, gives_pure, pull_plain hplain]
  constructor
  · rintro ⟨_, _, ⟨rfl, rfl⟩, rfl, rfl⟩
    exact ⟨rfl, rfl⟩
  · rintro ⟨rfl, rfl⟩
    exact ⟨_, _, ⟨rfl, rfl⟩, rfl, rfl⟩

theorem pulledIn_expose (stages : Stages) (id : Nat) (source name : String) :
    PulledIn [id] stages (stages.set id ((stages.get id).expose source [name])) where
  length := List.length_set
  wider j := by
    rw [Stages.get_set]
    split
    · rename_i h
      rw [h.1]
      exact wider_expose _ _ _
    · exact .refl _
  same j hj := by
    rw [Stages.get_set, if_neg fun h => hj (by simp [h.1])]

/-- A stage reads no more columns than before and the new one. -/
theorem reads_expose {s : Stage} {source name read : String}
    (hread : read ∈ (s.expose source [name]).reads) :
    read ∈ s.reads ∨ (read = name ∧ s.projection = none) := by
  rw [expose_single] at hread
  split at hread
  · exact .inl hread
  · cases hp : s.projection with
    | some columns =>
      refine .inl ?_
      simpa only [Stage.reads, hp, Option.getD_some] using hread
    | none =>
      simp only [Stage.reads, hp, Option.getD_none, Stage.pulledColumns, Stage.listReads, List.map_append,
        List.flatMap_append, ← List.append_assoc] at hread ⊢
      rcases List.mem_append.mp hread with hread | hread
      · exact .inl hread
      · exact .inr ⟨by simpa [SqlExpr.columns] using hread, trivial⟩

/-- A stage may expose a column that its source exposes. -/
theorem Layered.expose {stages : Stages} (h : Layered stages) {id : Nat} {source name : String}
    (hplain : Plain source (stages.get id))
    (hsource : OverTable (stages.get id) ∨ (stages.get id).projection.isSome ∨
      ∃ inner, Over inner (stages.get id) ∧ Shows stages inner [name]) :
    Layered (stages.set id ((stages.get id).expose source [name])) := by
  have hpulled := pulledIn_expose stages id source name
  intro j hj
  rw [hpulled.length] at hj
  obtain ⟨hgroup, hplain', hlayer⟩ := h j hj
  rw [Stages.get_set]
  by_cases hid : j = id ∧ id < stages.length
  · obtain ⟨rfl, hbound⟩ := hid
    rw [if_pos ⟨rfl, hbound⟩]
    have hwider := wider_expose (stages.get j) source [name]
    refine ⟨by rw [hwider.rest]; exact hgroup, ⟨source, plain_expose hplain _⟩, ?_⟩
    unfold OverTable Over
    rw [hwider.from_eq]
    rcases hlayer with hlayer | ⟨inner, hlt, hover, hshows⟩
    · exact .inl hlayer
    · refine .inr ⟨inner, hlt, hover, hpulled.shows fun hp read hread => ?_⟩
      rcases reads_expose hread with hread | ⟨rfl, hnone⟩
      · exact hshows hp read hread
      · obtain ⟨label, hover⟩ := hover
        rcases hsource with ⟨text, label', hfrom⟩ | hsome | ⟨inner', ⟨label', hfrom⟩, hshows'⟩
        · rw [hover] at hfrom
          cases hfrom
        · rw [hnone] at hsome
          cases hsome
        · rw [hover] at hfrom
          cases hfrom
          exact hshows' hp read (.head _)
  · rw [if_neg hid]
    refine ⟨hgroup, hplain', ?_⟩
    rcases hlayer with hlayer | ⟨inner, hlt, hover, hshows⟩
    · exact .inl hlayer
    · exact .inr ⟨inner, hlt, hover, hpulled.shows hshows⟩

/-! ## One column through a stack -/

section Stack

variable {c : Context} {rest : List AliasedStage}

/-- The stages from here on are in scope. -/
def InScope (c : Context) : List AliasedStage → Prop
  | [] => True
  | a :: _ => c.scopes.contains a.stage = true

/-- The last stage of a stack. -/
def topOf (inner : AliasedStage) (outers : List AliasedStage) : AliasedStage :=
  outers.getLast?.getD inner

theorem topOf_cons (inner outer : AliasedStage) (outers : List AliasedStage) :
    topOf inner (outer :: outers) = topOf outer outers := by
  rw [topOf, List.getLast?_cons]
  rfl

/-- What pulling a column through a stack leaves behind. -/
structure PulledThrough (s t : State) (inner : AliasedStage) (outers rest : List AliasedStage)
    (name : String) : Prop where
  later : Later (outers.map (·.stage)) s t
  layered : Layered t.stages
  stacked : Stacked t.stages inner (outers ++ rest)
  shows : Shows t.stages (topOf inner outers).stage [name]

theorem pulledThrough_cons {s t : State} {inner outer : AliasedStage} {outers : List AliasedStage}
    {name : String} (hstacked : Stacked s.stages inner (outer :: outers ++ rest))
    (h : PulledThrough (exposing s outer.stage inner.name name) t outer outers rest name) :
    PulledThrough s t inner (outer :: outers) rest name := by
  have hpulled := pulledIn_expose s.stages outer.stage inner.name name
  obtain ⟨⟨hfrom, hplain, hlt, hbound⟩, hrest⟩ := hstacked
  have hbelow : outer.stage ∉ outers.map (·.stage) := by
    intro hmem
    obtain ⟨a, ha, hastage⟩ := List.mem_map.mp hmem
    have := hrest.lt a (List.mem_append_left _ ha)
    exact Nat.lt_irrefl _ (hastage ▸ this)
  have houter : t.stages.get outer.stage = (s.stages.get outer.stage).expose inner.name [name] := by
    rw [h.later.stages.same outer.stage hbelow, exposing, Stages.get_set, if_pos ⟨rfl, hbound⟩]
  refine ⟨⟨h.later.nodes, h.later.bindings, h.later.lifted, ?_⟩, h.layered, ⟨?_, h.stacked⟩, ?_⟩
  · exact (hpulled.mono (by simp)).trans (h.later.stages.mono (by simp))
  · rw [houter, (wider_expose _ _ _).from_eq]
    refine ⟨hfrom, plain_expose hplain _, hlt, ?_⟩
    rw [h.later.stages.length, exposing, hpulled.length]
    exact hbound
  · rw [topOf_cons]
    exact h.shows

theorem gives_pullToScope (hrest : InScope c rest) {outers : List AliasedStage} {inner : AliasedStage}
    {s t : State} {name : String} {r : ColumnPath × Bool}
    (hclosed : ∀ a ∈ outers, c.scopes.contains a.stage = false) (hlayered : Layered s.stages)
    (hstacked : Stacked s.stages inner (outers ++ rest)) (hshows : Shows s.stages inner.stage [name])
    (hrun : Gives (pullToScope ⟨inner.name, name⟩ (outers ++ rest)) c s r t) :
    r = (⟨(topOf inner outers).name, name⟩, !rest.isEmpty) ∧
      PulledThrough s t inner outers rest name := by
  induction outers generalizing inner s with
  | nil =>
    cases rest with
    | nil =>
      obtain ⟨rfl, rfl⟩ := gives_pure.mp hrun
      exact ⟨rfl, .refl _ _, hlayered, hstacked, hshows⟩
    | cons a l =>
      rw [List.nil_append, pullToScope, gives_read_bind] at hrun
      have ha : c.scopes.contains a.stage = true := hrest
      rw [if_pos ha] at hrun
      obtain ⟨rfl, rfl⟩ := gives_pure.mp hrun
      exact ⟨rfl, .refl _ _, hlayered, hstacked, hshows⟩
  | cons outer outers ih =>
    have hstacked' := hstacked
    obtain ⟨⟨hfrom, hplain, hlt, hbound⟩, hupper⟩ := hstacked
    rw [List.cons_append, pullToScope, gives_read_bind] at hrun
    rw [if_neg (by rw [hclosed outer (.head _)]; simp), gives_bind] at hrun
    obtain ⟨path, u, hpull, hrun⟩ := hrun
    obtain ⟨rfl, rfl⟩ := (gives_pullThrough hplain).mp hpull
    have hpulled := pulledIn_expose s.stages outer.stage inner.name name
    obtain ⟨hr, hthrough⟩ := ih (fun a ha => hclosed a (.tail _ ha))
      (hlayered.expose hplain (.inr (.inr ⟨inner.stage, ⟨_, hfrom⟩, hshows⟩)))
      (hupper.congr (Nat.le_of_eq hpulled.length.symm) fun a ha => hpulled.same a.stage fun hmem => by
        have := hupper.lt a ha
        exact Nat.lt_irrefl _ (List.mem_singleton.mp hmem ▸ this))
      (fun hp n hn => by
        obtain rfl : n = name := by simpa using hn
        rw [exposing, Stages.get_set, if_pos ⟨rfl, hbound⟩]
        exact mem_expose hplain (.head _))
      hrun
    rw [topOf_cons]
    exact ⟨hr, pulledThrough_cons hstacked' hthrough⟩

/-- What pulling a column of a node leaves behind, where some of its stages are not in scope. -/
structure PulledFrom (s t : State) (n : Node) (closed : List AliasedStage) (name : String) : Prop where
  later : Later (closed.map (·.stage)) s t
  stacked : NodeStacked t.stages n
  layered : Layered t.stages
  shows : ∀ a ∈ closed.getLast?, Shows t.stages a.stage [name]

/-- The first stage shows all its columns, being over a table or having a select list. -/
theorem pulledFrom_first {s t : State} {n : Node} {outers : List AliasedStage} {name : String}
    (hstacked : NodeStacked s.stages n) (hsplit : n.wrappers = outers ++ rest)
    (h : PulledThrough (exposing s n.first.stage n.first.name name) t n.first outers rest name) :
    PulledFrom s t n (n.first :: outers) name := by
  have hpulled := pulledIn_expose s.stages n.first.stage n.first.name name
  have hbelow : n.first.stage ∉ outers.map (·.stage) := by
    intro hmem
    obtain ⟨a, ha, hastage⟩ := List.mem_map.mp hmem
    have := hstacked.stacked.lt a (by rw [hsplit]; exact List.mem_append_left _ ha)
    exact Nat.lt_irrefl _ (hastage ▸ this)
  have hfirst : t.stages.get n.first.stage =
      (s.stages.get n.first.stage).expose n.first.name [name] := by
    rw [h.later.stages.same n.first.stage hbelow, exposing, Stages.get_set, if_pos ⟨rfl, hstacked.bound⟩]
  have hwider := wider_expose (s.stages.get n.first.stage) n.first.name [name]
  refine ⟨⟨h.later.nodes, h.later.bindings, h.later.lifted, ?later⟩,
    ⟨hstacked.alone, ?bound, ?plain, ?bottom, ?stacked⟩, h.layered, ?shows⟩
  case later => exact (hpulled.mono (by simp)).trans (h.later.stages.mono (by simp))
  case bound =>
    rw [h.later.stages.length, exposing, hpulled.length]
    exact hstacked.bound
  case plain =>
    rw [hfirst]
    exact plain_expose hstacked.plain _
  case bottom =>
    rw [hfirst, hwider.projection]
    unfold OverTable
    rw [hwider.from_eq]
    exact hstacked.bottom
  case stacked =>
    rw [hsplit]
    exact h.stacked
  case shows =>
    intro a ha
    rw [List.getLast?_cons, Option.mem_some_iff] at ha
    exact ha ▸ h.shows

theorem gives_pullNode {n : Node} {closed : List AliasedStage} {s t : State} {name : String}
    {r : ColumnPath × Bool} (hrest : InScope c rest)
    (hclosed : ∀ a ∈ closed, c.scopes.contains a.stage = false) (hsplit : n.selects = closed ++ rest)
    (hstacked : NodeStacked s.stages n) (hlayered : Layered s.stages)
    (hrun : Gives (pullToScope ⟨n.first.name, name⟩ n.selects) c s r t) :
    r.1.name = name ∧ PulledFrom s t n closed name := by
  rw [hsplit] at hrun
  cases closed with
  | nil =>
    rw [Node.selects, List.nil_append] at hsplit
    rw [← hsplit] at hrun hrest
    rw [List.nil_append, pullToScope, gives_read_bind] at hrun
    have hfirst : c.scopes.contains n.first.stage = true := hrest
    rw [if_pos hfirst] at hrun
    obtain ⟨rfl, rfl⟩ := gives_pure.mp hrun
    exact ⟨rfl, .refl _ _, hstacked, hlayered, fun a ha => by cases ha⟩
  | cons first outers =>
    rw [Node.selects, List.cons_append] at hsplit
    obtain ⟨rfl, htail⟩ := List.cons.inj hsplit
    rw [List.cons_append, pullToScope, gives_read_bind, if_neg (by rw [hclosed n.first (.head _)]; simp),
      gives_bind] at hrun
    obtain ⟨path, u, hpull, hrun⟩ := hrun
    obtain ⟨rfl, rfl⟩ := (gives_pullThrough hstacked.plain).mp hpull
    have hpulled := pulledIn_expose s.stages n.first.stage n.first.name name
    obtain ⟨rfl, hthrough⟩ := gives_pullToScope hrest (fun a ha => hclosed a (.tail _ ha))
      (hlayered.expose hstacked.plain (hstacked.bottom.imp_right .inl))
      (htail ▸ hstacked.stacked.congr (Nat.le_of_eq hpulled.length.symm) fun a ha =>
        hpulled.same a.stage fun hmem => by
          have := hstacked.stacked.lt a ha
          exact Nat.lt_irrefl _ (List.mem_singleton.mp hmem ▸ this))
      (fun hp m hm => by
        obtain rfl : m = name := by simpa using hm
        rw [exposing, Stages.get_set, if_pos ⟨rfl, hstacked.bound⟩]
        exact mem_expose hstacked.plain (.head _))
      hrun
    exact ⟨rfl, pulledFrom_first hstacked htail hthrough⟩

/-- A column of a node is pulled through the stages that are not in scope. -/
theorem gives_boundColumn {x : String} {node : NodeId} {n : Node} {closed : List AliasedStage}
    {s t : State} {type : DataType} {name : String} {e : SqlExpr} (hrest : InScope c rest)
    (hclosed : ∀ a ∈ closed, c.scopes.contains a.stage = false) (hsplit : n.selects = closed ++ rest)
    (hbound : s.bindings.lookup x = some node) (hnode : s.nodes[node]? = some n)
    (hstacked : NodeStacked s.stages n) (hlayered : Layered s.stages)
    (hrun : Gives (boundColumn (.varRef x type) name) c s e t) :
    PulledFrom s t n closed name ∧ ∃ a, e = .columnRef a name := by
  obtain ⟨_, id, n', u, path, howner, hlookup, hget, hpath, rfl⟩ := boundColumn_inv hrun
  cases howner
  obtain rfl := Option.some.inj (hlookup.symm.trans hbound)
  have hget := gives_getNode.mp hget
  rw [hnode, Option.getD_some] at hget
  obtain ⟨rfl, rfl⟩ := hget
  rw [pullFrom, gives_bind] at hpath
  simp only [gives_getNode, hnode, Option.getD_some] at hpath
  obtain ⟨_, _, ⟨rfl, rfl⟩, hpath⟩ := hpath
  obtain ⟨⟨path', found⟩, u, hpull, hlast⟩ := gives_bind.mp hpath
  obtain ⟨rfl, hpulled⟩ := gives_pullNode hrest hclosed hsplit hstacked hlayered hpull
  have hend : path = path' ∧ t = u := by
    cases found with
    | true => exact gives_pure.mp hlast
    | false =>
      rw [hstacked.alone] at hlast
      exact gives_pure.mp hlast
  obtain ⟨rfl, rfl⟩ := hend
  exact ⟨hpulled, path.qualifier, rfl⟩

end Stack

/-! ## Worlds of columns -/

/-- A variable is bound to a node whose stages are stacked. -/
structure PullState (x : String) (node : NodeId) (n : Node) (s : State) : Prop where
  bound : s.bindings.lookup x = some node
  node : s.nodes[node]? = some n
  stacked : NodeStacked s.stages n
  layered : Layered s.stages

/-- The columns of one variable, pulled through the stages of its node that are not in scope. -/
def pullWorld (c : Context) (x : String) (node : NodeId) (n : Node) (closed rest : List AliasedStage)
    (hquery : c.mode = .query) (hrest : InScope c rest)
    (hclosed : ∀ a ∈ closed, c.scopes.contains a.stage = false)
    (hsplit : n.selects = closed ++ rest) : World where
  context := c
  vars := [x]
  Ok := PullState x node n
  Le := Later (closed.map (·.stage))
  Shown s name := ∀ a ∈ closed.getLast?, Shows s.stages a.stage [name]
  query := hquery
  refl := .refl _
  trans := .trans
  lifted h := h.lifted
  shown h hname a ha := h.stages.shows (hname a ha)
  column {s t y type name e} hy hok hrun := by
    obtain rfl : y = x := by simpa using hy
    obtain ⟨hpulled, a, rfl⟩ :=
      gives_boundColumn hrest hclosed hsplit hok.bound hok.node hok.stacked hok.layered hrun
    refine ⟨⟨?_, ?_, hpulled.stacked, hpulled.layered⟩, hpulled.later, hpulled.shows, a, rfl⟩
    · rw [hpulled.later.bindings]
      exact hok.bound
    · rw [hpulled.later.nodes]
      exact hok.node
  lift v hok := ⟨⟨hok.bound, hok.node, hok.stacked, hok.layered⟩, .lift _ _ v⟩

/-- No columns at all. -/
def closedWorld (c : Context) (hquery : c.mode = .query) : World where
  context := c
  vars := []
  Ok _ := True
  Le := Later []
  Shown _ _ := False
  query := hquery
  refl := .refl _
  trans := .trans
  lifted h := h.lifted
  shown _ h := h
  column hx := by cases hx
  lift v _ := ⟨trivial, .lift _ _ v⟩

end Compile

end TreeSql
