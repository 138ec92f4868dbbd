import TreeSql.Proofs.References.Values

/-
  TreeSql.Proofs.References.Built — nodes that are as their faces say.

  `Built` ties a node to the face of the expression that it was compiled from: its open stage can be closed,
  takes the clauses that the face says, and the columns of the face come out of it. Variables bound inside are
  `Reached` through the node. Both stay true of later states, if the open stage is left alone
  (`Built.after`).
-/
namespace TreeSql.Compile

open Sql

variable {schema : Option Schema} {s t u : State}

/-! ## Nodes around nodes -/

/-- From a node outwards to another one, through the stages of the nodes between them. -/
inductive Under (nodes : List Node) (outer : NodeId) : NodeId → List AliasedStage → Prop
  | self : Under nodes outer outer []
  | step {id parent : NodeId} {l : List AliasedStage} : id < nodes.length →
    (nodeAt nodes id).joinParent = some parent → parent < id → Under nodes outer parent l →
    Under nodes outer id ((nodeAt nodes id).selects ++ l)

theorem nodeAt_append {nodes : List Node} (new : List Node) {id : NodeId} (h : id < nodes.length) :
    nodeAt (nodes ++ new) id = nodeAt nodes id := by
  rw [nodeAt, nodeAt, List.getElem?_append_left h]

theorem nodeAt_modify (nodes : List Node) (id : NodeId) (f : Node → Node) (h : id < nodes.length) :
    nodeAt (nodes.modify id f) id = f (nodeAt nodes id) := by
  simp [nodeAt, List.getElem?_eq_getElem h]

theorem nodeAt_modify_ne (nodes : List Node) {id j : NodeId} (f : Node → Node) (h : id ≠ j) :
    nodeAt (nodes.modify id f) j = nodeAt nodes j := by
  simp [nodeAt, h]

namespace Under

variable {nodes : List Node} {outer id : NodeId} {l : List AliasedStage}

theorem track (h : Under nodes outer id l) : Compile.track nodes id = l ++ Compile.track nodes outer := by
  induction h with
  | self => rfl
  | step _ hparent hlt _ ih =>
    rw [Compile.track, hparent]
    simp only [dif_pos hlt]
    rw [ih, List.append_assoc]

theorem le (h : Under nodes outer id l) : outer ≤ id := by
  induction h with
  | self => exact Nat.le_refl _
  | step _ _ hlt _ ih => exact Nat.le_of_lt (Nat.lt_of_le_of_lt ih hlt)

/-- Only the nodes on the way count. -/
theorem congr (h : Under nodes outer id l) {nodes' : List Node} (hlength : nodes.length ≤ nodes'.length)
    (hsame : ∀ j, outer < j → j < nodes.length → nodeAt nodes' j = nodeAt nodes j) :
    Under nodes' outer id l := by
  induction h with
  | self => exact .self
  | @step id parent l hid hparent hlt hrest ih =>
    have hnode := hsame id (Nat.lt_of_le_of_lt hrest.le hlt) hid
    rw [← hnode] at hparent ⊢
    exact .step (Nat.lt_of_lt_of_le hid hlength) hparent hlt ih

/-- The outer node is a side of a join. -/
theorem join (h : Under nodes outer id l) {join : NodeId} (hbound : outer < nodes.length)
    (hjoin : join < outer) : Under (nodes.modify outer fun n => { n with joinParent := some join }) join id
      (l ++ (nodeAt nodes outer).selects) := by
  induction h with
  | self =>
    have hnode := nodeAt_modify nodes outer (fun n => { n with joinParent := some join }) hbound
    have hselects : (nodeAt (nodes.modify outer fun n => { n with joinParent := some join }) outer).selects =
        (nodeAt nodes outer).selects := by rw [hnode]; rfl
    rw [List.nil_append, ← hselects, ← List.append_nil (Node.selects _)]
    exact .step (by simpa using hbound) (by rw [hnode]) hjoin .self
  | @step id parent l hid hparent hlt hrest ih =>
    have hne : outer ≠ id := Nat.ne_of_lt (Nat.lt_of_le_of_lt hrest.le hlt)
    rw [← nodeAt_modify_ne nodes (fun n => { n with joinParent := some join }) hne] at hparent ⊢
    rw [List.append_assoc]
    exact .step (by simpa using hid) hparent hlt ih

end Under

/-! ## Columns from inside a node -/

variable (schema) in
/-- A column comes out of the last stage of a path. -/
def Ascends (s : State) (name : String) (path : List AliasedStage) (last : AliasedStage) : Prop :=
  ∃ a l end_, path = a :: l ∧ topOf a l = last ∧ Starts schema s name a ∧
    Climbs schema s (some name) a l end_ ∧ Carries schema s end_ last

/-- The stages of a path are different ones, and were added from some number on. -/
structure New (floor : Nat) (s : State) (path : List AliasedStage) : Prop where
  bound : ∀ a ∈ path, floor ≤ a.stage ∧ a.stage < s.stages.length
  nodup : (path.map (·.stage)).Nodup

variable (schema) in
/-- A variable is bound to a node inside another one, or to that one itself. Its columns come out through the
    given stages of the latter. -/
def Reached (floor : Nat) (s : State) (node : NodeId) (x : String) (columns : Columns)
    (own : List AliasedStage) (last : AliasedStage) : Prop :=
  ∃ id l, s.bindings.lookup x = some id ∧ id < s.nodes.length ∧ Under s.nodes node id l ∧
    New floor s (l ++ own) ∧ ∀ name, columns.has name = true → Ascends schema s name (l ++ own) last

theorem New.mono {floor : Nat} {path : List AliasedStage} (h : New floor s path)
    (hlength : s.stages.length ≤ t.stages.length) : New floor t path :=
  ⟨fun a ha => ⟨(h.bound a ha).1, Nat.lt_of_lt_of_le (h.bound a ha).2 hlength⟩, h.nodup⟩

/-- Another stage is added to a path. -/
theorem New.concat {floor floor' : Nat} {path : List AliasedStage} (h : New floor s path) {a : AliasedStage}
    (hle : floor' ≤ floor) (hlength : s.stages.length ≤ t.stages.length) (hfloor : floor' ≤ a.stage)
    (hbound : a.stage < t.stages.length) (hne : ∀ b ∈ path, b.stage ≠ a.stage) : New floor' t (path ++ [a]) := by
  refine ⟨fun b hb => ?_, ?_⟩
  · rcases List.mem_append.mp hb with hb | hb
    · exact ⟨Nat.le_trans hle (h.bound b hb).1, Nat.lt_of_lt_of_le (h.bound b hb).2 hlength⟩
    · obtain rfl := List.mem_singleton.mp hb
      exact ⟨hfloor, hbound⟩
  · rw [List.map_append, List.nodup_append]
    refine ⟨h.nodup, by simp, fun x hx y hy => ?_⟩
    obtain ⟨b, hb, rfl⟩ := List.mem_map.mp hx
    obtain rfl : y = a.stage := by simpa using hy
    exact hne b hb

/-- A stage that there was not before is added to a path. -/
theorem New.append {floor : Nat} {path : List AliasedStage} (h : New floor s path) {a : AliasedStage}
    (hfloor : floor ≤ a.stage) (hs : s.stages.length ≤ a.stage) (ht : a.stage < t.stages.length) :
    New floor t (path ++ [a]) :=
  h.concat (Nat.le_refl _) (Nat.le_of_lt (Nat.lt_of_le_of_lt hs ht)) hfloor ht fun b hb =>
    Nat.ne_of_lt (Nat.lt_of_lt_of_le (h.bound b hb).2 hs)

/-- A stage from before a path is added to it. -/
theorem New.enclosed {floor floor' : Nat} {path : List AliasedStage} (h : New floor s path) {a : AliasedStage}
    (hfloor : floor' ≤ a.stage) (hlt : a.stage < floor) (hbound : a.stage < s.stages.length) :
    New floor' s (path ++ [a]) :=
  h.concat (Nat.le_trans hfloor (Nat.le_of_lt hlt)) (Nat.le_refl _) hfloor hbound fun b hb =>
    Nat.ne_of_gt (Nat.lt_of_lt_of_le hlt (h.bound b hb).1)

theorem Ascends.steady {among : StageId → Prop} (h : Steady among s t) {name : String} {path : List AliasedStage}
    {last : AliasedStage} (hascends : Ascends schema s name path last) (hamong : ∀ a ∈ path, among a.stage) :
    Ascends schema t name path last := by
  obtain ⟨a, l, end_, rfl, rfl, hstarts, hclimbs, hcarries⟩ := hascends
  exact ⟨a, l, end_, rfl, rfl, hstarts.steady h (hamong a (.head _)), hclimbs.steady h hstarts.bound hamong,
    hcarries.steady h (climbs_bound hstarts.bound hclimbs) (hamong _ (topOf_mem a l))⟩

/-- A column goes on to a stage around the last one. -/
theorem Ascends.around {name : String} {path : List AliasedStage} {last outer : AliasedStage}
    (h : Ascends schema s name path last) (houter : Around s last outer)
    (hnone : (s.stages.get outer.stage).projection = none) :
    Ascends schema s name (path ++ [outer]) outer := by
  obtain ⟨a, l, end_, rfl, rfl, hstarts, hclimbs, hcarries⟩ := h
  refine ⟨a, l ++ [outer], end_, rfl, topOf_append a l [outer], hstarts,
    hclimbs.append (.plain houter (fun _ => hcarries) .nil), fun _ columns hsome => ?_⟩
  rw [hnone] at hsome
  cases hsome

/-- A column goes on to the stage of a join. -/
theorem Ascends.merge {name : String} {path : List AliasedStage} {last outer : AliasedStage}
    (h : Ascends schema s name path last) (hbound : outer.stage < s.stages.length)
    (hmerges : Merges (s.stages.get outer.stage)) (hstands : StandsFor (s.stages.get outer.stage).items last) :
    Ascends schema s name (path ++ [outer]) outer := by
  obtain ⟨a, l, end_, rfl, rfl, hstarts, hclimbs, hcarries⟩ := h
  refine ⟨a, l ++ [outer], none, rfl, topOf_append a l [outer], hstarts,
    hclimbs.append (.merge hbound hmerges hstands hcarries .nil), fun _ columns hsome => ?_⟩
  rw [hmerges.1] at hsome
  cases hsome

section

variable {floor : Nat} {node : NodeId} {x : String} {columns : Columns} {own : List AliasedStage}
  {last : AliasedStage}

theorem Reached.steady (hreached : Reached schema floor s node x columns own last)
    (h : Steady (fun _ => True) s t) (hlookup : t.bindings.lookup x = s.bindings.lookup x)
    (hlength : s.nodes.length ≤ t.nodes.length)
    (hsame : ∀ j, node < j → j < s.nodes.length → nodeAt t.nodes j = nodeAt s.nodes j) :
    Reached schema floor t node x columns own last := by
  obtain ⟨id, l, hx, hid, hunder, hnew, hascends⟩ := hreached
  exact ⟨id, l, hlookup.trans hx, Nat.lt_of_lt_of_le hid hlength, hunder.congr hlength hsame,
    hnew.mono h.length, fun name hname => (hascends name hname).steady h fun _ _ => trivial⟩

theorem Reached.after {can : StageId → Prop} {taken : String → Prop} (h : After schema can taken s t)
    (hx : taken x) (hreached : Reached schema floor s node x columns own last) :
    Reached schema floor t node x columns own last := by
  obtain ⟨new, hnodes, -⟩ := h.nodes.added
  refine hreached.steady h.steady (h.lookup x hx) (by simp [hnodes]) fun j _ hj => ?_
  rw [hnodes, nodeAt_append new hj]

end

/-! ## Nodes and faces -/

/-- Two stages have the same clauses. -/
structure SameClauses (a b : Stage) : Prop where
  distinct : a.distinct = b.distinct
  projection : a.projection.isSome = b.projection.isSome
  groupBy : a.groupBy.isSome = b.groupBy.isSome
  orderBy : a.orderBy.isSome = b.orderBy.isSome
  skip : a.skip.isSome = b.skip.isSome
  limit : a.limit.isSome = b.limit.isSome

theorem SameClauses.compatible {a b : Stage} (h : SameClauses a b) (c : Clause) :
    c.compatible a = c.compatible b := by
  cases c <;>
    simp only [Clause.compatible, ← Option.not_isSome, h.distinct, h.projection, h.groupBy, h.orderBy, h.skip,
      h.limit]

/-- The open stage, as the face says. It can be closed: its references are visible, and it is not inside
    itself. -/
structure OpenStage (S : Site) (s t : State) (roots : List String) (f : Face) (last : AliasedStage) : Prop where
  clauses : SameClauses f.clauses (t.stages.get last.stage)
  fine : FineStage S.schema (fun id => s.stages.length ≤ id ∧ id ≠ last.stage) t.stages S.env
    (t.stages.get last.stage)
  named : From roots s.aliases t.aliases last.name
  items : ∀ i ∈ (t.stages.get last.stage).items, From roots s.aliases t.aliases i.name
  unlisted : f.listed = false → f.clauses.projection = none
  listed : f.listed = true → ∀ name ∈ f.members, name ∈ (t.stages.get last.stage).outputNames
  source : f.listed = false → f.loose = false → ∀ name ∈ f.members,
    ∃ i, (t.stages.get last.stage).from_ = some (.item i) ∧
      ∀ columns ∈ S.schema, i.source.Exposes columns t.stages name

/-- The stages of a node, as the face says. -/
structure Inside (schema : Option Schema) (floor : Nat) (t : State) (f : Face) (n : Node) : Prop where
  new : New floor t n.selects
  wrapped : f.wrapped = !n.wrappers.isEmpty
  label : label t n.first.stage = n.first.name
  plain : ¬Merges (t.stages.get n.first.stage) → Plain n.first.name (t.stages.get n.first.stage)
  around : ∀ l b, n.wrappers = l ++ [b] → Around t (topOf n.first l) b
  inner : ∀ columns, (t.stages.get n.first.stage).projection = some columns → columns.map (·.name) = f.inner
  below : ∀ l b, n.wrappers = l ++ [b] → ∀ name, f.below.has name = true →
    Starts schema t name n.first ∧ Climbs schema t (some name) n.first l (some name)
  named : (t.stages.get n.first.stage).projection = none →
    ∀ i, (t.stages.get n.first.stage).from_ = some (.item i) → i.name = n.first.name

variable (schema) in
/-- A column comes out of a node under its name. -/
def Offers (t : State) (n : Node) (name : String) : Prop :=
  Starts schema t name n.first ∧ Climbs schema t (some name) n.first n.wrappers (some name) ∧
    Carries schema t (some name) n.last

/-- A node, built since the state `s` under names from the roots, is as the face says. -/
structure Built (S : Site) (s t : State) (roots : List String) (f : Face) (node : NodeId) : Prop where
  after : S.After s t
  added : s.nodes.length ≤ node ∧ node < t.nodes.length
  alone : (nodeAt t.nodes node).joinParent = none
  open_ : OpenStage S s t roots f (nodeAt t.nodes node).last
  inside : Inside S.schema s.stages.length t f (nodeAt t.nodes node)
  columns : ∀ name, f.columns.has name = true → Offers S.schema t (nodeAt t.nodes node) name
  vars : ∀ x columns, (x, columns) ∈ f.sides → From roots s.aliases t.aliases x
  sides : ∀ x columns, (x, columns) ∈ f.sides → Reached S.schema s.stages.length t node x columns
    (nodeAt t.nodes node).selects (nodeAt t.nodes node).last

/-- Nothing is pulled through the open stage, unless it lists what it selects distinct rows from. -/
def Quiet (f : Face) (s : Stage) : Prop :=
  s.pulled = [] ∨ (f.listed = true ∧ f.clauses.projection = none ∧ f.clauses.distinct = true)

theorem last_eq_topOf (n : Node) : n.last = topOf n.first n.wrappers := rfl

theorem last_mem (n : Node) : n.last ∈ n.selects := topOf_mem n.first n.wrappers

section

variable {S : Site} {roots : List String} {f : Face} {node : NodeId}

/-- The one stage of a node without wrappers. -/
theorem Inside.single {schema : Option Schema} {floor : Nat} {a : AliasedStage}
    (hbound : floor ≤ a.stage ∧ a.stage < t.stages.length) (hwrapped : f.wrapped = false)
    (hlabel : Compile.label t a.stage = a.name) (hplain : Plain a.name (t.stages.get a.stage))
    (hinner : ∀ columns, (t.stages.get a.stage).projection = some columns → columns.map (·.name) = f.inner)
    (hnamed : (t.stages.get a.stage).projection = none →
      ∀ i, (t.stages.get a.stage).from_ = some (.item i) → i.name = a.name) :
    Inside schema floor t f { first := a } where
  new := by
    refine ⟨fun b hb => ?_, by simp [Node.selects]⟩
    obtain rfl := List.mem_singleton.mp hb
    exact hbound
  wrapped := hwrapped
  label := hlabel
  plain _ := hplain
  around l b hl := by simp at hl
  inner := hinner
  below l b hl := by simp at hl
  named := hnamed

theorem Built.bound (h : Built S s t roots f node) {a : AliasedStage}
    (ha : a ∈ (nodeAt t.nodes node).selects) : s.stages.length ≤ a.stage ∧ a.stage < t.stages.length :=
  h.inside.new.bound a ha

theorem Built.track (h : Built S s t roots f node) : track t.nodes node = (nodeAt t.nodes node).selects := by
  rw [Compile.track, h.alone, List.append_nil]

/-! ## Later states -/

theorem Inside.steady {floor : Nat} {n : Node} (h : Inside S.schema floor t f n)
    (hsteady : Steady (fun _ => True) t u) : Inside S.schema floor u f n := by
  have hfirst := (h.new.bound n.first (.head _)).2
  have hprojection := hsteady.projection _ trivial hfirst
  constructor
  case new => exact h.new.mono hsteady.length
  case wrapped => exact h.wrapped
  case label => exact (hsteady.label _ trivial hfirst).trans h.label
  case plain =>
    intro hmerges
    have hmerges' := fun hm => hmerges ((hsteady.merges hfirst trivial).mpr hm)
    exact hsteady.plain hfirst trivial (h.plain hmerges') h.label hmerges'
  case around => exact fun l b hl => (h.around l b hl).steady hsteady trivial
  case inner => exact fun columns hcolumns => h.inner columns (hprojection ▸ hcolumns)
  case below =>
    intro l b hl name hname
    obtain ⟨hstarts, hclimbs⟩ := h.below l b hl name hname
    exact ⟨hstarts.steady hsteady trivial, hclimbs.steady hsteady hfirst fun _ _ => trivial⟩
  case named =>
    rw [hprojection, hsteady.from_eq _ trivial hfirst]
    exact h.named

theorem Offers.steady {n : Node} {name : String} (hbound : n.last.stage < t.stages.length)
    (hsteady : Steady (fun _ => True) t u) (h : Offers schema t n name) : Offers schema u n name := by
  obtain ⟨hstarts, hclimbs, hcarries⟩ := h
  exact ⟨hstarts.steady hsteady trivial, hclimbs.steady hsteady hstarts.bound fun _ _ => trivial,
    hcarries.steady hsteady hbound trivial⟩

theorem OpenStage.later {last : AliasedStage} (h : OpenStage S s t roots f last)
    (hbound : last.stage < t.stages.length) {can : StageId → Prop} {taken : String → Prop}
    (hafter : Compile.After S.schema can taken t u) : OpenStage S s u roots f last := by
  have hwider := hafter.wider _ hbound
  have hnames {x : String} (hx : From roots s.aliases t.aliases x) : From roots s.aliases u.aliases x :=
    hx.mono (List.Subset.refl _) (Nat.le_refl _) hafter.aliases
  constructor
  case clauses =>
    obtain ⟨hdistinct, hprojection, hgroupBy, horderBy, hskip, hlimit⟩ := h.clauses
    rw [hwider.rest]
    exact ⟨hdistinct, hprojection, hgroupBy, horderBy, hskip, hlimit⟩
  case fine =>
    refine h.fine.later hafter.grown hwider fun hnone p hp => ?_
    exact (hafter.pulled _ hbound p hp).imp_right fun hp => hp.2.visible (hwider.projection ▸ hnone)
  case named => exact hnames h.named
  case items =>
    rw [wider_items hwider]
    exact fun i hi => hnames (h.items i hi)
  case unlisted => exact h.unlisted
  case listed => exact fun hlisted name hname => hafter.shown _ (h.listed hlisted name hname)
  case source =>
    intro hlisted hloose name hname
    obtain ⟨i, hi, hexposes⟩ := h.source hlisted hloose name hname
    exact ⟨i, hwider.from_eq.trans hi, fun columns hcolumns => hafter.shown.exposes (hexposes columns hcolumns)⟩

/-- A node stays as it is said in states that come later, wherever from. -/
theorem Built.later (h : Built S s t roots f node) {can : StageId → Prop} {taken : String → Prop}
    (hafter : Compile.After S.schema can taken t u) (hall : S.After s u)
    (htaken : ∀ x, From roots s.aliases t.aliases x → taken x) : Built S s u roots f node := by
  obtain ⟨new, hnodes, -⟩ := hafter.nodes.added
  have hnode : nodeAt u.nodes node = nodeAt t.nodes node := by rw [hnodes, nodeAt_append new h.added.2]
  constructor
  case after => exact hall
  case added => exact ⟨h.added.1, by rw [hnodes, List.length_append]; exact Nat.lt_add_right _ h.added.2⟩
  case alone => exact hnode ▸ h.alone
  case open_ => exact hnode ▸ h.open_.later (h.bound (last_mem _)).2 hafter
  case inside => exact hnode ▸ h.inside.steady hafter.steady
  case columns =>
    rw [hnode]
    exact fun name hname => (h.columns name hname).steady (h.bound (last_mem _)).2 hafter.steady
  case vars =>
    exact fun x columns hx => (h.vars x columns hx).mono (List.Subset.refl _) (Nat.le_refl _) hafter.aliases
  case sides =>
    rw [hnode]
    exact fun x columns hx => (h.sides x columns hx).after hafter (htaken x (h.vars x columns hx))

theorem Quiet.later {id : StageId} (h : Quiet f (t.stages.get id)) (hbound : id < t.stages.length)
    {can : StageId → Prop} {taken : String → Prop} (hafter : Compile.After S.schema can taken t u)
    (hcan : ¬can id) : Quiet f (u.stages.get id) := by
  refine h.imp_left fun hnil => List.eq_nil_iff_forall_not_mem.mpr fun p hp => ?_
  rcases hafter.pulled id hbound p hp with hp | hp
  · rw [hnil] at hp
    cases hp
  · exact hcan hp.1

/-- What can be pulled through the stages inside can be pulled through an open stage with a select list. -/
theorem Inside.through_below {floor : Nat} {n : Node} (h : Inside S.schema floor t f n)
    (hsome : (t.stages.get n.last.stage).projection ≠ none) {name : String} (hname : f.below.has name = true) :
    Starts S.schema t name n.first ∧ Climbs S.schema t (some name) n.first n.wrappers (some name) := by
  rcases List.eq_nil_or_concat' n.wrappers with hnil | ⟨l, b, hl⟩
  · have hlast : n.last = n.first := by rw [last_eq_topOf, hnil]; rfl
    rw [hlast] at hsome
    have hmerges : ¬Merges (t.stages.get n.first.stage) := fun hm => hsome hm.1
    rw [hnil]
    exact ⟨⟨(h.new.bound _ (.head _)).2, hmerges, h.plain hmerges, h.label, fun h => (hsome h).elim⟩, .nil⟩
  · have hlast : n.last = b := by rw [last_eq_topOf, hl, topOf_append]; rfl
    obtain ⟨hstarts, hclimbs⟩ := h.below l b hl name hname
    refine ⟨hstarts, ?_⟩
    rw [hl]
    exact hclimbs.append (.plain (h.around l b hl) (fun h => (hsome (hlast ▸ h)).elim) .nil)

/-- A column that can be pulled through all stages of a node. -/
theorem Built.passing (h : Built S s t roots f node) {name : String} (hname : f.passing.has name = true) :
    Starts S.schema t name (nodeAt t.nodes node).first ∧
      Climbs S.schema t (some name) (nodeAt t.nodes node).first (nodeAt t.nodes node).wrappers (some name) := by
  have hprojection := h.open_.clauses.projection
  unfold Face.passing at hname
  by_cases hsome : f.clauses.projection.isSome = true
  · rw [if_pos hsome] at hname
    rw [hsome] at hprojection
    exact h.inside.through_below (Option.isSome_iff_ne_none.mp hprojection.symm) hname
  · rw [if_neg hsome] at hname
    obtain ⟨hstarts, hclimbs, -⟩ := h.columns name hname
    exact ⟨hstarts, hclimbs⟩

end

end TreeSql.Compile
