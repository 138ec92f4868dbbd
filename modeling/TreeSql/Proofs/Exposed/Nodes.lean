import TreeSql.Proofs.Exposed.Values
import TreeSql.Proofs.References.Aliases

/-
  TreeSql.Proofs.Exposed.Nodes — the columns that the open stage of a node exposes.

  A node stands as the face of its expression says (`Stands`): the open stage exposes just the members of the
  rows, in their order, or nothing at all (`Exposing`). Columns can be pulled through all stages of the node, and
  through those inside it (`Way`, `Led`), since none of them is an operand of a set operation or an element. While
  something is compiled in the scope of the open stage or beside it, that stage is left alone, and the node stands
  as before (`Meanwhile`).
-/
namespace TreeSql

open Sql Compile

/-! ## Variables of a face -/

namespace Expr

/-- The variables bound inside that can still be referred to. -/
theorem side_mem_binders {schema : Option Schema} (e : Expr) {x : String} {columns : Columns}
    (hx : (x, columns) ∈ (e.face schema).sides) : x ∈ e.binders := by
  have hbind (e : Expr) (var : String) (ih : ∀ {x columns}, (x, columns) ∈ (e.face schema).sides → x ∈ e.binders)
      {x columns} (hx : (x, columns) ∈ ((e.face schema).bind var).sides) : x ∈ var :: e.binders := by
    rcases List.mem_cons.mp hx with hx | hx
    · cases hx
      exact .head _
    · exact .tail _ (ih hx)
  have hside (e : Expr) (var : String) (tree : Bool)
      (ih : ∀ {x columns}, (x, columns) ∈ (e.face schema).sides → x ∈ e.binders)
      {x columns} (hx : (x, columns) ∈ (e.face schema).sideScope tree var) : x ∈ var :: e.binders := by
    unfold Face.sideScope at hx
    split at hx
    · exact .tail _ (ih hx)
    · exact hbind e var ih hx
  match e with
  | .filter ⟨e, v⟩ _ | .sort ⟨e, v⟩ _ | .skip ⟨e, v⟩ _ _ =>
    have hx : (x, columns) ∈ (((e.face schema).bind v).openFor _).sides := hx
    rw [Face.sides_openFor] at hx
    have hmem := hbind e v (fun hx => side_mem_binders e hx) hx
    simp only [binders, List.mem_cons, List.mem_append] at hmem ⊢
    grind
  | .limit e _ => exact List.mem_append_left _ (side_mem_binders e hx)
  | .distinct e =>
    have hx : (x, columns) ∈ (Face.distinct (e.face schema)).sides := hx
    have hsides : (Face.distinct (e.face schema)).sides = (e.face schema).sides := by
      rw [Face.distinct]
      split <;> rfl
    exact side_mem_binders e (hsides ▸ hx)
  | .join kind ⟨l, lv⟩ ⟨r, rv⟩ _ =>
    have hx : (x, columns) ∈ (l.face schema).sideScope l.isJoin lv ++
      (r.face schema).sideScope (r.isJoin && !kind.isApply) rv := hx
    simp only [binders]
    rcases List.mem_append.mp hx with hx | hx
    · have hmem := hside l lv _ (fun hx => side_mem_binders l hx) hx
      simp only [List.mem_cons, List.mem_append] at hmem ⊢
      grind
    · have hmem := hside r rv _ (fun hx => side_mem_binders r hx) hx
      simp only [List.mem_cons, List.mem_append] at hmem ⊢
      grind
  | .newInstance t args =>
    rw [face] at hx
    split at hx
    · rename_i f hf
      obtain ⟨e, hargs, rfl⟩ := elementFace?_eq_some.mp hf
      have hsize : e.size < (newInstance t args).size := by simp only [hargs, size, sizeOfAll]; omega
      rw [hargs]
      exact List.mem_append_left _ (side_mem_binders e hx)
    · cases hx
  | .project .. | .groupBy .. | .scan _ | .setOp .. | .call .. | .element _ | .comparison .. | .arithmetic ..
  | .and .. | .or .. | .not _ | .isNull _ | .isEmpty _ | .like .. | .isIn .. | .cast .. | .caseOf .. | .constant _
  | .null _ | .paramRef .. | .varRef .. | .property .. => cases hx
termination_by e.size
decreasing_by all_goals first | exact hsize | (simp only [size]; omega)

theorem bound_side_mem {schema : Option Schema} (e : Expr) {v x : String} {columns : Columns}
    (hx : (x, columns) ∈ ((e.face schema).bind v).sides) : x ∈ v :: e.binders := by
  rcases List.mem_cons.mp hx with hx | hx
  · cases hx
    exact .head _
  · exact .tail _ (e.side_mem_binders hx)

end Expr

namespace Compile.Vicinity

variable {V : Vicinity} {s t u : State} {P P' : StageId → Prop} {source : String} {l : List AliasedStage}

/-! ## Ways through stages -/

/-- A stage of some kind, that columns can be pulled through. -/
structure Passable (P : StageId → Prop) (s : State) (id : StageId) : Prop where
  among : P id
  bound : id < s.stages.length
  unsealed : ¬Sealed s.stages id
  neat : Neat s id

/-- Columns pass through stages of some kind. -/
def Way (P : StageId → Prop) (s : State) : String → List AliasedStage → Prop
  | _, [] => True
  | source, a :: l => (Passable P s a.stage ∧ Fed s source a.stage) ∧ Way P s a.name l

theorem Way.passable (h : Way P s source l) : ∀ a ∈ l, Passable P s a.stage := by
  induction l generalizing source with
  | nil => exact fun a ha => by cases ha
  | cons b l ih =>
    intro a ha
    rcases List.mem_cons.mp ha with rfl | ha
    · exact h.1.1
    · exact ih h.2 a ha

theorem Way.mono (h : Way P s source l) (hP : ∀ id < s.stages.length, P id → P' id) : Way P' s source l := by
  induction l generalizing source with
  | nil => trivial
  | cons a l ih =>
    obtain ⟨⟨⟨hamong, hbound, hunsealed, hneat⟩, hfed⟩, hrest⟩ := h
    exact ⟨⟨⟨hP _ hbound hamong, hbound, hunsealed, hneat⟩, hfed⟩, ih hrest⟩

/-- The alias under which columns come out of a path. -/
def endOf (source : String) (l : List AliasedStage) : String := (l.getLast?.map (·.name)).getD source

/-- One more stage, which selects from the last one or from none that columns could be renamed by. -/
theorem Way.concat (h : Way P s source l) {a : AliasedStage} (ha : Passable P s a.stage)
    (hfed : Fed s (endOf source l) a.stage) : Way P s source (l ++ [a]) := by
  induction l generalizing source with
  | nil => exact ⟨⟨ha, hfed⟩, trivial⟩
  | cons b l ih =>
    refine ⟨h.1, ih h.2 ?_⟩
    rw [endOf, List.getLast?_cons] at hfed
    cases hl : l.getLast? <;> simpa [endOf, hl] using hfed

/-- Columns are pulled along the way, up to a stage in scope. -/
theorem Way.passes (h : Way P s source l) {rest : List AliasedStage}
    (hcan : ∀ id, Passable P s id → V.context.scopes.contains id = true ∨ V.can id)
    (hrest : InScope V.context rest) : V.Passes s source (l ++ rest) := by
  induction l generalizing source with
  | nil =>
    cases rest with
    | nil => trivial
    | cons a rest => exact .inl hrest
  | cons a l ih => exact (hcan a.stage h.1.1).imp_right fun hid => ⟨hid, h.1.2, ih h.2⟩

/-- Nothing is changed in some of the stages that columns on their way would notice. -/
structure Calm (among : StageId → Prop) (s t : State) : Prop where
  length : s.stages.length ≤ t.stages.length
  from_eq : ∀ id, among id → id < s.stages.length → (t.stages.get id).from_ = (s.stages.get id).from_
  label : ∀ id, among id → id < s.stages.length → label t id = label s id
  neat : ∀ id, among id → id < s.stages.length → Neat s id → Neat t id
  unsealed : ∀ id, among id → id < s.stages.length → Sealed t.stages id → Sealed s.stages id

theorem After.calm (h : V.After s t) {among : StageId → Prop} : Calm among s t where
  length := h.length
  from_eq id _ hid := (h.wider id hid).from_eq
  label _ _ hid := h.label hid
  neat id _ hid := h.neat id hid
  unsealed _ _ hid hsealed := Classical.by_contradiction fun hs => h.unsealed hid hs hsealed

/-- First all stages are left alone that there are, then those of them that there were before. -/
theorem Calm.trans (h : Calm (fun _ => True) s t) (h' : Calm (· < s.stages.length) t u) : Calm (fun _ => True) s u where
  length := Nat.le_trans h.length h'.length
  from_eq id _ hid := (h'.from_eq id hid (Nat.lt_of_lt_of_le hid h.length)).trans (h.from_eq id trivial hid)
  label id _ hid := (h'.label id hid (Nat.lt_of_lt_of_le hid h.length)).trans (h.label id trivial hid)
  neat id _ hid hneat := h'.neat id hid (Nat.lt_of_lt_of_le hid h.length) (h.neat id trivial hid hneat)
  unsealed id _ hid hsealed := h.unsealed id trivial hid (h'.unsealed id hid (Nat.lt_of_lt_of_le hid h.length) hsealed)

/-- Some of the stages select the same columns from the same source. -/
theorem calm_of_columns {among : StageId → Prop} (hlength : s.stages.length ≤ t.stages.length)
    (hnodes : t.nodes.map (·.first) = s.nodes.map (·.first))
    (hfrom : ∀ id, among id → id < s.stages.length → (t.stages.get id).from_ = (s.stages.get id).from_)
    (hpulled : ∀ id, among id → id < s.stages.length → (t.stages.get id).pulled = (s.stages.get id).pulled)
    (hsealed : ∀ id, among id → id < s.stages.length → Sealed t.stages id → Sealed s.stages id) : Calm among s t where
  length := hlength
  from_eq := hfrom
  label id hid hbound := label_congr hnodes (hfrom id hid hbound)
  neat id hid hbound hneat :=
    hneat.congr (hfrom id hid hbound) (hpulled id hid hbound) (label_congr hnodes (hfrom id hid hbound))
  unsealed := hsealed

section

variable {among : StageId → Prop}

theorem Passable.calm {id : StageId} (h : Passable P s id) (hcalm : Calm among s t) (hid : among id) :
    Passable P t id where
  among := h.among
  bound := Nat.lt_of_lt_of_le h.bound hcalm.length
  unsealed hsealed := h.unsealed (hcalm.unsealed id hid h.bound hsealed)
  neat := hcalm.neat id hid h.bound h.neat

theorem Way.calm (h : Way P s source l) (hcalm : Calm among s t) (hl : ∀ a ∈ l, among a.stage) :
    Way P t source l := by
  induction l generalizing source with
  | nil => trivial
  | cons a l ih =>
    obtain ⟨⟨ha, hfed⟩, hrest⟩ := h
    have hamong := hl a (.head _)
    refine ⟨⟨ha.calm hcalm hamong, ?_⟩, ih hrest fun b hb => hl b (.tail _ hb)⟩
    exact hfed.congr (hcalm.from_eq _ hamong ha.bound) (hcalm.label _ hamong ha.bound)

end

/-! ## Variables inside a node -/

/-- A variable is bound to a node inside another one, or to that one itself. Its columns come out through the
    given stages of the latter. -/
def Led (P : StageId → Prop) (s : State) (node : NodeId) (own : List AliasedStage) (x : String) : Prop :=
  ∃ id l, s.bindings.lookup x = some id ∧ id < s.nodes.length ∧ Under s.nodes node id l ∧
    Way P s (nodeAt s.nodes id).first.name (l ++ own)

section

variable {node : NodeId} {own : List AliasedStage} {x : String}

theorem Led.mono (h : Led P s node own x) (hP : ∀ id < s.stages.length, P id → P' id) : Led P' s node own x := by
  obtain ⟨id, l, hx, hid, hunder, hway⟩ := h
  exact ⟨id, l, hx, hid, hunder, hway.mono hP⟩

theorem Led.calm (h : Led P s node own x) (hcalm : Calm (fun _ => True) s t)
    (hlookup : t.bindings.lookup x = s.bindings.lookup x) (hlength : s.nodes.length ≤ t.nodes.length)
    (hfirst : ∀ j < s.nodes.length, (nodeAt t.nodes j).first = (nodeAt s.nodes j).first)
    (hsame : ∀ j, node < j → j < s.nodes.length → nodeAt t.nodes j = nodeAt s.nodes j) : Led P t node own x := by
  obtain ⟨id, l, hx, hid, hunder, hway⟩ := h
  refine ⟨id, l, hlookup.trans hx, Nat.lt_of_lt_of_le hid hlength, hunder.congr hlength hsame, ?_⟩
  rw [hfirst id hid]
  exact hway.calm hcalm fun _ _ => trivial

theorem Led.after (h : Led P s node own x) (hafter : V.After s t) (hx : x ∈ V.names) : Led P t node own x :=
  h.calm hafter.calm (hafter.lookup x hx) (length_nodes hafter) (fun j hj => by rw [nodeAt_after hafter hj])
    fun j _ hj => nodeAt_after hafter hj

/-- The columns of a variable can be referred to. -/
theorem Led.bound (h : Led P s node own x) (rest : List AliasedStage) (htrack : track s.nodes node = own ++ rest)
    (hcan : ∀ id, Passable P s id → V.context.scopes.contains id = true ∨ V.can id)
    (hrest : InScope V.context rest) : V.Bound s x := by
  obtain ⟨id, l, hx, hid, hunder, hway⟩ := h
  refine ⟨id, hx, hid, ?_⟩
  rw [hunder.track, htrack, ← List.append_assoc]
  exact hway.passes hcan hrest

end

/-! ## Nodes and faces -/

/-- What the open stage exposes: just the members of the rows, or nothing yet. -/
structure Exposing (f : Face) (last : Stage) : Prop where
  clauses : SameClauses f.clauses last
  marked : f.listed = true → f.clauses.projection.isSome = true ∨ f.clauses.distinct = true
  unlisted : f.listed = false → Blank last ∧ (f.members ≠ [] → ∃ i, last.from_ = some (.item i))
  listed : f.listed = true → f.members.Nodup → last.outputNames = f.members

/-- A node, built since the state `s`, is as the face says. -/
structure Stands (V : Vicinity) (s t : State) (f : Face) (node : NodeId) : Prop where
  after : V.After s t
  added : s.nodes.length ≤ node ∧ node < t.nodes.length
  alone : (nodeAt t.nodes node).joinParent = none
  way : Way (s.stages.length ≤ ·) t (nodeAt t.nodes node).first.name (nodeAt t.nodes node).selects
  nodup : ((nodeAt t.nodes node).selects.map (·.stage)).Nodup
  framed : ∀ a ∈ (nodeAt t.nodes node).wrappers, ∃ i, (t.stages.get a.stage).from_ = some (.item i)
  enclosed : f.wrapped = !(nodeAt t.nodes node).wrappers.isEmpty
  inner : ((t.stages.get (nodeAt t.nodes node).first.stage).projection.getD []).map (·.name) = f.inner
  open_ : Exposing f (t.stages.get (nodeAt t.nodes node).last.stage)
  sides : ∀ x columns, (x, columns) ∈ f.sides → Led (s.stages.length ≤ ·) t node (nodeAt t.nodes node).selects x

section

variable {f : Face} {node : NodeId}

theorem Stands.last (h : Stands V s t f node) :
    Passable (s.stages.length ≤ ·) t (nodeAt t.nodes node).last.stage := h.way.passable _ (last_mem _)

theorem Stands.new (h : Stands V s t f node) : New s.stages.length t (nodeAt t.nodes node).selects :=
  ⟨fun a ha => ⟨(h.way.passable a ha).among, (h.way.passable a ha).bound⟩, h.nodup⟩

theorem Stands.track (h : Stands V s t f node) : track t.nodes node = (nodeAt t.nodes node).selects := by
  rw [Compile.track, h.alone, List.append_nil]

/-- The open stage is none of those that columns could be pulled through before. -/
theorem Stands.outside (h : Stands V s t f node) (hok : V.Ok s) : ¬V.can (nodeAt t.nodes node).last.stage :=
  hok.outside h.last.among

/-- What is compiled in between leaves the open stage alone, and the variables of the node. -/
structure Meanwhile (V : Vicinity) (s t u : State) (f : Face) (node : NodeId) : Prop where
  after : V.After s u
  calm : Calm (fun _ => True) t u
  wider : ∀ id < t.stages.length, Wider (t.stages.get id) (u.stages.get id)
  open_ : u.stages.get (nodeAt t.nodes node).last.stage = t.stages.get (nodeAt t.nodes node).last.stage
  nodes : t.nodes.length ≤ u.nodes.length ∧ ∀ j < t.nodes.length, nodeAt u.nodes j = nodeAt t.nodes j
  lookup : ∀ x columns, (x, columns) ∈ f.sides → u.bindings.lookup x = t.bindings.lookup x

theorem Stands.meanwhile (h : Stands V s t f node) {V' : Vicinity} (hafter : V'.After t u) (hall : V.After s u)
    (hlast : ¬V'.can (nodeAt t.nodes node).last.stage) (hnames : ∀ x columns, (x, columns) ∈ f.sides → x ∈ V'.names) :
    Meanwhile V s t u f node where
  after := hall
  calm := hafter.calm
  wider := hafter.wider
  open_ := hafter.same _ h.last.bound hlast
  nodes := ⟨length_nodes hafter, fun _ hj => nodeAt_after hafter hj⟩
  lookup x columns hx := hafter.lookup x (hnames x columns hx)

theorem Meanwhile.refl (h : Stands V s t f node) : Meanwhile V s t t f node :=
  ⟨h.after, (After.refl t).calm (V := V), fun _ _ => .refl _, rfl, ⟨Nat.le_refl _, fun _ _ => rfl⟩, fun _ _ _ => rfl⟩

theorem Meanwhile.last_eq (hm : Meanwhile V s t u f node) (h : Stands V s t f node) :
    nodeAt u.nodes node = nodeAt t.nodes node := hm.nodes.2 _ h.added.2

/-- The variables of a node are led out as before. -/
theorem Led.meanwhile (h : Led P t node own x) (hm : Meanwhile V s t u f node) {columns : Columns}
    (hx : (x, columns) ∈ f.sides) : Led P u node own x :=
  h.calm hm.calm (hm.lookup x columns hx) hm.nodes.1 (fun j hj => by rw [hm.nodes.2 j hj]) fun j _ hj => hm.nodes.2 j hj

/-- A node stands as before. -/
theorem Stands.later (h : Stands V s t f node) (hm : Meanwhile V s t u f node) : Stands V s u f node := by
  have hnode := hm.last_eq h
  have hwider (a : AliasedStage) (ha : a ∈ (nodeAt t.nodes node).selects) := hm.wider _ (h.way.passable a ha).bound
  constructor <;> try rw [hnode]
  case after => exact hm.after
  case added => exact ⟨h.added.1, Nat.lt_of_lt_of_le h.added.2 hm.nodes.1⟩
  case alone => exact h.alone
  case way => exact h.way.calm hm.calm fun _ _ => trivial
  case nodup => exact h.nodup
  case framed => exact fun a ha => (hwider a (.tail _ ha)).from_eq ▸ h.framed a ha
  case enclosed => exact h.enclosed
  case inner => exact (hwider _ (.head _)).projection ▸ h.inner
  case open_ => exact hm.open_ ▸ h.open_
  case sides => exact fun x columns hx => (h.sides x columns hx).meanwhile hm hx

/-- A node of one stage. -/
theorem Stands.single {a : AliasedStage} (hafter : V.After s t)
    (hadded : s.nodes.length ≤ node ∧ node < t.nodes.length) (hnode : nodeAt t.nodes node = { first := a })
    (ha : Passable (s.stages.length ≤ ·) t a.stage) (hfed : Fed t a.name a.stage) (hwrapped : f.wrapped = false)
    (hinner : ((t.stages.get a.stage).projection.getD []).map (·.name) = f.inner)
    (hopen : Exposing f (t.stages.get a.stage))
    (hsides : ∀ x columns, (x, columns) ∈ f.sides → Led (s.stages.length ≤ ·) t node [a] x) : Stands V s t f node := by
  constructor <;> try rw [hnode]
  case after => exact hafter
  case added => exact hadded
  case way => exact ⟨⟨ha, hfed⟩, trivial⟩
  case nodup => simp [Node.selects]
  case framed => simp
  case enclosed => exact hwrapped
  case inner => exact hinner
  case open_ => exact hopen
  case sides => exact hsides

/-- The variable of the rows is not used further. -/
theorem Stands.forget {var : String} (h : Stands V s t (f.bind var) node) : Stands V s t f node :=
  { h with
    open_ := { h.open_ with }
    sides := fun x columns hx => h.sides x columns (.tail _ hx) }

/-- A variable is bound to the node. -/
theorem Stands.bind {var : String} (h : Stands V s t f node) (hvar : var ∉ V.names)
    (hvars : ∀ x columns, (x, columns) ∈ f.sides → x ≠ var) :
    Stands V s { t with bindings := (var, node) :: t.bindings } (f.bind var) node := by
  have hcalm : Calm (fun _ => True) t { t with bindings := (var, node) :: t.bindings } :=
    calm_of_columns (Nat.le_refl _) rfl (fun _ _ _ => rfl) (fun _ _ _ => rfl) fun _ _ _ h => h
  have hway := h.way.calm hcalm fun _ _ => trivial
  refine { h with after := h.after.bind hvar node, way := hway, open_ := { h.open_ with }, sides := fun x columns hx => ?_ }
  rcases List.mem_cons.mp hx with hx | hx
  · cases hx
    exact ⟨node, [], by simp, h.added.2, .self, hway⟩
  · refine (h.sides x columns hx).calm hcalm ?_ (Nat.le_refl _) (fun _ _ => rfl) fun _ _ _ => rfl
    show List.lookup x ((var, node) :: t.bindings) = _
    rw [List.lookup_cons, beq_false_of_ne (hvars x columns hx)]

end

end Compile.Vicinity

end TreeSql
