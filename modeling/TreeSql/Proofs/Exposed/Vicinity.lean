import TreeSql.Proofs.Exposed.Sealed
import TreeSql.Proofs.Expr.Nodes
import TreeSql.Proofs.References.Names
import TreeSql.Proofs.References.Routes

/-
  TreeSql.Proofs.Exposed.Vicinity — where an expression is compiled, and which stages it can change.

  The columns that a stage exposes are settled when nothing is pulled through it any more. So a `Vicinity`
  says, beside the variables in scope, through which stages columns can be pulled at all; all others stay
  as they are (`After.same`). Stages that are sealed are never among them (`Ok.open_`), and so keep the columns
  that they had when they were combined, or became an element.

  Columns of a variable in scope pass from stage to stage up to one in scope (`Passes`). Each stage that
  selects from one item gets them by the alias of the item (`Fed`), and so keeps their names (`Neat`).
-/
namespace TreeSql

open Sql

namespace Compile

/-! ## Columns that keep their names -/

/-- Columns of the one item that the stage selects from are pulled under that alias. -/
def Fed (s : State) (source : String) (id : StageId) : Prop :=
  ∀ i, (s.stages.get id).from_ = some (.item i) → label s id = source

/-- All columns pulled through a stage that selects from one item keep their names. -/
def Neat (s : State) (id : StageId) : Prop :=
  ∀ i, (s.stages.get id).from_ = some (.item i) → Plain (label s id) (s.stages.get id)

section

variable {s t : State} {id : StageId}

theorem Fed.congr {source : String} (h : Fed s source id) (hfrom : (t.stages.get id).from_ = (s.stages.get id).from_)
    (hlabel : label t id = label s id) : Fed t source id := by
  unfold Fed
  rw [hfrom, hlabel]
  exact h

theorem Neat.congr (h : Neat s id) (hfrom : (t.stages.get id).from_ = (s.stages.get id).from_)
    (hpulled : (t.stages.get id).pulled = (s.stages.get id).pulled) (hlabel : label t id = label s id) : Neat t id := by
  unfold Neat Plain
  rw [hfrom, hpulled, hlabel]
  exact h

theorem neat_of_pulled (h : (s.stages.get id).pulled = []) : Neat s id := fun _ _ => plain_of_pulled h

end

/-! ## Vicinities -/

structure Vicinity where
  context : Context
  scope : Scope
  /-- The variables that have to stay bound as they are. -/
  names : List String
  /-- The stages that columns can be pulled through. -/
  can : StageId → Prop
  /-- What holds of the nodes of expressions. -/
  test : Expr → Bool
  query : context.mode = .query
  passes : Expr.PassesChoices test

namespace Vicinity

variable (V : Vicinity) {s t u : State}

/-- A later state, as seen from here. -/
structure After (s t : State) : Prop where
  length : s.stages.length ≤ t.stages.length
  wider : ∀ id < s.stages.length, Wider (s.stages.get id) (t.stages.get id)
  same : ∀ id < s.stages.length, ¬V.can id → t.stages.get id = s.stages.get id
  neat : ∀ id < s.stages.length, Neat s id → Neat t id
  nodes : AddedNodes s t
  lookup : ∀ x ∈ V.names, t.bindings.lookup x = s.bindings.lookup x
  sealed : ∀ id, Sealed t.stages id → Sealed s.stages id ∨ (s.stages.length ≤ id ∧ id < t.stages.length)
  aligned : Aligned V.test s.stages → Aligned V.test t.stages

/-- Columns pass through stages, up to one in scope. -/
def Passes (s : State) : String → List AliasedStage → Prop
  | _, [] => True
  | source, a :: rest => V.context.scopes.contains a.stage = true ∨
    (V.can a.stage ∧ Fed s source a.stage ∧ Passes s a.name rest)

/-- A variable is bound to a node, and its columns can be referred to. -/
def Bound (s : State) (x : String) : Prop :=
  ∃ node, s.bindings.lookup x = some node ∧ node < s.nodes.length ∧
    V.Passes s (nodeAt s.nodes node).first.name (track s.nodes node)

/-- The variables in scope are bound, and sealed stages are left alone. -/
structure Ok (s : State) : Prop where
  bound : ∀ x columns, (x, columns) ∈ V.scope → x ∈ V.names ∧ V.Bound s x
  open_ : ∀ id, V.can id → id < s.stages.length ∧ ¬Sealed s.stages id
  scopes : ∀ id ∈ V.context.scopes, id < s.stages.length
  sealed : ∀ id, Sealed s.stages id → id < s.stages.length
  nodes : ∀ n ∈ s.nodes, n.first.stage < s.stages.length

/-! ## Later states -/

variable {V}

theorem After.label (h : V.After s t) {id : Nat} (hid : id < s.stages.length) :
    Compile.label t id = Compile.label s id := by
  obtain ⟨new, hnodes, hnew⟩ := h.nodes.added
  refine label_later hnodes (fun n hn hstage => ?_) (h.wider id hid).from_eq
  exact Nat.lt_irrefl _ (Nat.lt_of_lt_of_le hid (hstage ▸ (hnew n hn).1))

theorem After.fed (h : V.After s t) {id : Nat} (hid : id < s.stages.length) {source : String}
    (hfed : Fed s source id) : Fed t source id := hfed.congr (h.wider id hid).from_eq (h.label hid)

theorem After.unsealed (h : V.After s t) {id : Nat} (hid : id < s.stages.length) (hs : ¬Sealed s.stages id) :
    ¬Sealed t.stages id := fun ht =>
  (h.sealed id ht).elim hs fun hnew => Nat.lt_irrefl _ (Nat.lt_of_lt_of_le hid hnew.1)

theorem After.refl (s : State) : V.After s s where
  length := Nat.le_refl _
  wider _ _ := .refl _
  same _ _ _ := rfl
  neat _ _ h := h
  nodes := .refl s
  lookup _ _ := rfl
  sealed _ h := .inl h
  aligned h := h

theorem added_trans (h : AddedNodes s t) (h' : AddedNodes t u) (hst : s.stages.length ≤ t.stages.length)
    (htu : t.stages.length ≤ u.stages.length) : AddedNodes s u := by
  obtain ⟨new, hnodes, hnew⟩ := h.added
  obtain ⟨new', hnodes', hnew'⟩ := h'.added
  refine ⟨new ++ new', by rw [hnodes', hnodes, List.append_assoc], fun n hn => ?_⟩
  rcases List.mem_append.mp hn with hn | hn
  · exact ⟨(hnew n hn).1, Nat.lt_of_lt_of_le (hnew n hn).2 htu⟩
  · exact ⟨Nat.le_trans hst (hnew' n hn).1, (hnew' n hn).2⟩

/-- Steps that may do more in between, with stages that were not there at the start. -/
theorem After.trans_of {V' : Vicinity} (h : V.After s t) (h' : V'.After t u)
    (hcan : ∀ id < s.stages.length, V'.can id → V.can id) (hnames : V.names ⊆ V'.names) (htest : V'.test = V.test) :
    V.After s u where
  length := Nat.le_trans h.length h'.length
  wider id hid := (h.wider id hid).trans (h'.wider id (Nat.lt_of_lt_of_le hid h.length))
  same id hid hout :=
    (h'.same id (Nat.lt_of_lt_of_le hid h.length) fun hid' => hout (hcan id hid hid')).trans (h.same id hid hout)
  neat id hid hneat := h'.neat id (Nat.lt_of_lt_of_le hid h.length) (h.neat id hid hneat)
  nodes := added_trans h.nodes h'.nodes h.length h'.length
  lookup x hx := (h'.lookup x (hnames hx)).trans (h.lookup x hx)
  sealed id hid := by
    rcases h'.sealed id hid with hid | hid
    · exact (h.sealed id hid).imp_right fun hid => ⟨hid.1, Nat.lt_of_lt_of_le hid.2 h'.length⟩
    · exact .inr ⟨Nat.le_trans h.length hid.1, hid.2⟩
  aligned hs := htest ▸ h'.aligned (htest ▸ h.aligned hs)

theorem After.trans (h : V.After s t) (h' : V.After t u) : V.After s u :=
  h.trans_of h' (fun _ _ hid => hid) (List.Subset.refl _) rfl

/-- A change to what was added since. -/
structure Changes (test : Expr → Bool) (s t u : State) : Prop where
  length : t.stages.length ≤ u.stages.length
  same : ∀ id < s.stages.length, u.stages.get id = t.stages.get id
  nodes : AddedNodes s t → AddedNodes s u
  bindings : u.bindings = t.bindings
  sealed : ∀ id, Sealed u.stages id → Sealed t.stages id ∨ (s.stages.length ≤ id ∧ id < t.stages.length)
  aligned : Aligned test t.stages → Aligned test u.stages

theorem After.change (h : V.After s t) (h' : Changes V.test s t u) : V.After s u where
  length := Nat.le_trans h.length h'.length
  wider id hid := by
    rw [h'.same id hid]
    exact h.wider id hid
  same id hid hout := (h'.same id hid).trans (h.same id hid hout)
  neat id hid hneat := by
    obtain ⟨new, hnodes, hnew⟩ := (h'.nodes h.nodes).added
    have hsame := h'.same id hid
    have hlabel : Compile.label u id = Compile.label s id := by
      refine label_later hnodes (fun n hn hstage => ?_) (hsame ▸ (h.wider id hid).from_eq)
      exact Nat.lt_irrefl _ (Nat.lt_of_lt_of_le hid (hstage ▸ (hnew n hn).1))
    exact (h.neat id hid hneat).congr (by rw [hsame]) (by rw [hsame]) (hlabel.trans (h.label hid).symm)
  nodes := h'.nodes h.nodes
  lookup x hx := by
    rw [h'.bindings]
    exact h.lookup x hx
  sealed id hid := by
    rcases h'.sealed id hid with hid | hid
    · exact (h.sealed id hid).imp_right fun hid => ⟨hid.1, Nat.lt_of_lt_of_le hid.2 h'.length⟩
    · exact .inr ⟨hid.1, Nat.lt_of_lt_of_le hid.2 h'.length⟩
  aligned hs := h'.aligned (h.aligned hs)

/-- A name that nothing depends on is bound. -/
theorem After.bind (h : V.After s t) {var : String} (hvar : var ∉ V.names) (node : NodeId) :
    V.After s { t with bindings := (var, node) :: t.bindings } where
  length := h.length
  wider := h.wider
  same := h.same
  neat := h.neat
  nodes := h.nodes.later rfl (Nat.le_refl _)
  lookup x hx := by
    have hne : x ≠ var := fun he => hvar (he ▸ hx)
    rw [List.lookup_cons, beq_false_of_ne hne]
    exact h.lookup x hx
  sealed := h.sealed
  aligned := h.aligned

/-- Columns cannot be pulled through stages that are added. -/
theorem Ok.outside (hok : V.Ok s) {id : StageId} (hnew : s.stages.length ≤ id) : ¬V.can id := fun hcan =>
  Nat.lt_irrefl _ (Nat.lt_of_lt_of_le (hok.open_ id hcan).1 hnew)

theorem Passes.after (h : V.After s t) (hcan : ∀ id, V.can id → id < s.stages.length) {source : String}
    {l : List AliasedStage} (hl : V.Passes s source l) : V.Passes t source l := by
  induction l generalizing source with
  | nil => trivial
  | cons a l ih =>
    refine hl.imp_right fun ⟨hid, hfed, hrest⟩ => ⟨hid, h.fed (hcan _ hid) hfed, ih hrest⟩

theorem nodeAt_after (h : V.After s t) {node : NodeId} (hnode : node < s.nodes.length) :
    nodeAt t.nodes node = nodeAt s.nodes node := by
  obtain ⟨new, hnodes, -⟩ := h.nodes.added
  rw [hnodes, nodeAt, nodeAt, List.getElem?_append_left hnode]

theorem length_nodes (h : V.After s t) : s.nodes.length ≤ t.nodes.length := by
  obtain ⟨new, hnodes, -⟩ := h.nodes.added
  rw [hnodes, List.length_append]
  exact Nat.le_add_right _ _

theorem Ok.after (hok : V.Ok s) (h : V.After s t) : V.Ok t where
  bound x columns hx := by
    obtain ⟨hname, node, hlookup, hnode, hpasses⟩ := hok.bound x columns hx
    obtain ⟨new, hnodes, -⟩ := h.nodes.added
    refine ⟨hname, node, (h.lookup x hname).trans hlookup, Nat.lt_of_lt_of_le hnode (length_nodes h), ?_⟩
    rw [nodeAt_after h hnode, hnodes, track_append new hnode]
    exact hpasses.after h fun id hid => (hok.open_ id hid).1
  open_ id hid := by
    obtain ⟨hbound, hopen⟩ := hok.open_ id hid
    exact ⟨Nat.lt_of_lt_of_le hbound h.length, h.unsealed hbound hopen⟩
  scopes id hid := Nat.lt_of_lt_of_le (hok.scopes id hid) h.length
  sealed id hid :=
    (h.sealed id hid).elim (fun hid => Nat.lt_of_lt_of_le (hok.sealed id hid) h.length) fun hid => hid.2
  nodes n hn := by
    obtain ⟨new, hnodes, hnew⟩ := h.nodes.added
    rw [hnodes] at hn
    rcases List.mem_append.mp hn with hn | hn
    · exact Nat.lt_of_lt_of_le (hok.nodes n hn) h.length
    · exact (hnew n hn).2

/-! ## Columns pulled through stages -/

/-- One column is pulled through a stage. -/
theorem after_pull (hok : V.Ok s) {a : AliasedStage} (hcan : V.can a.stage) {source name : String}
    (hfed : Fed s source a.stage) {path : ColumnPath} (hrun : Gives (pullThrough ⟨source, name⟩ a) V.context s path t) :
    V.After s t ∧ path.qualifier = a.name := by
  obtain ⟨hbound, hopen⟩ := hok.open_ _ hcan
  obtain ⟨name', v, hpull, hpath⟩ := gives_bind.mp hrun
  obtain ⟨rfl, rfl⟩ := gives_pure.mp hpath
  obtain ⟨rfl, rfl⟩ := gives_pullColumn.mp hpull
  have hwider := (pull_spec (s.stages.get a.stage) source name s.aliases).1.wider
  have hplain : Plain source (s.stages.get a.stage) →
      Plain source ((s.stages.get a.stage).pull source name s.aliases).2.1 := fun hplain => by
    rw [pull_plain hplain]
    exact plain_expose hplain _
  generalize (s.stages.get a.stage).pull source name s.aliases = r at hwider hplain
  have hget (id : Nat) : Stages.get (s.stages.set a.stage r.2.1) id =
      if id = a.stage then r.2.1 else s.stages.get id := by
    rw [Stages.get_set]
    simp [hbound]
  have hall (id : Nat) : Wider (s.stages.get id) (Stages.get (s.stages.set a.stage r.2.1) id) := by
    rw [hget]
    split
    · rename_i hid
      exact hid ▸ hwider
    · exact .refl _
  have hnone : OnlyNew (fun _ => False) s.stages (s.stages.set a.stage r.2.1) := onlyNew_of_wider hall
  refine ⟨⟨by simp, fun id _ => hall id, fun id _ hout => ?_, fun id _ hneat i hi => ?_, ?_, fun _ _ => rfl,
    fun id hid => .inl ((hnone.sealed hid).resolve_right not_false), fun hs => hs.congr hnone (fun _ h => h.elim) fun id hid =>
      ?_⟩, rfl⟩
  · show Stages.get (s.stages.set a.stage r.2.1) id = _
    rw [hget, if_neg fun hid : id = a.stage => hout (hid ▸ hcan)]
  · have hi' : (s.stages.get id).from_ = some (.item i) := (hall id).from_eq.symm.trans hi
    have hlabel : Compile.label { s with stages := s.stages.set a.stage r.2.1, aliases := r.2.2 } id =
        Compile.label s id := label_congr rfl (hall id).from_eq
    show Plain (Compile.label _ id) (Stages.get (s.stages.set a.stage r.2.1) id)
    rw [hlabel, hget]
    split
    · rename_i hid
      subst hid
      have hplain' := hneat i hi'
      rw [hfed i hi'] at hplain' ⊢
      exact hplain hplain'
    · exact hneat i hi'
  · exact (AddedNodes.refl s).later rfl (by simp)
  · rw [hget, if_neg fun hid' : id = a.stage => hopen (hid' ▸ hid)]

/-- A column is pulled through stages, up to one in scope. -/
theorem after_pullToScope {l : List AliasedStage} {source name : String} {r : ColumnPath × Bool} (hok : V.Ok s)
    (hl : V.Passes s source l) (hrun : Gives (pullToScope ⟨source, name⟩ l) V.context s r t) : V.After s t := by
  induction l generalizing s source name with
  | nil =>
    obtain ⟨-, rfl⟩ := gives_pure.mp hrun
    exact .refl _
  | cons a l ih =>
    rw [pullToScope, gives_read_bind] at hrun
    by_cases ha : V.context.scopes.contains a.stage = true
    · rw [if_pos ha] at hrun
      obtain ⟨-, rfl⟩ := gives_pure.mp hrun
      exact .refl _
    · rw [if_neg ha] at hrun
      obtain ⟨⟨qualifier, column⟩, u, hpull, hrun⟩ := gives_bind.mp hrun
      obtain ⟨hcan, hfed, hrest⟩ := hl.resolve_left ha
      obtain ⟨hafter, rfl⟩ := after_pull hok hcan hfed hpull
      exact hafter.trans (ih (hok.after hafter) (hrest.after hafter fun id hid => (hok.open_ id hid).1) hrun)

/-- A property in scope is a column that is pulled through the stages around it. -/
theorem after_boundColumn {base : Expr} {name : String} {e : SqlExpr} (hok : V.Ok s)
    (hscope : Expr.inScope V.scope base name = true) (hrun : Gives (boundColumn base name) V.context s e t) :
    V.After s t ∧ ∃ path : ColumnPath, e = .columnRef path.qualifier path.name := by
  obtain ⟨x, node, _, v, path, howner, hlookup, hnode, hpull, rfl⟩ := boundColumn_inv hrun
  obtain ⟨rfl, rfl⟩ := gives_getNode_iff.mp hnode
  obtain ⟨columns, hx, -⟩ := Expr.exists_of_inScope hscope howner
  obtain ⟨-, node', hlookup', -, hpasses⟩ := hok.bound x columns hx
  obtain rfl := Option.some.inj (hlookup.symm.trans hlookup')
  obtain ⟨found, hpath⟩ := gives_pullFrom hpull
  exact ⟨after_pullToScope hok hpasses hpath, path, rfl⟩

/-! ## Going on elsewhere -/

variable (V) in
/-- With stages whose clauses are built, variables that are added, names that have to stay bound and stages that
    columns can be pulled through. -/
def enter (scopes : List StageId) (scope : Scope) (names : List String) (can : StageId → Prop) : Vicinity where
  context := { V.context with scopes := scopes ++ V.context.scopes }
  scope := scope ++ V.scope
  names := names ++ V.names
  can id := V.can id ∨ can id
  test := V.test
  query := V.query
  passes := V.passes

variable {scopes : List StageId} {scope : Scope} {names : List String} {can : StageId → Prop}

theorem contains_append {ids ids' : List StageId} {id : StageId} :
    (ids ++ ids').contains id = true ↔ id ∈ ids ∨ ids'.contains id = true := by
  rw [List.contains_iff_mem, List.contains_iff_mem, List.mem_append]

theorem Passes.enter {source : String} {l : List AliasedStage} (hl : V.Passes s source l) :
    (V.enter scopes scope names can).Passes s source l := by
  induction l generalizing source with
  | nil => trivial
  | cons a l ih =>
    exact hl.imp (fun h => contains_append.mpr (.inr h)) fun ⟨hid, hfed, hrest⟩ => ⟨.inl hid, hfed, ih hrest⟩

/-- What is added exists: variables are bound, and stages are open. -/
theorem ok_enter (hok : V.Ok s)
    (hbound : ∀ x columns, (x, columns) ∈ scope → x ∈ names ∧ (V.enter scopes scope names can).Bound s x)
    (hopen : ∀ id, can id → id < s.stages.length ∧ ¬Sealed s.stages id) (hscopes : ∀ id ∈ scopes, id < s.stages.length) :
    (V.enter scopes scope names can).Ok s where
  bound x columns hx := by
    rcases List.mem_append.mp hx with hx | hx
    · exact ⟨List.mem_append_left _ (hbound x columns hx).1, (hbound x columns hx).2⟩
    · obtain ⟨hname, node, hlookup, hnode, hpasses⟩ := hok.bound x columns hx
      exact ⟨List.mem_append_right _ hname, node, hlookup, hnode, hpasses.enter⟩
  open_ id hid := hid.elim (hok.open_ id) (hopen id)
  scopes id hid := (List.mem_append.mp hid).elim (hscopes id) (hok.scopes id)
  sealed := hok.sealed
  nodes := hok.nodes

/-- What is done there is done later. -/
theorem After.leave (h : V.After s t) (hcan : ∀ id, can id → s.stages.length ≤ id)
    (h' : (V.enter scopes scope names can).After t u) : V.After s u :=
  h.trans_of h' (fun id hid hcan' => hcan'.resolve_right fun hnew => Nat.lt_irrefl _ (Nat.lt_of_lt_of_le hid (hcan id hnew)))
    (List.subset_append_right _ _) rfl

/-! ## Primitive changes -/

section Changes

variable {test : Expr → Bool}

/-- Only constants and aliases are new. -/
theorem changes_counters {lifted : List Value} {aliases : Nat} : Changes test s t { t with lifted, aliases } where
  length := Nat.le_refl _
  same _ _ := rfl
  nodes h := h.later rfl (Nat.le_refl _)
  bindings := rfl
  sealed _ h := .inl h
  aligned h := h

theorem changes_pushNode {node : Node} (h : s.stages.length ≤ node.first.stage) (h' : node.first.stage < t.stages.length) :
    Changes test s t { t with nodes := t.nodes ++ [node] } where
  length := Nat.le_refl _
  same _ _ := rfl
  nodes := (touches_pushNode h h').nodes
  bindings := rfl
  sealed _ h := .inl h
  aligned h := h

theorem changes_modifyNode {id : Nat} (h : s.nodes.length ≤ id) {f : Node → Node} (hf : ∀ n, (f n).first = n.first) :
    Changes test s t { t with nodes := t.nodes.modify id f } where
  length := Nat.le_refl _
  same _ _ := rfl
  nodes := (touches_modifyNode h hf).nodes
  bindings := rfl
  sealed _ h := .inl h
  aligned h := h

/-- A stage that was added, and shows its element. -/
structure Kept (test : Expr → Bool) (floor : Nat) (t : State) (id : StageId) : Prop where
  floor : floor ≤ id
  bound : id < t.stages.length
  shown : ShowsElement test t.stages id

theorem Kept.mono {floor floor' : Nat} {id : StageId} (h : Kept test floor t id) (hfloor : floor' ≤ floor) :
    Kept test floor' t id := ⟨Nat.le_trans hfloor h.floor, h.bound, h.shown⟩

/-- What other stages expose does not change with a stage without columns. -/
theorem outputNames_append (stages : Stages) (stage : Stage) (hempty : stage.outputNames = []) (id : StageId) :
    (Stages.get (stages ++ [stage]) id).outputNames = (stages.get id).outputNames := by
  rw [Stages.get_append]
  split
  · rename_i hid
    rw [hempty, get_of_length_le (Nat.le_of_eq hid.symm)]
    rfl
  · rfl

/-- A stage without columns, which does not combine others. -/
theorem changes_pushStage (h : s.stages.length ≤ t.stages.length) {stage : Stage} (hnone : stage.combinations = [])
    (hempty : stage.outputNames = []) (hkept : ∀ id ∈ stage.elements, Kept test s.stages.length t id) :
    Changes test s t { t with stages := t.stages ++ [stage] } := by
  have hnew : OnlyNew (· ∈ stage.elements) t.stages (t.stages ++ [stage]) := onlyNew_append hnone
  have hsame := outputNames_append t.stages stage hempty
  exact ⟨by simp, (touches_pushStage h stage).same, (touches_pushStage h stage).nodes, rfl,
    fun id hid => (hnew.sealed hid).imp_right fun hid => ⟨(hkept id hid).floor, (hkept id hid).bound⟩,
    fun ht => ht.congr hnew (fun id hid => (hkept id hid).shown.congr (hsame id)) fun id _ => hsame id⟩

/-- A change to a stage that is not sealed, and does not combine others anew. -/
theorem changes_modifyStage {id : Nat} (h : s.stages.length ≤ id) (hopen : ¬Sealed t.stages id) {f : Stage → Stage}
    (hf : (f (t.stages.get id)).combinations ⊆ (t.stages.get id).combinations)
    (hkept : ∀ j ∈ (f (t.stages.get id)).elements, j ∈ (t.stages.get id).elements ∨
      j ≠ id ∧ Kept test s.stages.length t j) :
    Changes test s t { t with stages := t.stages.modify id f } := by
  have hnew : OnlyNew (fun j => j ≠ id ∧ Kept test s.stages.length t j) t.stages (t.stages.modify id f) :=
    onlyNew_modify hf hkept
  have hsame (j : StageId) (hj : j ≠ id) :
      (Stages.get (t.stages.modify id f) j).outputNames = (t.stages.get j).outputNames := by
    rw [Stages.get_modify, if_neg fun hid : j = id ∧ _ => hj hid.1]
  refine ⟨by simp, fun j hj => ?_, fun h => h.later rfl (by simp), rfl,
    fun j hj => (hnew.sealed hj).imp_right fun hj => ⟨hj.2.floor, hj.2.bound⟩,
    fun ht => ht.congr hnew (fun j hj => hj.2.shown.congr (hsame j hj.1)) fun j hj => hsame j fun hid => hopen (hid ▸ hj)⟩
  show Stages.get (t.stages.modify id f) j = t.stages.get j
  rw [Stages.get_modify, if_neg (by omega)]

/-- A set operation on stages that were added since. -/
theorem changes_combine (h : s.stages.length ≤ t.stages.length) {kind : SetOpKind} {ids : List StageId} {name : String}
    (hids : ∀ id ∈ ids, s.stages.length ≤ id ∧ id < t.stages.length) {l r : Expr} (htest : test (.setOp kind l r) = true)
    (hnames : List.Forall₂ (LinesUp t.stages) ids (setOpOperands kind l r)) :
    Changes test s t { t with stages := t.stages ++ [.ofSource (.setOp kind ids) name] } := by
  have hcombinations : (Stage.ofSource (.setOp kind ids) name).combinations = [(kind, ids)] := rfl
  have helements : (Stage.ofSource (.setOp kind ids) name).elements = [] := rfl
  have houtput := outputNames_append t.stages (.ofSource (.setOp kind ids) name) rfl
  have hold {j id : StageId} (hid : id ∈ (Stages.get (t.stages ++ [.ofSource (.setOp kind ids) name]) j).elements) :
      id ∈ (t.stages.get j).elements := by
    rw [Stages.get_append] at hid
    split at hid
    · rw [helements] at hid
      cases hid
    · exact hid
  have hlater {id : StageId} {o : Expr} (h : LinesUp t.stages id o) :
      LinesUp (t.stages ++ [.ofSource (.setOp kind ids) name]) id o := fun hflat => (houtput id).trans (h hflat)
  refine ⟨by simp, (touches_pushStage h _).same, (touches_pushStage h _).nodes, rfl, fun id hid => ?_,
    fun ht => ⟨fun j c hc => ?_, fun j id hid => (ht.elements j id (hold hid)).congr (houtput id)⟩⟩
  · obtain ⟨j, ⟨c, hc, hid⟩ | hid⟩ := hid
    · have hc' : c ∈ (Stages.get (t.stages ++ [_]) j).combinations := hc
      rw [Stages.get_append] at hc'
      split at hc'
      · rw [hcombinations] at hc'
        obtain rfl := List.mem_singleton.mp hc'
        exact .inr (hids id hid)
      · exact .inl ⟨j, .inl ⟨c, hc', hid⟩⟩
    · exact .inl ⟨j, .inr (hold hid)⟩
  · have hc' : c ∈ (Stages.get (t.stages ++ [_]) j).combinations := hc
    rw [Stages.get_append] at hc'
    split at hc'
    · rw [hcombinations] at hc'
      obtain rfl := List.mem_singleton.mp hc'
      exact ⟨l, r, htest, hnames.imp fun _ _ => hlater⟩
    · obtain ⟨l, r, htest, hall⟩ := ht.operands j c hc'
      exact ⟨l, r, htest, hall.imp fun _ _ => hlater⟩

end Changes

end Vicinity

end Compile

end TreeSql
