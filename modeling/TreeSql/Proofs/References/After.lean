import TreeSql.Compile.Column
import TreeSql.Proofs.Compile.Pulling
import TreeSql.Proofs.References.Closed

/-
  TreeSql.Proofs.References.After — states later in a compilation.

  A step adds stages, nodes and bindings, and pulls columns through stages that were there before:
  only through those that it may (`can`), from sources that these stages can see, and without renaming
  where all columns of a stage come from one alias (`label`). Names in use stay bound (`taken`).
-/
namespace TreeSql.Compile

open Sql

/-! ## Aliases of stages -/

/-- A stage over a join, or over nothing yet: its columns come from several aliases. -/
def Merges (s : Stage) : Prop := s.projection = none ∧ ∀ i, s.from_ ≠ some (.item i)

/-- The alias that columns of a stage are pulled from: that of the latest node that starts there, or that of
    the source. -/
def label (s : State) (id : StageId) : String :=
  match (s.nodes.map (·.first)).reverse.find? (·.stage == id) with
  | some a => a.name
  | none =>
    match (s.stages.get id).from_ with
    | some (.item i) => i.name
    | _ => ""

theorem merges_wider {s t : Stage} (h : Wider s t) : Merges t ↔ Merges s := by
  unfold Merges
  rw [h.projection, h.from_eq]

theorem label_later {s t : State} {new : List Node} {id : Nat} (hnodes : t.nodes = s.nodes ++ new)
    (hnew : ∀ n ∈ new, n.first.stage ≠ id) (hfrom : (t.stages.get id).from_ = (s.stages.get id).from_) :
    label t id = label s id := by
  have hnone : (new.map (·.first)).reverse.find? (·.stage == id) = none := by
    rw [List.find?_eq_none]
    intro a ha
    obtain ⟨n, hn, rfl⟩ := List.mem_map.mp (List.mem_reverse.mp ha)
    simpa using hnew n hn
  rw [label, label, hnodes, hfrom, List.map_append, List.reverse_append, List.find?_append, hnone]
  rfl

theorem label_congr {s t : State} {id : StageId} (hnodes : t.nodes.map (·.first) = s.nodes.map (·.first))
    (hfrom : (t.stages.get id).from_ = (s.stages.get id).from_) : label t id = label s id := by
  rw [label, label, hnodes, hfrom]

theorem map_first_modify (nodes : List Node) (id : NodeId) {f : Node → Node} (hf : ∀ n, (f n).first = n.first) :
    (nodes.modify id f).map (·.first) = nodes.map (·.first) := by
  refine List.ext_getElem? fun i => ?_
  rw [List.getElem?_map, List.getElem?_map, List.getElem?_modify]
  cases nodes[i]? with
  | none => rfl
  | some n => by_cases h : id = i <;> simp [h, hf]

/-! ## Later states -/

/-- A pulled column that the stage can see, from the alias of the stage unless it merges several. -/
structure Fits (schema : Option Schema) (s : State) (later : Stages) (id : StageId) (p : Pulled) : Prop where
  visible : (s.stages.get id).projection = none →
    Found schema later (s.stages.get id).items (p.source, p.column)
  plain : ¬Merges (s.stages.get id) → p.source = label s id ∧ p.name = p.column

/-- Nodes were added that start at added stages. -/
structure AddedNodes (s t : State) : Prop where
  added : ∃ new, t.nodes = s.nodes ++ new ∧
    ∀ n ∈ new, s.stages.length ≤ n.first.stage ∧ n.first.stage < t.stages.length

structure After (schema : Option Schema) (can : StageId → Prop) (taken : String → Prop) (s t : State) : Prop where
  length : s.stages.length ≤ t.stages.length
  wider : ∀ id < s.stages.length, Wider (s.stages.get id) (t.stages.get id)
  pulled : ∀ id < s.stages.length, ∀ p ∈ (t.stages.get id).pulled,
    p ∈ (s.stages.get id).pulled ∨ (can id ∧ Fits schema s t.stages id p)
  nodes : AddedNodes s t
  lookup : ∀ x, taken x → t.bindings.lookup x = s.bindings.lookup x
  aliases : s.aliases ≤ t.aliases

theorem AddedNodes.refl (s : State) : AddedNodes s s := ⟨[], by simp, by simp⟩

section

variable {schema : Option Schema} {can can' : StageId → Prop} {taken taken' : String → Prop} {s t u : State}

theorem After.shown (h : After schema can taken s t) : Shown s.stages t.stages := shown_of_wider h.wider

theorem After.grown {among : StageId → Prop} (h : After schema can taken s t) :
    Grown schema among s.stages t.stages where
  length := h.length
  shown := h.shown
  wider id _ := h.wider id
  visible id _ hid hnone p hp := by
    have hwider := h.wider id hid
    rw [wider_items hwider]
    exact (h.pulled id hid p hp).imp_right fun hp => hp.2.visible (hwider.projection ▸ hnone)

theorem After.label (h : After schema can taken s t) {id : Nat} (hid : id < s.stages.length) :
    label t id = label s id := by
  obtain ⟨new, hnodes, hnew⟩ := h.nodes.added
  refine label_later hnodes (fun n hn hstage => ?_) (h.wider id hid).from_eq
  exact Nat.lt_irrefl _ (Nat.lt_of_lt_of_le hid (hstage ▸ (hnew n hn).1))

theorem After.refl (s : State) : After schema can taken s s where
  length := Nat.le_refl _
  wider _ _ := .refl _
  pulled _ _ _ hp := .inl hp
  nodes := .refl s
  lookup _ _ := rfl
  aliases := Nat.le_refl _

/-- Steps that may do more in between, with stages that were not there at the start. -/
theorem After.trans_of (h : After schema can taken s t) (h' : After schema can' taken' t u)
    (hcan : ∀ id < s.stages.length, can' id → can id) (htaken : ∀ x, taken x → taken' x) :
    After schema can taken s u where
  length := Nat.le_trans h.length h'.length
  wider id hid := (h.wider id hid).trans (h'.wider id (Nat.lt_of_lt_of_le hid h.length))
  pulled id hid p hp := by
    have hid' : id < t.stages.length := Nat.lt_of_lt_of_le hid h.length
    have hwider := h.wider id hid
    rcases h'.pulled id hid' p hp with hp | ⟨hid', hfits⟩
    · refine (h.pulled id hid p hp).imp_right fun ⟨hid, hfits⟩ => ⟨hid, ⟨fun hnone => ?_, hfits.plain⟩⟩
      exact h'.shown.found (hfits.visible hnone)
    · refine .inr ⟨hcan id hid hid', fun hnone => ?_, fun hmerges => ?_⟩
      · rw [← wider_items hwider]
        exact hfits.visible (hwider.projection.trans hnone)
      · rw [← h.label hid]
        exact hfits.plain (fun hm => hmerges ((merges_wider hwider).mp hm))
  nodes := by
    obtain ⟨new, hnodes, hnew⟩ := h.nodes.added
    obtain ⟨new', hnodes', hnew'⟩ := h'.nodes.added
    refine ⟨new ++ new', by rw [hnodes', hnodes, List.append_assoc], fun n hn => ?_⟩
    rcases List.mem_append.mp hn with hn | hn
    · obtain ⟨hle, hlt⟩ := hnew n hn
      exact ⟨hle, Nat.lt_of_lt_of_le hlt h'.length⟩
    · obtain ⟨hle, hlt⟩ := hnew' n hn
      exact ⟨Nat.le_trans h.length hle, hlt⟩
  lookup x hx := (h'.lookup x (htaken x hx)).trans (h.lookup x hx)
  aliases := Nat.le_trans h.aliases h'.aliases

theorem After.trans (h : After schema can taken s t) (h' : After schema can taken t u) :
    After schema can taken s u := h.trans_of h' (fun _ _ hid => hid) fun _ hx => hx

/-- A change to what was added since. -/
structure Touches (s t u : State) : Prop where
  length : t.stages.length ≤ u.stages.length
  shown : Shown t.stages u.stages
  same : ∀ id < s.stages.length, u.stages.get id = t.stages.get id
  nodes : AddedNodes s t → AddedNodes s u
  bindings : u.bindings = t.bindings
  aliases : t.aliases ≤ u.aliases

theorem After.touch (h : After schema can taken s t) (h' : Touches s t u) : After schema can taken s u where
  length := Nat.le_trans h.length h'.length
  wider id hid := by
    rw [h'.same id hid]
    exact h.wider id hid
  pulled id hid p hp := by
    rw [h'.same id hid] at hp
    refine (h.pulled id hid p hp).imp_right fun ⟨hid, hfits⟩ => ⟨hid, ⟨fun hnone => ?_, hfits.plain⟩⟩
    exact h'.shown.found (hfits.visible hnone)
  nodes := h'.nodes h.nodes
  lookup x hx := by
    rw [h'.bindings]
    exact h.lookup x hx
  aliases := Nat.le_trans h.aliases h'.aliases

/-! ## Ways that stay open -/

/-- Nothing that columns are pulled by is changed in some of the stages: what they select from, whether they have
    a select list, and which columns may be pulled. -/
structure Steady (among : StageId → Prop) (s t : State) : Prop where
  length : s.stages.length ≤ t.stages.length
  from_eq : ∀ id, among id → id < s.stages.length → (t.stages.get id).from_ = (s.stages.get id).from_
  projection : ∀ id, among id → id < s.stages.length → (t.stages.get id).projection = (s.stages.get id).projection
  pulled : ∀ id, among id → id < s.stages.length → ∀ p ∈ (t.stages.get id).pulled,
    p ∈ (s.stages.get id).pulled ∨ (¬Merges (s.stages.get id) → p.source = label s id ∧ p.name = p.column)
  label : ∀ id, among id → id < s.stages.length → label t id = label s id
  shown : Shown s.stages t.stages

theorem After.steady {among : StageId → Prop} (h : After schema can taken s t) : Steady among s t where
  length := h.length
  from_eq id _ hid := (h.wider id hid).from_eq
  projection id _ hid := (h.wider id hid).projection
  pulled _ _ hid p hp := (h.pulled _ hid p hp).imp_right fun hp => hp.2.plain
  label _ _ hid := h.label hid
  shown := h.shown

/-- Some of the stages are the same, and have the same labels. -/
theorem steady_of_same {among : StageId → Prop} (hlength : s.stages.length ≤ t.stages.length)
    (hshown : Shown s.stages t.stages)
    (hsame : ∀ id, among id → id < s.stages.length → t.stages.get id = s.stages.get id)
    (hlabel : ∀ id, among id → id < s.stages.length → label t id = label s id) : Steady among s t where
  length := hlength
  from_eq id hamong hid := by rw [hsame id hamong hid]
  projection id hamong hid := by rw [hsame id hamong hid]
  pulled id hamong hid p hp := by
    rw [hsame id hamong hid] at hp
    exact .inl hp
  label := hlabel
  shown := hshown

/-! ## Primitive changes -/

theorem AddedNodes.later (h : AddedNodes s t) (hnodes : u.nodes = t.nodes)
    (hlength : t.stages.length ≤ u.stages.length) : AddedNodes s u := by
  obtain ⟨new, hs, hnew⟩ := h.added
  exact ⟨new, hnodes.trans hs, fun n hn => ⟨(hnew n hn).1, Nat.lt_of_lt_of_le (hnew n hn).2 hlength⟩⟩

/-- Only constants and aliases are new. -/
theorem touches_counters {lifted : List Value} {aliases : Nat} (h : t.aliases ≤ aliases) :
    Touches s t { t with lifted, aliases } :=
  ⟨Nat.le_refl _, fun _ _ h => h, fun _ _ => rfl, fun h => h.later rfl (Nat.le_refl _), rfl, h⟩

theorem touches_pushStage (h : s.stages.length ≤ t.stages.length) (stage : Stage) :
    Touches s t { t with stages := t.stages ++ [stage] } where
  length := by simp
  shown := shown_append stage
  same id hid := by
    show Stages.get (t.stages ++ [stage]) id = t.stages.get id
    rw [Stages.get_append, if_neg (by omega)]
  nodes h := h.later rfl (by simp)
  bindings := rfl
  aliases := Nat.le_refl _

theorem touches_modifyStage {id : Nat} (h : s.stages.length ≤ id) {f : Stage → Stage}
    (hf : (t.stages.get id).outputNames ⊆ (f (t.stages.get id)).outputNames) :
    Touches s t { t with stages := t.stages.modify id f } where
  length := by simp
  shown := shown_modify hf
  same j hj := by
    show Stages.get (t.stages.modify id f) j = t.stages.get j
    rw [Stages.get_modify, if_neg (by omega)]
  nodes h := h.later rfl (by simp)
  bindings := rfl
  aliases := Nat.le_refl _

theorem touches_pushNode {node : Node} (h : s.stages.length ≤ node.first.stage)
    (h' : node.first.stage < t.stages.length) : Touches s t { t with nodes := t.nodes ++ [node] } where
  length := Nat.le_refl _
  shown _ _ h := h
  same _ _ := rfl
  nodes hadded := by
    obtain ⟨new, hs, hnew⟩ := hadded.added
    refine ⟨new ++ [node], by simp [hs], fun n hn => ?_⟩
    rcases List.mem_append.mp hn with hn | hn
    · exact hnew n hn
    · obtain rfl : n = node := by simpa using hn
      exact ⟨h, h'⟩
  bindings := rfl
  aliases := Nat.le_refl _

theorem modify_append_right {α : Type} (l l' : List α) {n : Nat} (h : l.length ≤ n) (f : α → α) :
    (l ++ l').modify n f = l ++ l'.modify (n - l.length) f := by
  induction l generalizing n with
  | nil => simp
  | cons x l ih =>
    obtain ⟨k, rfl⟩ : ∃ k, n = k + 1 := ⟨n - 1, by simp at h; omega⟩
    simp only [List.cons_append, List.modify_succ_cons, List.length_cons, Nat.add_sub_add_right]
    rw [ih (by simpa using h)]

theorem touches_modifyNode {id : Nat} (h : s.nodes.length ≤ id) {f : Node → Node}
    (hf : ∀ n, (f n).first = n.first) : Touches s t { t with nodes := t.nodes.modify id f } where
  length := Nat.le_refl _
  shown _ _ h := h
  same _ _ := rfl
  nodes hadded := by
    obtain ⟨new, hs, hnew⟩ := hadded.added
    refine ⟨new.modify (id - s.nodes.length) f, ?_, fun n hn => ?_⟩
    · show t.nodes.modify id f = _
      rw [hs, modify_append_right _ _ h]
    · obtain ⟨i, hi, hget⟩ := List.mem_iff_getElem.mp hn
      rw [List.getElem_modify] at hget
      have hold := hnew _ (List.getElem_mem (by simpa using hi))
      split at hget
      · rw [← hget, hf]
        exact hold
      · rw [← hget]
        exact hold
  bindings := rfl
  aliases := Nat.le_refl _

theorem Touches.trans {v : State} (h : Touches s t u) (h' : Touches s u v) : Touches s t v where
  length := Nat.le_trans h.length h'.length
  shown id _ hname := h'.shown id (h.shown id hname)
  same id hid := (h'.same id hid).trans (h.same id hid)
  nodes hadded := h'.nodes (h.nodes hadded)
  bindings := h'.bindings.trans h.bindings
  aliases := Nat.le_trans h.aliases h'.aliases

/-- A name that was not in use is bound. -/
theorem After.bind (h : After schema can taken s t) {var : String} (hvar : ¬taken var) (node : NodeId) :
    After schema can taken s { t with bindings := (var, node) :: t.bindings } where
  length := h.length
  wider := h.wider
  pulled := h.pulled
  nodes := h.nodes.later rfl (Nat.le_refl _)
  lookup x hx := by
    have hne : x ≠ var := fun he => hvar (he ▸ hx)
    rw [List.lookup_cons, beq_false_of_ne hne]
    exact h.lookup x hx
  aliases := h.aliases

end

end TreeSql.Compile
