import TreeSql.Proofs.Arena.Runs

/-
  TreeSql.Proofs.Arena.Standing — what is built between two states stands on its own.

  The numbers of stages are no measure of what contains what: a stage around a node refers to an older one, a
  join and a subquery to newer ones. But what is built on from a state refers to nothing before it, along a
  rank that falls (`Standing`). A clause that is attached to a stage from before refers to stages that were all
  built after that one, and none of these refers back. So the stages from before are ranked above all that came
  with the clause (`Standing.attach`).

  A state built on from a well-formed one is well formed (`WellFormed.later`).
-/
namespace TreeSql.Compile

open Sql

variable {L : String → Prop} {b s t u : State} {c : Context}

/-- The stages added between two states refer to each other only, along a rank that falls. -/
def Ranked (L : String → Prop) (b t : State) (rank : StageId → Nat) : Prop :=
  ∀ id, Added b t id → rank id < t.stages.length - b.stages.length ∧
    (t.stages.get id).Fits L fun j => Added b t j ∧ rank j < rank id

/-- What was added stands on its own: new stages refer to new stages, without a circle; new nodes have new stages
    and earlier joins; new bindings are of new nodes. -/
structure Standing (L : String → Prop) (b t : State) : Prop extends Kept b t where
  ranked : ∃ rank, Ranked L b t rank
  parents : ∀ (id : NodeId) (n : Node), b.nodes.length ≤ id → t.nodes[id]? = some n →
    ∀ parent ∈ n.joinParent, parent < id
  bindings : ∀ p ∈ t.bindings, p ∈ b.bindings ∨ AddedNode b t p.2

namespace Standing

theorem refl (L : String → Prop) (s : State) : Standing L s s where
  toKept := .refl s
  ranked := ⟨fun _ => 0, fun _ hid => absurd hid.2 (Nat.not_lt.mpr hid.1)⟩
  parents _ _ hid hn := absurd (List.getElem?_eq_some_iff.mp hn).1 (Nat.not_lt.mpr hid)
  bindings _ hp := .inl hp

/-! ## One after the other -/

theorem added_first {id : StageId} (h : Kept t u) (hid : Added b t id) : Added b u id := hid.mono h.length

theorem added_second {id : StageId} (h : Kept b t) (hid : Added t u id) : Added b u id :=
  ⟨Nat.le_trans h.length hid.1, hid.2⟩

theorem getElem?_nodes (h : Kept s t) {id : NodeId} (hid : id < s.nodes.length) : t.nodes[id]? = s.nodes[id]? := by
  obtain ⟨rest, hrest⟩ := h.nodes
  rw [← hrest, List.getElem?_append_left hid]

theorem kept_trans (h : Kept s t) (h' : Kept t u) : Kept s u where
  length := Nat.le_trans h.length h'.length
  stages id hid := (h.stages id hid).trans (h'.stages id (Nat.lt_of_lt_of_le hid h.length))
  nodes := h.nodes.trans h'.nodes
  lifted := h.lifted.trans h'.lifted
  aliases := Nat.le_trans h.aliases h'.aliases
  fresh id n hid hn a ha := by
    by_cases hlt : id < t.nodes.length
    · rw [getElem?_nodes h' hlt] at hn
      exact added_first h' (h.fresh id n hid hn a ha)
    · exact added_second h (h'.fresh id n (Nat.not_lt.mp hlt) hn a ha)

/-- Of two ranks one above the other. -/
def stacked (t : State) (low high : StageId → Nat) (above : Nat) (id : StageId) : Nat :=
  if id < t.stages.length then high id + above else low id

theorem stacked_first {low high : StageId → Nat} {above : Nat} {id : StageId} (h : id < t.stages.length) :
    stacked t low high above id = high id + above := if_pos h

theorem stacked_second {low high : StageId → Nat} {above : Nat} {id : StageId} (h : t.stages.length ≤ id) :
    stacked t low high above id = low id := if_neg (Nat.not_lt.mpr h)

/-- What the stages that were added first refer to, those added later below them. -/
theorem stacked_falls {low high : StageId → Nat} (h : Kept s t) (h' : Kept t u) (hlow : Ranked L t u low)
    {id j : StageId}
    (hid : Added s t id) (hj : (Added s t j ∧ high j < high id) ∨ Added t u j) :
    Added s u j ∧
      stacked t low high (u.stages.length - t.stages.length) j < stacked t low high
        (u.stages.length - t.stages.length) id := by
  rw [stacked_first hid.2]
  rcases hj with ⟨hj, hlt⟩ | hj
  · rw [stacked_first hj.2]
    exact ⟨added_first h' hj, Nat.add_lt_add_right hlt _⟩
  · rw [stacked_second hj.1]
    exact ⟨added_second h hj, Nat.lt_of_lt_of_le (hlow j hj).1 (Nat.le_add_left _ _)⟩

/-- What is built on from a state, and then on from the next one. Of the stages that were added first, some may have
    got clauses that refer to those added later. -/
theorem onto {v : State} (h : Standing L s t) (h' : Standing L t u) (hkept : Kept s v)
    (hlength : v.stages.length = u.stages.length) (hnodes : v.nodes = u.nodes) (hbindings : v.bindings = u.bindings)
    (hsame : ∀ id, Added t u id → v.stages.get id = u.stages.get id)
    (hmore : ∀ id, Added s t id → ∀ I : StageId → Prop, (∀ j, Added t u j → I j) → (u.stages.get id).Fits L I →
      (v.stages.get id).Fits L I) : Standing L s v where
  toKept := hkept
  ranked := by
    obtain ⟨high, hhigh⟩ := h.ranked
    obtain ⟨low, hlow⟩ := h'.ranked
    have hfirst := h.length
    have hsecond := h'.length
    have hadded {j : StageId} (hj : Added s u j) : Added s v j := ⟨hj.1, hlength ▸ hj.2⟩
    refine ⟨stacked t low high (u.stages.length - t.stages.length), fun id hid => ?_⟩
    rw [hlength]
    by_cases hid' : id < t.stages.length
    · have hid : Added s t id := ⟨hid.1, hid'⟩
      have hbound := (hhigh id hid).1
      have hfalls {j : StageId} (hj : (Added s t j ∧ high j < high id) ∨ Added t u j) :=
        stacked_falls h.toKept h'.toKept hlow hid hj
      refine ⟨by rw [stacked_first hid']; omega, hmore id hid _ (fun j hj => ?_) ?_⟩
      · exact ⟨hadded (hfalls (.inr hj)).1, (hfalls (.inr hj)).2⟩
      · refine ((hhigh id hid).2.extended (h'.stages id hid')).mono fun j hj => ?_
        exact ⟨hadded (hfalls (.inl hj)).1, (hfalls (.inl hj)).2⟩
    · have hid : Added t u id := ⟨Nat.not_lt.mp hid', hlength ▸ hid.2⟩
      have hbound := (hlow id hid).1
      rw [stacked_second hid.1, hsame id hid]
      refine ⟨by omega, (hlow id hid).2.mono fun j hj => ?_⟩
      rw [stacked_second hj.1.1]
      exact ⟨hadded (added_second h.toKept hj.1), hj.2⟩
  parents id n hid hn := by
    rw [hnodes] at hn
    by_cases hlt : id < t.nodes.length
    · rw [getElem?_nodes h'.toKept hlt] at hn
      exact h.parents id n hid hn
    · exact h'.parents id n (Nat.not_lt.mp hlt) hn
  bindings p hp := by
    rw [hbindings] at hp
    rcases h'.bindings p hp with hp | hp
    · exact (h.bindings p hp).imp_right fun hp => ⟨hp.1, hnodes ▸ Nat.lt_of_lt_of_le hp.2 h'.nodes.length_le⟩
    · exact .inr ⟨Nat.le_trans h.nodes.length_le hp.1, hnodes ▸ hp.2⟩

theorem trans (h : Standing L s t) (h' : Standing L t u) : Standing L s u :=
  h.onto h' (kept_trans h.toKept h'.toKept) rfl rfl rfl (fun _ _ => rfl) fun _ _ _ _ h => h

/-- A clause is attached to a stage. It refers to stages that were all built after that one. -/
theorem attach (h : Standing L s t) (h' : Standing L t u) {id : StageId} (hid : Added s t id) {f : Stage → Stage}
    (hf : ∀ (stage : Stage) (I : StageId → Prop), (∀ j, Added t u j → I j) → stage.Fits L I → (f stage).Fits L I) :
    Standing L s { u with stages := u.stages.modify id f } := by
  have hget (j : StageId) := Stages.get_modify u.stages id j f
  refine h.onto h' ((kept_trans h.toKept h'.toKept).modifyStage hid.1 f) (by simp) rfl rfl
    (fun j hj => ?_) fun j _ I hI hfits => ?_
  · have hne : j ≠ id := Nat.ne_of_gt (Nat.lt_of_lt_of_le hid.2 hj.1)
    rw [hget, if_neg fun hsame => hne hsame.1]
  · rw [hget]
    split
    · rename_i hsame
      exact hf _ I hI (hsame.1 ▸ hfits)
    · exact hfits

/-! ## Primitive steps -/

section

variable (h : Standing L b s)

include h

/-- The parts of a state other than its stages, nodes and bindings only grow. -/
theorem other (hstages : t.stages = s.stages) (hnodes : t.nodes = s.nodes) (hbindings : t.bindings = s.bindings)
    (hlifted : s.lifted <+: t.lifted) (haliases : s.aliases ≤ t.aliases) : Standing L b t where
  toKept := h.toKept.other hstages hnodes hlifted haliases
  ranked := by
    unfold Ranked Added
    rw [hstages]
    exact h.ranked
  parents := hnodes ▸ h.parents
  bindings := by
    unfold AddedNode
    rw [hbindings, hnodes]
    exact h.bindings

theorem pushStage {stage : Stage} (hstage : stage.Fits L (Added b s)) :
    Standing L b { s with stages := s.stages ++ [stage] } where
  toKept := h.toKept.pushStage stage
  ranked := by
    obtain ⟨rank, hrank⟩ := h.ranked
    have hbase := h.length
    have hlater {j : StageId} (hj : Added b s j) : Added b { s with stages := s.stages ++ [stage] } j :=
      hj.mono (by simp)
    have hlength : (s.stages ++ [stage]).length = s.stages.length + 1 := by simp
    refine ⟨fun j => if j < s.stages.length then rank j else s.stages.length - b.stages.length, fun id hid => ?_⟩
    dsimp only
    rw [hlength, Stages.get_append]
    by_cases hnew : id < s.stages.length
    · have hid : Added b s id := ⟨hid.1, hnew⟩
      have hbound := (hrank id hid).1
      rw [if_pos hnew, if_neg (Nat.ne_of_lt hnew)]
      refine ⟨by omega, (hrank id hid).2.mono fun j hj => ⟨hlater hj.1, ?_⟩⟩
      rw [if_pos hj.1.2]
      exact hj.2
    · have hbound : id < s.stages.length + 1 := hlength ▸ hid.2
      have hlast : id = s.stages.length := Nat.le_antisymm (Nat.le_of_lt_succ hbound) (Nat.not_lt.mp hnew)
      rw [if_neg hnew, if_pos hlast]
      refine ⟨by omega, hstage.mono fun j hj => ⟨hlater hj, ?_⟩⟩
      rw [if_pos hj.2]
      exact (hrank j hj).1
  parents := h.parents
  bindings := h.bindings

theorem pullColumn (id : StageId) (source column : String) :
    Standing L b { s with
      stages := s.stages.set id ((s.stages.get id).pull source column s.aliases).2.1
      aliases := ((s.stages.get id).pull source column s.aliases).2.2 } where
  toKept := h.toKept.pullColumn id source column
  ranked := by
    obtain ⟨rank, hrank⟩ := h.ranked
    refine ⟨rank, fun j hj => ?_⟩
    unfold Added at hj ⊢
    dsimp only at hj ⊢
    rw [List.length_set] at hj ⊢
    obtain ⟨hbound, hfits⟩ := hrank j hj
    refine ⟨hbound, ?_⟩
    rw [Stages.get_set]
    split
    · rename_i hsame
      obtain ⟨rfl, -⟩ := hsame
      exact hfits.extended (extended_pull _ _ _ _)
    · exact hfits
  parents := h.parents
  bindings := h.bindings

theorem pushNode {node : Node} (hnode : ∀ a ∈ node.selects, Added b s a.stage)
    (hparent : ∀ parent ∈ node.joinParent, parent < s.nodes.length) :
    Standing L b { s with nodes := s.nodes ++ [node] } where
  toKept := h.toKept.pushNode hnode
  ranked := h.ranked
  parents id n hid hn := by
    rw [List.getElem?_append] at hn
    split at hn
    · exact h.parents id n hid hn
    · rename_i hlt
      obtain rfl : n = node := by simpa using List.mem_of_getElem? hn
      exact fun parent hp => Nat.lt_of_lt_of_le (hparent parent hp) (Nat.not_lt.mp hlt)
  bindings p hp := (h.bindings p hp).imp_right fun hp => ⟨hp.1, by simpa using Nat.lt_succ_of_lt hp.2⟩

theorem modifyNode {id : NodeId} (hid : b.nodes.length ≤ id) {f : Node → Node}
    (hf : ∀ n, (∀ a ∈ n.selects, Added b s a.stage) → ∀ a ∈ (f n).selects, Added b s a.stage)
    (hparent : ∀ n : Node, (∀ parent ∈ n.joinParent, parent < id) → ∀ parent ∈ (f n).joinParent, parent < id) :
    Standing L b { s with nodes := s.nodes.modify id f } where
  toKept := h.toKept.modifyNode hid hf
  ranked := h.ranked
  parents j n hj hn := by
    rw [List.getElem?_modify] at hn
    obtain ⟨m, hm, rfl⟩ := Option.map_eq_some_iff.mp hn
    split
    · rename_i hsame
      exact hsame ▸ hparent m (hsame ▸ h.parents j m hj hm)
    · exact h.parents j m hj hm
  bindings p hp := (h.bindings p hp).imp_right fun hp => ⟨hp.1, by simpa using hp.2⟩

theorem bindVar (var : String) {node : NodeId} (hnode : AddedNode b s node) :
    Standing L b { s with bindings := (var, node) :: s.bindings } where
  toKept := h.toKept.other rfl rfl (List.prefix_refl _) (Nat.le_refl _)
  ranked := h.ranked
  parents := h.parents
  bindings := List.forall_mem_cons.mpr ⟨.inr hnode, h.bindings⟩

end

end Standing

/-! ## Well-formed states -/

/-- From a stage that was added, references lead to added stages of a smaller rank. -/
theorem Ranked.falls {rank : StageId → Nat} (h : Ranked L b t rank) {i j : StageId}
    (hij : Relation.TransGen t.stages.Refers i j) (hi : Added b t i) : Added b t j ∧ rank j < rank i := by
  induction hij with
  | single hij => exact (h _ hi).2.inside _ hij
  | tail _ hjk ih =>
    obtain ⟨hk, hlt⟩ := (h _ ih.1).2.inside _ hjk
    exact ⟨hk, Nat.lt_trans hlt ih.2⟩

/-- References from an earlier stage lead to earlier stages, as they did before. -/
theorem Kept.refers_before (h : Kept s t)
    (hinside : ∀ id < s.stages.length, ∀ j ∈ (s.stages.get id).inside, j < s.stages.length)
    {i j : StageId} (hij : Relation.TransGen t.stages.Refers i j) (hi : i < s.stages.length) :
    j < s.stages.length ∧ Relation.TransGen s.stages.Refers i j := by
  have hsame {i j : StageId} (hi : i < s.stages.length) (hij : t.stages.Refers i j) : s.stages.Refers i j := by
    unfold Stages.Refers at hij ⊢
    rwa [Stage.inside_extended (h.stages i hi)] at hij
  induction hij with
  | single hij => exact ⟨hinside i hi _ (hsame hi hij), .single (hsame hi hij)⟩
  | tail _ hjk ih => exact ⟨hinside _ ih.1 _ (hsame ih.1 hjk), ih.2.tail (hsame ih.1 hjk)⟩

/-- A stage that refers to another one is in range. -/
theorem lt_of_refers {stages : Stages} {i j : StageId} (h : stages.Refers i j) : i < stages.length := by
  by_contra hlt
  unfold Stages.Refers Stages.get at h
  rw [List.getElem?_eq_none (Nat.not_lt.mp hlt)] at h
  cases h

theorem WellFormed.later (hs : WellFormed c s) (h : Standing L s t) : WellFormed c t where
  scopes id hid := Nat.lt_of_lt_of_le (hs.scopes id hid) h.length
  bindings p hp := (h.bindings p hp).elim (fun hp => Nat.lt_of_lt_of_le (hs.bindings p hp) h.nodes.length_le) (·.2)
  selects n hn := by
    obtain ⟨id, hn⟩ := List.mem_iff_getElem?.mp hn
    refine ⟨List.cons_ne_nil _ _, fun a ha => ?_⟩
    by_cases hid : id < s.nodes.length
    · rw [Standing.getElem?_nodes h.toKept hid] at hn
      exact Nat.lt_of_lt_of_le ((hs.selects n (List.mem_of_getElem? hn)).2 a ha) h.length
    · exact (h.fresh id n (Nat.not_lt.mp hid) hn a ha).2
  parents id n hn := by
    by_cases hid : id < s.nodes.length
    · rw [Standing.getElem?_nodes h.toKept hid] at hn
      exact hs.parents id n hn
    · exact h.parents id n (Nat.not_lt.mp hid) hn
  inside id hid j hj := by
    by_cases hold : id < s.stages.length
    · rw [Stage.inside_extended (h.stages id hold)] at hj
      exact Nat.lt_of_lt_of_le (hs.inside id hold j hj) h.length
    · obtain ⟨rank, hrank⟩ := h.ranked
      exact ((hrank id ⟨Nat.not_lt.mp hold, hid⟩).2.inside j hj).1.2
  acyclic id hcircle := by
    by_cases hold : id < s.stages.length
    · exact hs.acyclic id (h.refers_before hs.inside hcircle hold).2
    · obtain ⟨k, hfirst, -⟩ := Relation.TransGen.head'_iff.mp hcircle
      obtain ⟨rank, hrank⟩ := h.ranked
      exact Nat.lt_irrefl _ (hrank.falls hcircle ⟨Nat.not_lt.mp hold, lt_of_refers hfirst⟩).2

theorem WellFormed.inScope (hs : WellFormed c s) {id : StageId} (hid : id < s.stages.length) :
    WellFormed { c with scopes := id :: c.scopes } s :=
  { hs with scopes := List.forall_mem_cons.mpr ⟨hid, hs.scopes⟩ }

end TreeSql.Compile
