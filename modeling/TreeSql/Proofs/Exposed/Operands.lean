import TreeSql.Proofs.Exposed.Joins

/-
  TreeSql.Proofs.Exposed.Operands — set operations on operands that expose their members.

  The operands are compiled one by one, and each exposes its members before the next one is compiled. Columns are
  not pulled through its stage after that, so that it exposes the same members when all are combined.
-/
namespace TreeSql.Compile.Vicinity

open Sql

variable {V : Vicinity} {p : Parts} {s t u : State} {e : Expr} {f : Face} {node : NodeId} {var : String} {c : Context}

/-! ## One operand -/

theorem set_get_eq_modify (stages : Stages) (stage : StageId) (g : Stage → Stage) :
    stages.set stage (g (stages.get stage)) = stages.modify stage g := by
  refine List.ext_getElem (by simp) fun j hj _ => ?_
  rw [List.getElem_set, List.getElem_modify]
  split
  · rename_i hsame
    subst hsame
    have hbound : stage < stages.length := by simpa using hj
    rw [Stages.get, List.getElem?_eq_getElem hbound]
    rfl
  · rfl

/-- Members are pulled through a stage under their names. -/
theorem gives_pullMembers_plain {stage : StageId} {source : String} {members : List Member} {r : Unit}
    (hplain : Plain source (s.stages.get stage)) (hrun : Gives (exposeMembers.pullMembers stage source members) c s r t) :
    t = { s with stages := s.stages.modify stage (·.expose source (members.map (·.name))) } := by
  induction members generalizing s with
  | nil =>
    obtain ⟨-, rfl⟩ := gives_pure.mp hrun
    show t = { t with stages := t.stages.modify stage id }
    rw [List.modify_id]
  | cons m members ih =>
    obtain ⟨name, u, hpull, hrest⟩ := gives_bind.mp hrun
    obtain ⟨-, rfl⟩ := gives_pullColumn.mp hpull
    rw [pull_plain hplain, set_get_eq_modify s.stages stage (·.expose source [m.name])] at hrest
    have hplain' : Plain source (Stages.get (s.stages.modify stage (·.expose source [m.name])) stage) := by
      rw [Stages.get_modify]
      split
      · exact plain_expose hplain _
      · exact hplain
    rw [ih hplain' hrest, List.modify_modify_eq]
    rfl

/-- The open stage of a node exposes the members of the rows, if their type names them. -/
theorem Stands.expose (h : Stands V s t f node) {type : DataType}
    (hrun : Gives (exposeMembers (nodeAt t.nodes node).last.stage type) c t () u) :
    V.After s u ∧ (nodeAt t.nodes node).last.stage < u.stages.length ∧
      (type.memberNames = f.members → type.memberNames.Nodup →
        (u.stages.get (nodeAt t.nodes node).last.stage).outputNames = type.memberNames) := by
  have hlast := h.last
  have hlisting (hmembers : type.memberNames = f.members) (hnodup : type.memberNames.Nodup) (hlisted : f.listed = true) :
      (t.stages.get (nodeAt t.nodes node).last.stage).outputNames = type.memberNames :=
    (h.open_.listed hlisted (hmembers ▸ hnodup)).trans hmembers.symm
  have hnames : type.memberNames = (type.elementOrSelf.members?.getD []).map (·.name) := by
    rw [members_elementOrSelf]
    rfl
  rcases exposeMembers_inv hrun with
    ⟨hnot, rfl⟩ | ⟨⟨hnone, hpulled⟩, ⟨item, members, hfrom, htype, hpull⟩ | ⟨hitem, rfl⟩⟩
  · refine ⟨h.after, hlast.bound, fun hmembers hnodup => ?_⟩
    cases hlisted : f.listed with
    | true => exact hlisting hmembers hnodup hlisted
    | false =>
      have hblank := (h.open_.unlisted hlisted).1
      exact (hnot ⟨hblank.projection, hblank.pulled⟩).elim
  · have hblank : Blank (t.stages.get (nodeAt t.nodes node).last.stage) := ⟨hnone, hpulled⟩
    rw [gives_pullMembers_plain (plain_of_pulled hpulled) hpull]
    refine ⟨h.after.change (changes_modifyStage hlast.among hlast.unsealed ?_ fun id hid => .inl ?_),
      by simpa using hlast.bound, fun _ hnodup => ?_⟩
    · exact combinations_of_from (wider_expose _ _ _).from_eq
    · exact Stage.elements_wider (wider_expose _ _ _) ▸ hid
    · rw [htype] at hnames
      rw [Stages.get_modify, if_pos ⟨rfl, hlast.bound⟩]
      refine (outputNames_expose hblank item.name (hnames ▸ hnodup) (wider_expose _ _ _).projection rfl).trans hnames.symm
  · refine ⟨h.after, hlast.bound, fun hmembers hnodup => ?_⟩
    cases hlisted : f.listed with
    | true => exact hlisting hmembers hnodup hlisted
    | false =>
      -- a stage without one item has no members to expose
      have hblank : Blank (u.stages.get (nodeAt u.nodes node).last.stage) := ⟨hnone, hpulled⟩
      rw [hblank.outputNames, eq_comm, hmembers]
      refine Classical.by_contradiction fun hne => ?_
      obtain ⟨i, hfrom⟩ := (h.open_.unlisted hlisted).2 hne
      cases htype : type.elementOrSelf.members? with
      | none => exact hne (hmembers.symm.trans (by rw [hnames, htype]; rfl))
      | some members => exact hitem i members hfrom htype

/-! ## All operands -/

theorem operandStages_exposed (hp : Sound p) {es : List Expr} {place : Nat} {ids : List StageId}
    (hes : ∀ e ∈ es, e.resolves none V.scope = true ∧ e.everyNode V.test = true)
    (hfree : V.Free (Expr.bindersOfAll es)) (hok : V.Ok s)
    (hrun : Gives (operandStages p var place es) V.context s ids t) :
    V.After s t ∧ (∀ id ∈ ids, s.stages.length ≤ id ∧ id < t.stages.length) ∧
      List.Forall₂ (LinesUp t.stages) ids es := by
  induction es generalizing s place ids with
  | nil =>
    obtain ⟨rfl, rfl⟩ := gives_pure.mp hrun
    exact ⟨.refl _, by simp, .nil⟩
  | cons e es ih =>
    obtain ⟨child, t₁, _, t₂, t₃, ids, hrows, hopen, hexpose, hrest, rfl⟩ := operandStages_inv hrun
    obtain ⟨rfl, rfl⟩ := gives_openStage_iff.mp hopen
    obtain ⟨he, hnodes⟩ := hes e (.head _)
    have hbinders : V.Free (e.binders ++ Expr.bindersOfAll es) := hfree
    have hgenerated : Generated (operandName var place) := .inr ⟨_, _, rfl⟩
    have h := (hp.rows V (suits_of_resolves he hbinders.left hnodes) (fun hname => hfree.names _ hname hgenerated)
      (fun hvar => hbinders.left.given _ hvar hgenerated) hok hrows).forget
    obtain ⟨hafter, hbound, hnames⟩ := h.expose hexpose
    obtain ⟨hlater, hids, hothers⟩ := ih (fun e he => hes e (.tail _ he)) hbinders.right (hok.after hafter) hrest
    refine ⟨hafter.trans hlater, fun id hid => ?_, .cons (fun hflat => ?_) hothers⟩
    · rcases List.mem_cons.mp hid with rfl | hid
      · exact ⟨h.last.among, Nat.lt_of_lt_of_le hbound hlater.length⟩
      · exact ⟨Nat.le_trans hafter.length (hids id hid).1, (hids id hid).2⟩
    · -- the operands after this one do not pull columns through its stage
      rw [hlater.same _ hbound (h.outside hok)]
      exact hnames hflat.1 hflat.2

section

variable {kind : SetOpKind} {l r : Expr} (he : V.Suits (.setOp kind l r)) (hok : V.Ok s)

include he hok

theorem operandStages_setOp (hp : Sound p) {ids : List StageId}
    (hrun : Gives (operandStages p var 0 (setOpOperands kind l r)) V.context s ids t) :
    V.After s t ∧ (∀ id ∈ ids, s.stages.length ≤ id ∧ id < t.stages.length) ∧
      List.Forall₂ (LinesUp t.stages) ids (setOpOperands kind l r) := by
  obtain ⟨hboth, -⟩ := Bool.and_eq_true_iff.mp he.valued.1
  obtain ⟨hl, hr⟩ := Bool.and_eq_true_iff.mp hboth
  obtain ⟨hbinders, hresolves, -⟩ := operands_setOp kind hl hr
  obtain ⟨-, hnodes⟩ := Bool.and_eq_true_iff.mp he.nodes
  obtain ⟨hnodesL, hnodesR⟩ := Bool.and_eq_true_iff.mp hnodes
  have hfree : V.Free (Expr.bindersOfAll (setOpOperands kind l r)) := hbinders ▸ he.free
  have hes (o : Expr) (ho : o ∈ setOpOperands kind l r) :
      o.resolves none V.scope = true ∧ o.everyNode V.test = true :=
    ⟨hresolves o ho, everyNode_setOpOperands kind hnodesL hnodesR o ho⟩
  exact operandStages_exposed hp hes hfree hok hrun

theorem stands_setOpRows (hp : Sound p) (hrun : Gives (setOpRows p kind l r var) V.context s node t) :
    Stands V s t ((Expr.setOp kind l r).face none) node := by
  obtain ⟨ids, t₁, hoperands, hpush⟩ := gives_bind.mp hrun
  obtain ⟨rfl, rfl⟩ := gives_pushSource.mp hpush
  obtain ⟨hafter, hids, hnames⟩ := operandStages_setOp he hok hp hoperands
  have htest : V.test (.setOp kind l r) = true := (Bool.and_eq_true_iff.mp he.nodes).1
  refine stands_source hafter (hafter.change (changes_combine hafter.length hids htest hnames)) (fun hsealed => ?_)
    rfl rfl rfl rfl rfl
  -- the stage that combines the operands is none of them
  obtain ⟨j, hj⟩ := hsealed
  rw [Stages.get_append] at hj
  split at hj
  · obtain ⟨c, hc, hmem⟩ | hmem := hj
    · have hc : c ∈ [(kind, ids)] := hc
      obtain rfl := List.mem_singleton.mp hc
      exact Nat.lt_irrefl _ (hids _ hmem).2
    · exact absurd hmem List.not_mem_nil
  · exact Nat.lt_irrefl _ ((hok.after hafter).sealed _ ⟨j, hj⟩)

/-- The operands that are combined for a set operation are its own, one by one, and they line up. -/
theorem combined_setOpRows (hp : Sound p) (hrun : Gives (setOpRows p kind l r var) V.context s node t) :
    ∃ ids, (t.stages.get (nodeAt t.nodes node).first.stage).combinations = [(kind, ids)] ∧
      (∀ id ∈ ids, s.stages.length ≤ id ∧ id < t.stages.length) ∧
      List.Forall₂ (LinesUp t.stages) ids (setOpOperands kind l r) := by
  obtain ⟨ids, t₁, hoperands, hpush⟩ := gives_bind.mp hrun
  obtain ⟨rfl, rfl⟩ := gives_pushSource.mp hpush
  obtain ⟨-, hids, hnames⟩ := operandStages_setOp he hok hp hoperands
  refine ⟨ids, ?_, fun id hid => ⟨(hids id hid).1, ?_⟩, hnames.imp fun id o hlines hflat => ?_⟩
  · simp [nodeAt, Stages.get_append]
    rfl
  · simpa using Nat.lt_succ_of_lt (hids id hid).2
  · exact (outputNames_append t₁.stages _ rfl id).trans (hlines hflat)

end

end TreeSql.Compile.Vicinity
