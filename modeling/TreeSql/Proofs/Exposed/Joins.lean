import TreeSql.Proofs.Exposed.SelectLists
import TreeSql.Proofs.References.Joins

/-
  TreeSql.Proofs.Exposed.Joins — trees of joins.

  The stage of a join lists nothing, and its sides are stages of their own: none of the items combines stages
  (`Sided`). The columns of each side come out through the stages of its node, and go on through the stage of
  the join. The elements in the conditions are not among those stages, though they stand nowhere yet while the
  rest of the FROM clause is compiled.
-/
namespace TreeSql.Compile.Vicinity

open Sql

variable {V : Vicinity} {p : Parts} {s t u : State} {e : Expr} {node : NodeId} {v var : String} {stage : StageId}
  {scope : Scope} {from_ : FromTree} {used rest : List String}

/-! ## Sides -/

/-- The node of a join, with the stage that the sides are joined in. -/
structure Joint (s : State) (node : NodeId) (stage : StageId) : Prop where
  added : node < s.nodes.length
  bound : stage < s.stages.length
  track : ∃ name, Compile.track s.nodes node = [⟨name, stage⟩]

theorem Joint.after (h : Joint s node stage) (hafter : V.After s t) : Joint t node stage := by
  obtain ⟨new, hnodes, -⟩ := hafter.nodes.added
  refine ⟨Nat.lt_of_lt_of_le h.added (length_nodes hafter), Nat.lt_of_lt_of_le h.bound hafter.length, ?_⟩
  rw [hnodes, track_append new h.added]
  exact h.track

/-- The stages that were added, but for the elements in a FROM clause. -/
def Beside (s : State) (from_ : FromTree) (id : StageId) : Prop := s.stages.length ≤ id ∧ id ∉ from_.elements

/-- Part of the FROM clause of a join, with the variables that it brings into scope. -/
structure Sided (V : Vicinity) (s t : State) (node : NodeId) (scope : Scope) (from_ : FromTree) : Prop where
  after : V.After s t
  uncombined : ∀ i ∈ from_.items, i.source.combination? = none
  kept : ∀ id ∈ from_.elements, Kept V.test s.stages.length t id
  sides : ∀ x columns, (x, columns) ∈ scope → Led (Beside s from_) t node [] x

theorem joinSide_sided (hp : Sound p) (hnode : node < s.nodes.length) (he : V.Suits e) (hname : var ∉ V.names)
    (hvar : var ∉ e.binders) (hok : V.Ok s) {item : FromItem} (hrun : Gives (joinSide p node e var) V.context s item t)
    (forceSubquery : Bool) :
    Sided V s t node ((e.face none).bind var).sides (.item { item with forceSubquery }) := by
  obtain ⟨child, t₁, _, hrows, hopen, rfl⟩ := joinSide_inv hrun
  obtain ⟨rfl, rfl⟩ := gives_openStage_iff.mp hopen
  have h := hp.rows V he hname hvar hok hrows
  have hcalm : Calm (fun _ => True) t₁ { t₁ with
      nodes := t₁.nodes.modify child fun n => { n with joinParent := some node } } :=
    calm_of_columns (Nat.le_refl _) (map_first_modify _ _ fun _ => rfl) (fun _ _ _ => rfl) (fun _ _ _ => rfl)
      fun _ _ _ h => h
  refine ⟨h.after.change (changes_modifyNode h.added.1 fun _ => rfl), fun i hi => ?_,
    fun _ hid => absurd hid List.not_mem_nil, fun x columns hx => ?_⟩
  · obtain rfl := List.mem_singleton.mp hi
    rfl
  · obtain ⟨id, l, hlookup, hid, hunder, hway⟩ := h.sides x columns hx
    refine ⟨id, _, hlookup, by simpa using hid,
      hunder.join h.added.2 (Nat.lt_of_lt_of_le hnode h.added.1), ?_⟩
    have hfirst : (nodeAt (t₁.nodes.modify child fun n => { n with joinParent := some node }) id).first =
        (nodeAt t₁.nodes id).first := by
      by_cases hchild : child = id
      · rw [← hchild, nodeAt_modify _ _ _ h.added.2]
      · rw [nodeAt_modify_ne _ _ hchild]
    rw [hfirst, List.append_nil]
    exact (hway.calm hcalm fun _ _ => trivial).mono fun id _ hid => ⟨hid, List.not_mem_nil⟩

/-! ## Inside the FROM clause -/

theorem Sided.later (h : Sided V s t node scope from_) {V' : Vicinity} (hafter : V'.After t u) (hall : V.After s u)
    (hcan : ∀ id ∈ from_.elements, ¬V'.can id) (hnames : ∀ x columns, (x, columns) ∈ scope → x ∈ V'.names) :
    Sided V s u node scope from_ where
  after := hall
  uncombined := h.uncombined
  kept id hid :=
    have hkept := h.kept id hid
    ⟨hkept.floor, Nat.lt_of_lt_of_le hkept.bound hafter.length,
      hkept.shown.congr (by rw [hafter.same id hkept.bound (hcan id hid)])⟩
  sides x columns hx := (h.sides x columns hx).after hafter (hnames x columns hx)

/-- More elements may be added later. -/
theorem Sided.led (h : Sided V s t node scope from_) {from' : FromTree}
    (helements : ∀ id ∈ from'.elements, id ∈ from_.elements ∨ t.stages.length ≤ id) {x : String} {columns : Columns}
    (hx : (x, columns) ∈ scope) : Led (Beside s from') t node [] x := by
  refine (h.sides x columns hx).mono fun id hbound hid => ⟨hid.1, fun hmem => ?_⟩
  exact (helements id hmem).elim hid.2 (Nat.not_le.mpr hbound)

/-- Columns are not pulled through the elements. -/
theorem Sided.outside (h : Sided V s t node scope from_) (hok : V.Ok s) {id : StageId} (hid : id ∈ from_.elements) :
    ¬V.can id := hok.outside (h.kept id hid).floor

theorem Sided.apart (h : Sided V s t node scope from_) (hok : V.Ok s) {scopes : List StageId} {scope' : Scope} :
    ∀ id ∈ from_.elements, ¬(V.enter scopes scope' used (Passable (Beside s from_) t)).can id := by
  rintro id hid (hcan | hcan)
  · exact h.outside hok hid hcan
  · exact hcan.among.2 hid

/-- Where the sides of a join are seen. -/
theorem Sided.ok (h : Sided V s t node scope from_) (hnode : Joint s node stage) (hok : V.Ok s)
    (hused : ∀ x columns, (x, columns) ∈ scope → x ∈ used) :
    (V.enter [stage] scope used (Passable (Beside s from_) t)).Ok t := by
  have hlater := hnode.after h.after
  obtain ⟨name, htrack⟩ := hlater.track
  refine ok_enter (hok.after h.after) (fun x columns hx => ⟨hused x columns hx, ?_⟩)
    (fun id hid => ⟨hid.bound, hid.unsealed⟩) fun id hid => List.mem_singleton.mp hid ▸ hlater.bound
  refine (h.sides x columns hx).bound [⟨name, stage⟩] htrack (fun id hid => .inr (.inr hid)) ?_
  show ([stage] ++ V.context.scopes).contains stage = true
  simp

/-- Two sides of a join. The names of the left one are kept while the right one is compiled. -/
theorem Sided.join {scopes : List StageId} {inner scope' : Scope} {can : StageId → Prop} {left right : FromTree}
    {kind : JoinKind} (hl : Sided V s t node scope left)
    (hr : Sided (V.enter scopes inner used can) t u node scope' right) (hall : V.After s u)
    (hcan : ∀ id ∈ left.elements, ¬(V.enter scopes inner used can).can id)
    (hused : ∀ x columns, (x, columns) ∈ scope → x ∈ used) :
    Sided V s u node (scope ++ scope') (.join left kind right none) := by
  have hnames (x : String) (columns : Columns) (hx : (x, columns) ∈ scope) : x ∈ (V.enter scopes inner used can).names :=
    List.mem_append_left _ (hused x columns hx)
  have helements : (FromTree.join left kind right none).elements = left.elements ++ right.elements := List.append_nil _
  refine ⟨hall, fun i hi => (List.mem_append.mp hi).elim (hl.uncombined i) (hr.uncombined i), ?_, fun x columns hx => ?_⟩
  · rw [helements]
    exact List.forall_mem_append.mpr
      ⟨(hl.later hr.after hall hcan hnames).kept, fun id hid => (hr.kept id hid).mono hl.after.length⟩
  · rcases List.mem_append.mp hx with hx | hx
    · refine (hl.led (fun id hid => ?_) hx).after hr.after (hnames x columns hx)
      rw [helements] at hid
      exact (List.mem_append.mp hid).imp_right fun hid => (hr.kept id hid).floor
    · refine (hr.sides x columns hx).mono fun id _ hid => ⟨Nat.le_trans hl.after.length hid.1, fun hmem => ?_⟩
      rw [helements] at hmem
      exact (List.mem_append.mp hmem).elim (fun hmem => Nat.not_le.mpr (hl.kept id hmem).bound hid.1) hid.2

/-- The right side of an apply sees the left one. -/
theorem Sided.apply (hp : Sound p) {r : Expr} {rv : String} {left : FromTree} {item : FromItem} (kind : JoinKind)
    (h : Sided V s t node scope left) (hnode : Joint s node stage) (hok : V.Ok s)
    (hused : ∀ x columns, (x, columns) ∈ scope → x ∈ used) (hfree : V.Free (used ++ rv :: r.binders))
    (hr : r.resolves none (scope ++ V.scope) = true) (hnodes : r.everyNode V.test = true)
    (hrun : Gives (inScope stage (joinSide p node r rv)) V.context t item u) :
    Sided V s u node (scope ++ ((r.face none).bind rv).sides)
      (.join left kind (.item { item with forceSubquery := true }) none) := by
  have hright : (V.enter [stage] scope used (Passable (Beside s left) t)).Free (rv :: r.binders) := hfree.enter
  have hbinders := hright.subperm (List.sublist_cons_self _ _).subperm
  have hside := joinSide_sided hp (hnode.after h.after).added (suits_of_resolves hr hbinders hnodes)
    (hright.apart rv (.head _)) (List.nodup_cons.mp hright.nodup).1 (h.ok hnode hok hused)
    (gives_inScope.mp hrun) true
  exact h.join hside (h.after.leave (fun _ hid => hid.among.1) hside.after) (h.apart hok) hused

/-- The sides of any other join do not see each other. -/
theorem Sided.beside {scope' : Scope} {left right : FromTree} (kind : JoinKind) (h : Sided V s t node scope left)
    (hok : V.Ok s) (hused : ∀ x columns, (x, columns) ∈ scope → x ∈ used)
    (hr : Sided (V.enter [] [] used fun _ => False) t u node scope' right) :
    Sided V s u node (scope ++ scope') (.join left kind right none) :=
  h.join hr (h.after.leave (fun _ hid => hid.elim) hr.after)
    (fun _ hid hcan => hcan.elim (h.outside hok hid) not_false) hused

theorem ok_beside (hok : V.Ok s) : (V.enter [] [] used fun _ => False).Ok s :=
  ok_enter hok (by simp) (by simp) (by simp)

/-- The condition of a join sees both sides. -/
theorem joined_sided (hp : Sound p) {left right : FromTree} {kind : JoinKind} {condition : Option Expr}
    (h : Sided V s t node scope (.join left kind right none)) (hnode : Joint s node stage) (hok : V.Ok s)
    (hused : ∀ x columns, (x, columns) ∈ scope → x ∈ used) (hfree : V.Free (used ++ Expr.bindersOfOption condition))
    (hcondition : Expr.resolvesOption none (scope ++ V.scope) condition = true)
    (hnodes : Expr.everyNodeOfOption V.test condition = true)
    (hrun : Gives (joined p stage left kind right condition) V.context t from_ u) : Sided V s u node scope from_ := by
  cases condition with
  | none =>
    obtain ⟨rfl, rfl⟩ := gives_pure.mp hrun
    exact h
  | some c =>
    obtain ⟨value, v, hvalue, hlast⟩ := gives_bind.mp hrun
    obtain ⟨rfl, rfl⟩ := gives_pure.mp hlast
    obtain ⟨hafter, hkept⟩ := (hp.values (V.enter [stage] scope used (Passable (Beside s _) t))).keeps
      ⟨valued_of_and hcondition, hfree.enter, hnodes⟩ t t value u (.refl t) (h.ok hnode hok hused)
      (gives_inScope.mp hvalue)
    have hnames (x : String) (columns : Columns) (hx : (x, columns) ∈ scope) : x ∈ used ++ V.names :=
      List.mem_append_left _ (hused x columns hx)
    have hlater := h.later hafter (h.after.leave (fun _ hid => hid.among.1) hafter) (h.apart hok) hnames
    have helements : (FromTree.join left kind right none).elements = left.elements ++ right.elements := List.append_nil _
    refine ⟨hlater.after, hlater.uncombined, ?_, fun x columns hx => ?_⟩
    · exact List.forall_mem_append.mpr ⟨helements ▸ hlater.kept, fun id hid => (hkept id hid).mono h.after.length⟩
    · refine (h.led (fun id hid => ?_) hx).after hafter (hnames x columns hx)
      rw [helements]
      exact (List.mem_append.mp hid).imp_right fun hid => (hkept id hid).floor

/-! ## Trees of joins -/

theorem mem_treeRoots (e : Expr) {x : String} {columns : Columns}
    (hx : (x, columns) ∈ (e.face none).sideScope e.isJoin var) : x ∈ treeRoots e var := by
  unfold Face.sideScope at hx
  unfold treeRoots
  split at hx
  · rename_i htree
    rw [if_pos htree]
    exact e.side_mem_binders hx
  · rename_i htree
    rw [if_neg htree]
    exact e.bound_side_mem hx

theorem joinTree_sided (hp : Sound p) (hnode : Joint s node stage) (he : e.resolves none V.scope = true)
    (hfree : V.Free (treeRoots e var)) (hnodes : e.everyNode V.test = true) (hok : V.Ok s)
    (hrun : Gives (joinTree p node stage e var) V.context s from_ t) :
    Sided V s t node ((e.face none).sideScope e.isJoin var) from_ := by
  induction e, var using joinTree.induct generalizing V s t from_ with
  | case1 var kind l lv r rv condition ihl ihr =>
    obtain ⟨hboth, hcondition⟩ := Bool.and_eq_true_iff.mp he
    obtain ⟨hl, hr⟩ := Bool.and_eq_true_iff.mp hboth
    obtain ⟨-, hnodes⟩ := Bool.and_eq_true_iff.mp hnodes
    obtain ⟨hboth, hnodesC⟩ := Bool.and_eq_true_iff.mp hnodes
    obtain ⟨hnodesL, hnodesR⟩ := Bool.and_eq_true_iff.mp hboth
    obtain ⟨left, t₁, right, t₂, hleft, hright, hrun⟩ := joinTree_inv hrun
    -- the names of the left side, and those of a right side
    have hfree' {roots : List String} (hroots : roots.Sublist (rv :: r.binders)) :
        V.Free (treeRoots l lv ++ roots ++ Expr.bindersOfOption condition) :=
      hfree.subperm (subperm_sides (treeRoots_subset l lv) hroots)
    have hL := ihl hnode hl (hfree' (List.nil_sublist _)).left.left hnodesL hok hleft
    have hscope : ((Expr.join kind ⟨l, lv⟩ ⟨r, rv⟩ condition).face none).sides =
        (l.face none).sideScope l.isJoin lv ++ (r.face none).sideScope (r.isJoin && !kind.isApply) rv := rfl
    have hwhole : Face.sideScope ((Expr.join kind ⟨l, lv⟩ ⟨r, rv⟩ condition).face none) true var =
        ((Expr.join kind ⟨l, lv⟩ ⟨r, rv⟩ condition).face none).sides := rfl
    rw [show (Expr.join kind ⟨l, lv⟩ ⟨r, rv⟩ condition).isJoin = true from rfl, hwhole, hscope]
    -- what is left to do once the right side is there
    have hjoined {roots : List String} {right : FromTree} {t₂ : State} {scope : Scope}
        (hroots : roots.Sublist (rv :: r.binders)) (hused : ∀ x columns, (x, columns) ∈ scope → x ∈ roots)
        (hcondition : Expr.resolvesOption none ((l.face none).sideScope l.isJoin lv ++ scope ++ V.scope) condition = true)
        (hsides : Sided V s t₂ node ((l.face none).sideScope l.isJoin lv ++ scope) (.join left kind right none))
        (hrun : Gives (joined p stage left kind right condition) V.context t₂ from_ t) :=
      joined_sided hp hsides hnode hok
        (fun x columns hx => (List.mem_append.mp hx).elim (fun hx => List.mem_append_left _ (mem_treeRoots l hx)) fun hx =>
          List.mem_append_right _ (hused x columns hx)) (hfree' hroots) hcondition hnodesC hrun
    rcases hright with ⟨hk, item, hitem, rfl⟩ | ⟨hk, hright⟩
    · simp only [if_pos hk] at hr
      rw [hk, Bool.not_true, Bool.and_false] at hcondition ⊢
      refine hjoined (.refl _) (fun _ _ => r.bound_side_mem) hcondition ?_ hrun
      exact hL.apply hp kind hnode hok (fun _ _ => mem_treeRoots l) (hfree' (.refl _)).left hr hnodesR hitem
    · simp only [if_neg hk] at hr
      rw [Bool.eq_false_iff.mpr hk, Bool.not_false, Bool.and_true] at hcondition ⊢
      refine hjoined (treeRoots_subset r rv) (fun _ _ => mem_treeRoots r) hcondition ?_ hrun
      refine hL.beside kind hok (fun _ _ => mem_treeRoots l) ?_
      exact ihr (hnode.after hL.after) hr (hfree' (treeRoots_subset r rv)).left.enter hnodesR
        (ok_beside (hok.after hL.after)) hright
  | case2 var e hne =>
    obtain ⟨item, hitem, rfl⟩ := joinTree_side_inv hne hrun
    have hjoin : e.isJoin = false := isJoin_eq_false hne
    rw [treeRoots, hjoin] at hfree
    rw [hjoin]
    have hbinders : V.Free e.binders := hfree.subperm (List.sublist_cons_self _ _).subperm
    exact joinSide_sided hp hnode.added (suits_of_resolves he hbinders hnodes) (hfree.apart var (.head _))
      (List.nodup_cons.mp hfree.nodup).1 hok hitem item.forceSubquery

/-! ## Joins -/

theorem after_joining : V.After s (joining s var) :=
  ((After.refl s).change (changes_pushStage (Nat.le_refl _) rfl rfl fun _ hid => absurd hid List.not_mem_nil)).change
    (changes_pushNode (Nat.le_refl _) (by simp))

theorem joint_joining : Joint (joining s var) s.nodes.length s.stages.length := by
  have hnode : nodeAt (joining s var).nodes s.nodes.length = { first := ⟨var, s.stages.length⟩ } := nodeAt_length _ _
  refine ⟨by simp [joining], by simp [joining], var, ?_⟩
  rw [Compile.track, hnode]
  rfl

/-- A FROM clause whose items do not combine stages. -/
theorem uncombined_from (hfrom : ∀ i ∈ from_.items, i.source.combination? = none) (a : Stage) :
    Stage.combinations { a with from_ := some from_ } = [] := by
  simpa [Stage.combinations, Stage.items, List.filterMap_eq_nil_iff] using hfrom

/-- The elements of the FROM clause are those of the stage of a join. -/
theorem mem_elements_from {id : StageId} (hid : id ∈ Stage.elements { ({} : Stage) with from_ := some from_ }) :
    id ∈ from_.elements := by
  simpa [Stage.elements, Stage.clauseExprs] using hid

theorem sealed_joinedState (hfrom : ∀ i ∈ from_.items, i.source.combination? = none)
    (hempty : t.stages.get stage = {}) {id : StageId} (h : Sealed (joinedState t stage from_).stages id) :
    Sealed t.stages id ∨ id ∈ from_.elements := by
  refine (onlyNew_modify (g := fun a => { a with from_ := some from_ }) ?_ fun j hj => ?_).sealed h
  · rw [uncombined_from hfrom]
    exact List.nil_subset _
  · rw [hempty] at hj
    exact .inr (mem_elements_from hj)

/-- The stage of a join has no columns yet. -/
theorem stands_joined (hok : V.Ok s) (h : Sided V (joining s var) t s.nodes.length scope from_)
    (hitem : ∀ i, from_ ≠ .item i) :
    Stands V s (joinedState t s.stages.length from_) { sides := scope } s.nodes.length := by
  have hstart : V.After s (joining s var) := after_joining
  have hbound : s.stages.length < (joining s var).stages.length := by simp [joining]
  have hlength : s.stages.length < t.stages.length := Nat.lt_of_lt_of_le hbound h.after.length
  -- the stage is left alone until all sides are there
  have hget : t.stages.get s.stages.length = {} := by
    rw [h.after.same _ hbound (hok.outside (Nat.le_refl _))]
    show Stages.get (s.stages ++ [_]) _ = _
    rw [Stages.get_append, if_pos rfl]
  have hjoined : Stages.get (joinedState t s.stages.length from_).stages s.stages.length = { from_ := some from_ } := by
    show Stages.get (t.stages.modify _ _) _ = _
    rw [Stages.get_modify, if_pos ⟨rfl, hlength⟩, hget]
  have hunsealed : ¬Sealed t.stages s.stages.length :=
    h.after.unsealed hbound fun hs => Nat.lt_irrefl _ (hok.sealed _ (sealed_pushStage rfl rfl hs))
  have hvacuous (source : String) : Fed (joinedState t s.stages.length from_) source s.stages.length := fun i hi => by
    rw [hjoined] at hi
    exact (hitem i (Option.some.inj hi)).elim
  have hpassable : Passable (s.stages.length ≤ ·) (joinedState t s.stages.length from_) s.stages.length := by
    refine ⟨Nat.le_refl _, by simpa [joinedState] using hlength, fun hs => ?_, fun i hi => ?_⟩
    · exact (sealed_joinedState h.uncombined hget hs).elim hunsealed fun hmem =>
        Nat.lt_irrefl _ (Nat.lt_of_lt_of_le hbound (h.kept _ hmem).floor)
    · rw [hjoined] at hi
      exact (hitem i (Option.some.inj hi)).elim
  have hnode : nodeAt (joinedState t s.stages.length from_).nodes s.nodes.length = { first := ⟨var, s.stages.length⟩ } :=
    (nodeAt_after h.after (by simp [joining])).trans (nodeAt_length _ _)
  have hafter : V.After s (joinedState t s.stages.length from_) := by
    refine (hstart.trans h.after).change (changes_modifyStage (Nat.le_refl _) hunsealed ?_ fun id hid => ?_)
    · rw [uncombined_from h.uncombined]
      exact List.nil_subset _
    · rw [hget] at hid
      have hkept := h.kept id (mem_elements_from hid)
      exact .inr ⟨Nat.ne_of_gt (Nat.lt_of_lt_of_le hbound hkept.floor), hkept.mono (Nat.le_of_lt hbound)⟩
  refine .single (a := ⟨var, s.stages.length⟩) hafter ⟨Nat.le_refl _, ?added⟩ hnode hpassable (hvacuous _) rfl ?inner ?exposing
    ?sides
  case added =>
    show _ < t.nodes.length
    exact Nat.lt_of_lt_of_le (by simp [joining]) (length_nodes h.after)
  case inner =>
    show ((Stages.get _ s.stages.length).projection.getD []).map _ = _
    rw [hjoined]
    rfl
  case exposing =>
    show Exposing _ (Stages.get _ s.stages.length)
    rw [hjoined]
    exact ⟨⟨rfl, rfl, rfl, rfl, rfl, rfl⟩, by simp, fun _ => ⟨⟨rfl, rfl⟩, fun hne => (hne rfl).elim⟩, by simp⟩
  case sides =>
    intro x columns hx
    obtain ⟨id, l, hlookup, hid, hunder, hway⟩ := h.sides x columns hx
    have hcalm : Calm (fun id => id ≠ s.stages.length ∧ id ∉ from_.elements) t (joinedState t s.stages.length from_) := by
      have hsame (j : StageId) (hj : j ≠ s.stages.length) :
          Stages.get (joinedState t s.stages.length from_).stages j = t.stages.get j := get_joinedState hj
      exact calm_of_columns (by simp [joinedState]) rfl (fun j hj _ => by rw [hsame j hj.1])
        (fun j hj _ => by rw [hsame j hj.1]) fun _ hj _ hs => (sealed_joinedState h.uncombined hget hs).resolve_right hj.2
    rw [List.append_nil] at hway
    have hinner : ∀ a ∈ l, a.stage ≠ s.stages.length ∧ a.stage ∉ from_.elements := fun a ha =>
      have hamong := (hway.passable a ha).among
      ⟨Nat.ne_of_gt (Nat.lt_of_lt_of_le hbound hamong.1), hamong.2⟩
    refine ⟨id, l, hlookup, hid, hunder, ?_⟩
    exact ((hway.calm hcalm hinner).mono fun id _ hid => Nat.le_of_lt (Nat.lt_of_lt_of_le hbound hid.1)).concat hpassable
      (hvacuous _)

theorem stands_joinRows (hp : Sound p) {kind : JoinKind} {l r : Binding} {condition : Option Expr}
    (he : V.Suits (.join kind l r condition)) (hok : V.Ok s)
    (hrun : Gives (joinRows p (.join kind l r condition) var) V.context s node t) :
    Stands V s t ((Expr.join kind l r condition).face none) node := by
  obtain ⟨rfl, from_, t₁, htree, rfl⟩ := joinRows_inv hrun
  have hjoint : Joint (joining s var) s.nodes.length s.stages.length := joint_joining
  have hsided := joinTree_sided hp hjoint he.valued.1 he.free he.nodes (hok.after after_joining) htree
  exact stands_joined hok hsided (joinTree_ne_item htree)

end TreeSql.Compile.Vicinity

