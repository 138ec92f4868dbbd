import TreeSql.Proofs.References.SetOperations

/-
  TreeSql.Proofs.References.Joins — trees of joins.

  All inputs of a tree of joins stand in the FROM clause of one stage. `Sides` says what an input, or a tree of
  inputs, brings into scope: each variable is reached through one of the items. The tree is built from left to
  right; the right side of an apply and the conditions see the items to their left (`Sides.ok`).
-/
namespace TreeSql.Compile

open Sql

variable {S : Site} {p : Parts} {s t u : State} {e : Expr} {node : NodeId} {v var : String} {roots rest : List String}
  {stage : StageId}

/-! ## Inputs -/

/-- The node of a join, with the stage that the inputs are joined in. -/
structure JoinNode (S : Site) (s : State) (node : NodeId) (stage : StageId) : Prop where
  added : node < s.nodes.length
  bound : stage < s.stages.length
  outside : ¬S.reach stage
  track : ∃ name, Compile.track s.nodes node = [⟨name, stage⟩]

theorem JoinNode.after (h : JoinNode S s node stage) {can : StageId → Prop} {taken : String → Prop}
    (hafter : After S.schema can taken s t) : JoinNode S t node stage := by
  obtain ⟨new, hnodes, -⟩ := hafter.nodes.added
  refine ⟨?_, Nat.lt_of_lt_of_le h.bound hafter.length, h.outside, ?_⟩
  · rw [hnodes, List.length_append]
    exact Nat.lt_add_right _ h.added
  · rw [hnodes, track_append new h.added]
    exact h.track

/-- Part of the FROM clause of a join, with the variables that it brings into scope. -/
structure Sides (S : Site) (s t : State) (node : NodeId) (roots : List String) (scope : Scope) (from_ : FromTree) :
    Prop where
  after : S.After s t
  inner : ∀ q ∈ from_.inner S.env, Closed S.schema (s.stages.length ≤ ·) t.stages q.1 q.2
  exprs : ∀ q ∈ from_.exprs S.env, Sql.Fine S.schema (s.stages.length ≤ ·) t.stages q.1 q.2
  items : ∀ i ∈ from_.items, From roots s.aliases t.aliases i.name
  vars : ∀ x columns, (x, columns) ∈ scope → From roots s.aliases t.aliases x
  reached : ∀ x columns, (x, columns) ∈ scope → ∃ last, StandsFor from_.items last ∧
    Reached S.schema s.stages.length t node x columns [] last

theorem standsFor_single (a : AliasedStage) (forceSubquery : Bool) :
    StandsFor [{ source := .stage a.stage, name := a.name, forceSubquery }] a :=
  ⟨{ source := .stage a.stage, name := a.name, forceSubquery }, by simp [Items.at_], rfl⟩

theorem joinSide_sides (hp : Sound p) (hnode : node < s.nodes.length) (he : e.resolves S.schema S.scope = true)
    (hfresh : Fresh S.taken S.drawn (var :: e.binders)) (hgiven : Given e.binders) (hok : S.Ok s) {item : FromItem}
    (hrun : Gives (joinSide p node e var) S.context s item t) (forceSubquery : Bool) :
    Sides S s t node (var :: e.binders) ((e.face S.schema).bind var).sides (.item { item with forceSubquery }) := by
  obtain ⟨child, t₁, _, hrows, hopen, rfl⟩ := joinSide_inv hrun
  obtain ⟨rfl, rfl⟩ := gives_openStage_iff.mp hopen
  have hbuilt := (hp.rows S he hfresh hgiven hok hrows).built
  have hchild := hbuilt.added
  have hlast : (nodeAt (t₁.nodes.modify child fun n => { n with joinParent := some node }) child).last =
      (nodeAt t₁.nodes child).last := by
    rw [nodeAt_modify _ _ _ hchild.2]
    rfl
  simp only [hlast]
  refine ⟨hbuilt.after.touch (touches_modifyNode hchild.1 fun _ => rfl), fun q hq => ?_, fun q hq => (by cases hq),
    fun i hi => ?_, hbuilt.vars, fun x columns hx => ⟨(nodeAt t₁.nodes child).last, ?_, ?_⟩⟩
  · obtain rfl := List.mem_singleton.mp hq
    exact hbuilt.closed
  · obtain rfl := List.mem_singleton.mp hi
    exact hbuilt.open_.named
  · exact standsFor_single _ forceSubquery
  · obtain ⟨id, l, hlookup, hid, hunder, hnew, hascends⟩ := hbuilt.sides x columns hx
    refine ⟨id, l ++ (nodeAt t₁.nodes child).selects, hlookup, by simpa using hid,
      hunder.join hchild.2 (Nat.lt_of_lt_of_le hnode hchild.1), ?_, fun name hname => ?_⟩
    · rw [List.append_nil]
      exact hnew.mono (Nat.le_refl _)
    · rw [List.append_nil]
      have hsteady : Steady (fun _ => True) t₁ { t₁ with
          nodes := t₁.nodes.modify child fun n => { n with joinParent := some node } } :=
        steady_of_same (Nat.le_refl _) (fun _ _ h => h) (fun _ _ _ => rfl) fun _ _ _ =>
          label_congr (map_first_modify _ _ fun _ => rfl) rfl
      exact (hascends name hname).steady hsteady fun _ _ => trivial

/-! ## Inside the FROM clause -/

/-- Where the items of a tree of joins and their variables are seen. -/
def Sides.site (S : Site) (s t : State) (stage : StageId) (roots : List String) (scope : Scope) (from_ : FromTree) : Site :=
  S.enter [stage] from_.items scope (AddedStage s t) roots s t

theorem Sides.ok {scope : Scope} {from_ : FromTree} (h : Sides S s t node roots scope from_)
    (hnode : JoinNode S s node stage) (hok : S.Ok s) (hfresh : Fresh S.taken S.drawn roots) :
    (Sides.site S s t stage roots scope from_).Ok t := by
  have hlater := hnode.after h.after
  obtain ⟨name, htrack⟩ := hlater.track
  refine Site.ok_enter hok h.after hfresh
    ⟨fun x columns hx => ?_, fun id hid => ?_, fun _ hid => hid, h.items, h.vars⟩
  · obtain ⟨last, hstands, hreached⟩ := h.reached x columns hx
    refine bound_through (Sides.site S s t stage roots scope from_) [⟨name, stage⟩] hreached htrack ?_
      (fun id hfloor hid => ⟨.inr ⟨hfloor, hid⟩, ?_⟩) (standsFor_append hstands)
    · show ([stage] ++ S.context.scopes).contains stage = true
      simp
    · show ([stage] ++ S.context.scopes).contains id = false
      have hout := not_in_scopes hok hfloor
      have hne : id ≠ stage := Nat.ne_of_gt (Nat.lt_of_lt_of_le hnode.bound hfloor)
      rw [Bool.eq_false_iff, Ne, List.contains_iff_mem] at hout ⊢
      simpa [hne] using hout
  · obtain rfl := List.mem_singleton.mp hid
    exact ⟨hnode.outside, hlater.bound⟩

theorem Sides.later {scope : Scope} {from_ : FromTree} (h : Sides S s t node roots scope from_)
    {can : StageId → Prop} {taken : String → Prop} (hafter : After S.schema can taken t u) (hall : S.After s u)
    (htaken : ∀ x, From roots s.aliases t.aliases x → taken x) : Sides S s u node roots scope from_ where
  after := hall
  inner q hq := (h.inner q hq).later hafter.grown
  exprs q hq := (h.exprs q hq).later hafter.grown
  items i hi := (h.items i hi).mono (List.Subset.refl _) (Nat.le_refl _) hafter.aliases
  vars x columns hx := (h.vars x columns hx).mono (List.Subset.refl _) (Nat.le_refl _) hafter.aliases
  reached x columns hx := by
    obtain ⟨last, hstands, hreached⟩ := h.reached x columns hx
    exact ⟨last, hstands, hreached.after hafter (htaken x (h.vars x columns hx))⟩

theorem standsFor_after {own env : Items} {a : AliasedStage} (h : StandsFor env a)
    (hown : ∀ i ∈ own, i.name ≠ a.name) : StandsFor (own ++ env) a := by
  obtain ⟨i, hi, hsource⟩ := h
  have hnone : own.find? (·.name == a.name) = none := by
    rw [List.find?_eq_none]
    exact fun j hj hj' => hown j hj (by simpa using hj')
  exact ⟨i, by rw [Items.at_, List.find?_append, hnone]; exact hi, hsource⟩

/-- Two sides of a join. The right one was compiled where the names of the left one are taken. -/
theorem Sides.join {S' : Site} {roots' : List String} {scope scope' : Scope} {left right : FromTree} {kind : JoinKind}
    (hl : Sides S s t node roots scope left) (hr : Sides S' t u node roots' scope' right) (hall : S.After s u)
    (hschema : S'.schema = S.schema) (henv : S'.env = FromTree.rightItems S.env left kind)
    (htaken : ∀ x, From roots s.aliases t.aliases x → S'.taken x)
    (hfresh : ∀ x, From roots' t.aliases u.aliases x → ¬S'.taken x) :
    Sides S s u node (roots ++ roots') (scope ++ scope') (.join left kind right none) := by
  have hafter : After S'.schema S'.Can S'.taken t u := hr.after
  rw [hschema] at hafter
  have hlater := hl.later hafter hall htaken
  have hleft {x : String} (h : From roots s.aliases u.aliases x) : From (roots ++ roots') s.aliases u.aliases x :=
    h.mono (List.subset_append_left _ _) (Nat.le_refl _) (Nat.le_refl _)
  have hright {x : String} (h : From roots' t.aliases u.aliases x) : From (roots ++ roots') s.aliases u.aliases x :=
    h.mono (List.subset_append_right _ _) hl.after.aliases (Nat.le_refl _)
  have hfloor {id : Nat} (h : t.stages.length ≤ id) : s.stages.length ≤ id := Nat.le_trans hl.after.length h
  have hinner := hr.inner
  have hexprs := hr.exprs
  have hreached := hr.reached
  rw [hschema] at hinner hexprs hreached
  rw [henv] at hinner hexprs
  constructor
  case after => exact hall
  case inner =>
    intro q hq
    rcases List.mem_append.mp hq with hq | hq
    · exact hlater.inner q hq
    · exact (hinner q hq).mono fun _ => hfloor
  case exprs =>
    intro q hq
    simp only [FromTree.exprs, Option.toList_none, List.map_nil, List.append_nil] at hq
    rcases List.mem_append.mp hq with hq | hq
    · exact hlater.exprs q hq
    · exact (hexprs q hq).mono fun _ => hfloor
  case items =>
    intro i hi
    exact (List.mem_append.mp hi).elim (fun hi => hleft (hlater.items i hi)) fun hi => hright (hr.items i hi)
  case vars =>
    intro x columns hx
    exact (List.mem_append.mp hx).elim (fun hx => hleft (hlater.vars x columns hx)) fun hx =>
      hright (hr.vars x columns hx)
  case reached =>
    intro x columns hx
    rcases List.mem_append.mp hx with hx | hx
    · obtain ⟨last, hstands, hreached⟩ := hlater.reached x columns hx
      exact ⟨last, standsFor_append hstands, hreached⟩
    · obtain ⟨last, hstands, id, l, hlookup, hid, hunder, hnew, hascends⟩ := hreached x columns hx
      refine ⟨last, standsFor_after hstands fun i hi hname => ?_, id, l, hlookup, hid, hunder, ?_, hascends⟩
      · obtain ⟨j, hj, -⟩ := hstands
        have hj' : j.name = last.name := by simpa using List.find?_some hj
        refine hfresh _ (hr.items j (List.mem_of_find?_eq_some hj)) ?_
        rw [hj', ← hname]
        exact htaken _ (hl.items i hi)
      · exact ⟨fun a ha => ⟨hfloor (hnew.bound a ha).1, (hnew.bound a ha).2⟩, hnew.nodup⟩

/-- The condition of a join sees both sides. -/
theorem Sides.condition {scope : Scope} {left right : FromTree} {kind : JoinKind}
    (h : Sides S s t node roots scope (.join left kind right none))
    (hafter : (Sides.site S s t stage roots scope (.join left kind right none)).After t u) {e : SqlExpr}
    (he : (Sides.site S s t stage roots scope (.join left kind right none)).Fine u e) :
    Sides S s u node roots scope (.join left kind right (some e)) := by
  have hlater := h.later hafter (Site.after_leave h.after (fun _ hid => hid.1) hafter) fun _ hx => .inr hx
  refine ⟨hlater.after, hlater.inner, fun q hq => ?_, hlater.items, hlater.vars, hlater.reached⟩
  rcases List.mem_append.mp hq with hq | hq
  · exact hlater.exprs q (List.mem_append_left _ hq)
  · obtain rfl := List.mem_singleton.mp hq
    exact he.mono fun _ hid => Nat.le_trans h.after.length hid

theorem joined_sides (hp : Sound p) {scope : Scope} {left right from_ : FromTree} {kind : JoinKind}
    {condition : Option Expr} (h : Sides S s t node roots scope (.join left kind right none))
    (hnode : JoinNode S s node stage) (hok : S.Ok s)
    (hfresh : Fresh S.taken S.drawn (roots ++ Expr.bindersOfOption condition))
    (hgiven : Given (Expr.bindersOfOption condition))
    (hcondition : Expr.resolvesOption S.schema (scope ++ S.scope) condition = true)
    (hrun : Gives (joined p stage left kind right condition) S.context t from_ u) :
    Sides S s u node roots scope from_ := by
  cases condition with
  | none =>
    obtain ⟨rfl, rfl⟩ := gives_pure.mp hrun
    exact h
  | some c =>
    obtain ⟨value, v, hvalue, hlast⟩ := gives_bind.mp hrun
    obtain ⟨rfl, rfl⟩ := gives_pure.mp hlast
    have hroots := hfresh.sublist (List.sublist_append_left _ _)
    obtain ⟨hafter, hfine⟩ := hp.values (Sides.site S s t stage roots scope (.join left kind right none)) c
      (valued_of_and hcondition) (free_enter hok h.after hfresh hgiven) t t value u (.refl t) (h.ok hnode hok hroots)
      (gives_inScope.mp hvalue)
    exact h.condition hafter hfine

/-! ## Trees of joins -/

/-- The variables and binders of a side. A tree of joins has no variable of its own. -/
def treeRoots (e : Expr) (var : String) : List String := if e.isJoin then e.binders else var :: e.binders

theorem treeRoots_subset (e : Expr) (var : String) : (treeRoots e var).Sublist (var :: e.binders) := by
  unfold treeRoots
  split
  · exact List.sublist_cons_self _ _
  · exact .refl _

theorem Sides.mono {roots' : List String} {scope : Scope} {from_ : FromTree} (h : Sides S s t node roots scope from_)
    (hsub : roots ⊆ roots') : Sides S s t node roots' scope from_ where
  after := h.after
  inner := h.inner
  exprs := h.exprs
  items i hi := (h.items i hi).mono hsub (Nat.le_refl _) (Nat.le_refl _)
  vars x columns hx := (h.vars x columns hx).mono hsub (Nat.le_refl _) (Nat.le_refl _)
  reached := h.reached

/-- The roots of two sides and a condition, one after another. -/
theorem subperm_sides {lv rv : String} {l r c roots roots' : List String} (hl : roots.Sublist (lv :: l))
    (hr : roots'.Sublist (rv :: r)) : (roots ++ roots' ++ c).Subperm (lv :: rv :: (l ++ r ++ c)) := by
  have hsub := (hl.append hr).append (List.Sublist.refl c)
  have hperm : ((lv :: l) ++ (rv :: r) ++ c).Perm (lv :: rv :: (l ++ r ++ c)) := by
    simp only [List.cons_append, List.append_assoc]
    exact List.perm_middle.cons _
  exact hsub.subperm.trans hperm.subperm

/-- The right side of an apply sees the items of the left one. -/
theorem Sides.apply (hp : Sound p) {r : Expr} {rv : String} {scope : Scope} {left : FromTree} {item : FromItem}
    {kind : JoinKind} (h : Sides S s t node roots scope left) (hkind : kind.isApply = true) (hnode : JoinNode S s node stage)
    (hok : S.Ok s) (hr : r.resolves S.schema (scope ++ S.scope) = true)
    (hfresh : Fresh S.taken S.drawn (roots ++ rv :: r.binders)) (hgiven : Given r.binders)
    (hrun : Gives (joinSide p node r rv) (Sides.site S s t stage roots scope left).context t item u) :
    Sides S s u node (roots ++ rv :: r.binders) (scope ++ ((r.face S.schema).bind rv).sides)
      (.join left kind (.item { item with forceSubquery := true }) none) := by
  have hsite := h.ok hnode hok (hfresh.sublist (List.sublist_append_left _ _))
  have hfreshR : Fresh (Sides.site S s t stage roots scope left).taken t.aliases (rv :: r.binders) :=
    Site.fresh_enter hok h.after hfresh
  have hside := joinSide_sides hp (hnode.after h.after).added hr hfreshR hgiven hsite hrun true
  refine h.join hside (Site.after_leave h.after (fun _ hid => hid.1) hside.after) rfl ?_ (fun _ hx => .inr hx)
    fun x hx => hfreshR.not_taken hx
  rw [FromTree.rightItems, if_pos hkind]
  rfl

/-- The sides of any other join do not see each other. -/
theorem Sides.beside {roots' : List String} {scope scope' : Scope} {left right : FromTree} {kind : JoinKind}
    (h : Sides S s t node roots scope left) (hkind : ¬kind.isApply = true)
    (hr : Sides (besideSite S s t roots) t u node roots' scope' right)
    (hfresh : Fresh (besideSite S s t roots).taken t.aliases roots') :
    Sides S s u node (roots ++ roots') (scope ++ scope') (.join left kind right none) := by
  refine h.join hr (Site.after_leave h.after (fun _ hid => hid.elim) hr.after) rfl ?_ (fun _ hx => .inr hx)
    fun x hx => hfresh.not_taken hx
  rw [FromTree.rightItems, if_neg hkind]
  rfl

theorem isJoin_eq_false (h : ∀ kind l lv r rv condition, e = .join kind ⟨l, lv⟩ ⟨r, rv⟩ condition → False) :
    e.isJoin = false := by
  cases e with
  | join kind l r condition => exact (h kind l.expr l.var r.expr r.var condition rfl).elim
  | _ => rfl

theorem joinTree_sides (hp : Sound p) {from_ : FromTree} (hnode : JoinNode S s node stage)
    (he : e.resolves S.schema S.scope = true) (hfresh : Fresh S.taken S.drawn (treeRoots e var))
    (hgiven : Given e.binders) (hok : S.Ok s) (hrun : Gives (joinTree p node stage e var) S.context s from_ t) :
    Sides S s t node (treeRoots e var) ((e.face S.schema).sideScope e.isJoin var) from_ := by
  induction e, var using joinTree.induct generalizing S s t from_ with
  | case1 var kind l lv r rv condition ihl ihr =>
    obtain ⟨hboth, hcondition⟩ := Bool.and_eq_true_iff.mp he
    obtain ⟨hl, hr⟩ := Bool.and_eq_true_iff.mp hboth
    obtain ⟨left, t₁, right, t₂, hleft, hright, hrun⟩ := joinTree_inv hrun
    have hgiven' (b : String) (hb : b ∈ l.binders ++ r.binders ++ Expr.bindersOfOption condition) :=
      hgiven b (.tail _ (.tail _ hb))
    have hfresh' {roots : List String} (hroots : roots.Sublist (rv :: r.binders)) :
        Fresh S.taken S.drawn (treeRoots l lv ++ roots ++ Expr.bindersOfOption condition) :=
      hfresh.subperm (subperm_sides (treeRoots_subset l lv) hroots)
    have hA := (hfresh' (List.nil_sublist _)).sublist ((List.sublist_append_left _ _).trans (List.sublist_append_left _ _))
    have hL := ihl hnode hl hA (fun b hb => hgiven' b (List.mem_append_left _ (List.mem_append_left _ hb))) hok hleft
    -- what is left to do once the right side is there
    have hjoined {roots : List String} {right : FromTree} {t₂ : State} (hroots : roots.Sublist (rv :: r.binders))
        (hsides : Sides S s t₂ node (treeRoots l lv ++ roots)
          ((Expr.join kind ⟨l, lv⟩ ⟨r, rv⟩ condition).face S.schema).sides (.join left kind right none))
        (hrun : Gives (joined p stage left kind right condition) S.context t₂ from_ t) :=
      (joined_sides hp hsides hnode hok (hfresh' hroots) (fun b hb => hgiven' b (List.mem_append_right _ hb)) hcondition
        hrun).mono fun b hb =>
          (subperm_sides (c := Expr.bindersOfOption condition) (treeRoots_subset l lv) hroots).subset
            (List.mem_append_left _ hb)
    have hscope : ((Expr.join kind ⟨l, lv⟩ ⟨r, rv⟩ condition).face S.schema).sides =
        (l.face S.schema).sideScope l.isJoin lv ++ (r.face S.schema).sideScope (r.isJoin && !kind.isApply) rv := rfl
    have hR (b : String) (hb : b ∈ r.binders) := hgiven' b (List.mem_append_left _ (List.mem_append_right _ hb))
    rcases hright with ⟨hk, item, hitem, rfl⟩ | ⟨hk, hright⟩
    · simp only [if_pos hk] at hr
      refine hjoined (.refl _) ?_ hrun
      rw [hscope, hk, Bool.not_true, Bool.and_false]
      exact hL.apply hp hk hnode hok hr ((hfresh' (.refl _)).sublist (List.sublist_append_left _ _)) hR
        (gives_inScope.mp hitem)
    · simp only [if_neg hk] at hr
      have hfreshR : Fresh (besideSite S s t₁ (treeRoots l lv)).taken t₁.aliases (treeRoots r rv) :=
        Site.fresh_enter hok hL.after ((hfresh' (treeRoots_subset r rv)).sublist (List.sublist_append_left _ _))
      have hnode' : JoinNode (besideSite S s t₁ (treeRoots l lv)) t₁ node stage :=
        { hnode.after hL.after with outside := fun h => h.elim hnode.outside id }
      refine hjoined (treeRoots_subset r rv) ?_ hrun
      rw [hscope, Bool.eq_false_iff.mpr hk, Bool.not_false, Bool.and_true]
      exact hL.beside hk (ihr hnode' hr hfreshR hR (ok_beside hok hL.after hA) hright) hfreshR
  | case2 var e hne =>
    obtain ⟨item, hitem, rfl⟩ := joinTree_side_inv hne hrun
    have hjoin : e.isJoin = false := isJoin_eq_false hne
    rw [treeRoots, hjoin] at hfresh ⊢
    exact joinSide_sides hp hnode.added he hfresh hgiven hok hitem item.forceSubquery

/-! ## Joins -/

theorem joined_ne_item {c : Context} {left right from_ : FromTree} {kind : JoinKind} {condition : Option Expr}
    (hrun : Gives (joined p stage left kind right condition) c s from_ t) (i : FromItem) : from_ ≠ .item i := by
  obtain ⟨written, rfl⟩ := joined_eq hrun
  simp

theorem joinTree_ne_item {c : Context} {kind : JoinKind} {l r : Binding} {condition : Option Expr} {from_ : FromTree}
    (hrun : Gives (joinTree p node stage (.join kind l r condition) var) c s from_ t) (i : FromItem) :
    from_ ≠ .item i := by
  obtain ⟨left, u, right, v, -, -, hrun⟩ := joinTree_inv hrun
  exact joined_ne_item hrun i

/-- The state in which a join has a stage and a node. -/
def joining (s : State) (var : String) : State :=
  { s with stages := s.stages ++ [{}], nodes := s.nodes ++ [{ first := ⟨var, s.stages.length⟩ }] }

theorem after_joining : S.After s (joining s var) :=
  (After.touch (.refl s) (touches_pushStage (Nat.le_refl _) {})).touch (touches_pushNode (Nat.le_refl _) (by simp))

theorem joinNode_joining (hok : S.Ok s) : JoinNode S (joining s var) s.nodes.length s.stages.length := by
  refine ⟨by simp [joining], by simp [joining], fun h => Nat.lt_irrefl _ (hok.reach _ h), var, ?_⟩
  have hnode : nodeAt (joining s var).nodes s.nodes.length = { first := ⟨var, s.stages.length⟩ } := nodeAt_length _ _
  rw [track, hnode]
  rfl

/-- The stage of a join is as it was before the join was built. -/
theorem get_joining (hok : S.Ok s) (hafter : S.After (joining s var) t) : t.stages.get s.stages.length = {} := by
  have hget : (joining s var).stages.get s.stages.length = {} := by
    show Stages.get (s.stages ++ [_]) _ = _
    rw [Stages.get_append, if_pos rfl]
  have hbound : s.stages.length < (joining s var).stages.length := by simp [joining]
  have hpulled : (t.stages.get s.stages.length).pulled = [] := by
    refine List.eq_nil_iff_forall_not_mem.mpr fun q hq => ?_
    rcases hafter.pulled _ hbound q hq with hq | hq
    · rw [hget] at hq
      cases hq
    · exact Nat.lt_irrefl _ (hok.reach _ hq.1.1)
  have hwider := (hafter.wider _ hbound).rest
  rw [hget, hpulled] at hwider
  exact hwider

/-- The state in which a join has its FROM clause. -/
def joinedState (t : State) (stage : StageId) (from_ : FromTree) : State :=
  { t with stages := t.stages.modify stage fun a => { a with from_ := some from_ } }

/-- The alias of the latest node that starts at a stage. -/
theorem label_latest {old new : List Node} {n : Node} (hnodes : t.nodes = old ++ [n] ++ new)
    (hnew : ∀ m ∈ new, m.first.stage ≠ n.first.stage) : label t n.first.stage = n.first.name := by
  have hnone : (new.map (·.first)).reverse.find? (·.stage == n.first.stage) = none := by
    rw [List.find?_eq_none]
    intro a ha
    obtain ⟨m, hm, rfl⟩ := List.mem_map.mp (List.mem_reverse.mp ha)
    simpa using hnew m hm
  rw [label, hnodes, List.map_append, List.reverse_append, List.find?_append, hnone, List.map_append,
    List.reverse_append, List.find?_append]
  simp

section

variable {scope : Scope} {from_ : FromTree}

/-- Nothing but the stage of the join differs from before its FROM clause was set. -/
theorem shown_joinedState : Shown t.stages (joinedState t stage from_).stages := shown_modify fun _ h => h

theorem get_joinedState {id : StageId} (h : id ≠ stage) :
    (joinedState t stage from_).stages.get id = t.stages.get id := by
  show Stages.get (t.stages.modify _ _) _ = _
  rw [Stages.get_modify, if_neg fun hid => h hid.1]

theorem steady_joinedState : Steady (· ≠ stage) t (joinedState t stage from_) :=
  steady_of_same (by simp [joinedState]) shown_joinedState (fun _ hid _ => get_joinedState hid) fun _ hid _ =>
    label_congr rfl (by rw [get_joinedState hid])

theorem started_join (hok : S.Ok s) (hvar : var ∈ roots)
    (h : Sides S (joining s var) t s.nodes.length roots scope from_) (hitem : ∀ i, from_ ≠ .item i) :
    Started S s (joinedState t s.stages.length from_) roots s.nodes.length ⟨var, s.stages.length⟩ from_ := by
  have hlength : (joining s var).stages.length = s.stages.length + 1 := by simp [joining]
  have hbound : s.stages.length < t.stages.length := Nat.lt_of_lt_of_le (by omega) h.after.length
  have hne {id : Nat} (hid : (joining s var).stages.length ≤ id) : id ≠ s.stages.length := by
    rw [hlength] at hid
    exact Nat.ne_of_gt hid
  have hgrown : Grown S.schema (fun id => (joining s var).stages.length ≤ id) t.stages
      (joinedState t s.stages.length from_).stages :=
    grown_of_same (by simp [joinedState]) shown_joinedState fun _ hid _ => get_joinedState (hne hid)
  have hsub (id : Nat) (hid : (joining s var).stages.length ≤ id) : s.stages.length ≤ id ∧ id ≠ s.stages.length :=
    ⟨Nat.le_trans (by omega) hid, hne hid⟩
  obtain ⟨new, hnodes, hnew⟩ := h.after.nodes.added
  constructor
  case after => exact (after_joining.trans h.after).touch (touches_modifyStage (Nat.le_refl _) fun _ h => h)
  case added =>
    refine ⟨Nat.le_refl _, ?_⟩
    show _ < t.nodes.length
    rw [hnodes]
    simp [joining]
  case first =>
    show nodeAt t.nodes _ = _
    rw [hnodes, nodeAt_append new (by simp [joining])]
    exact nodeAt_length _ _
  case bound => exact ⟨Nat.le_refl _, by simpa [joinedState] using hbound⟩
  case stage =>
    show Stages.get (t.stages.modify _ _) _ = _
    rw [Stages.get_modify, if_pos ⟨rfl, hbound⟩, get_joining hok h.after]
  case label =>
    exact label_latest (n := { first := ⟨var, s.stages.length⟩ }) hnodes fun m hm => hne (hnew m hm).1
  case named => exact hvar
  case items => exact h.items
  case exprs => exact fun q hq => ((h.exprs q hq).later hgrown).mono hsub
  case inner => exact fun q hq => ((h.inner q hq).later hgrown).mono hsub
  case item => exact fun i hi => (hitem i hi).elim

theorem ready_join (hok : S.Ok s) (hvar : var ∈ roots)
    (h : Sides S (joining s var) t s.nodes.length roots scope from_) (hitem : ∀ i, from_ ≠ .item i) :
    Ready S s (joinedState t s.stages.length from_) roots { sides := scope } s.nodes.length := by
  have hstarted := started_join hok hvar h hitem
  have hmerges : Merges ((joinedState t s.stages.length from_).stages.get s.stages.length) := by
    rw [hstarted.stage]
    exact ⟨rfl, fun i hi => hitem i (by simpa using hi)⟩
  refine hstarted.ready (by simp) (fun name hname => by cases hname) h.vars fun x columns hx => ?_
  obtain ⟨last, hstands, id, l, hlookup, hid, hunder, hnew, hascends⟩ := h.reached x columns hx
  rw [List.append_nil] at hnew hascends
  have hbefore : s.stages.length < (joining s var).stages.length := by simp [joining]
  have hsteady : Steady (· ≠ s.stages.length) t (joinedState t s.stages.length from_) := steady_joinedState
  refine ⟨id, l, hlookup, hid, hunder,
    (hnew.mono hsteady.length).enclosed (Nat.le_refl _) hbefore hstarted.bound.2, fun name hname => ?_⟩
  have hpath := (hascends name hname).steady hsteady fun a ha =>
    Nat.ne_of_gt (Nat.lt_of_lt_of_le hbefore (hnew.bound a ha).1)
  refine hpath.merge hstarted.bound.2 hmerges ?_
  show StandsFor (Stages.get _ s.stages.length).items last
  rw [hstarted.stage]
  exact hstands

end

theorem joinRows_ready (hp : Sound p) {kind : JoinKind} {l r : Binding} {condition : Option Expr}
    (he : (Expr.join kind l r condition).resolves S.schema S.scope = true)
    (hfresh : Fresh S.taken S.drawn (var :: (Expr.join kind l r condition).binders))
    (hgiven : Given (Expr.join kind l r condition).binders) (hok : S.Ok s)
    (hrun : Gives (joinRows p (.join kind l r condition) var) S.context s node t) :
    NodeReady S s t var (.join kind l r condition) node := by
  obtain ⟨rfl, from_, t₁, htree, rfl⟩ := joinRows_inv hrun
  have hnode : JoinNode S (joining s var) s.nodes.length s.stages.length := joinNode_joining hok
  have hsides := joinTree_sides hp hnode he (hfresh.sublist (List.sublist_cons_self _ _)) hgiven
    (hok.after after_joining) htree
  have hready : Ready S s _ (var :: (Expr.join kind l r condition).binders) _ s.nodes.length :=
    ready_join hok (.head _) (hsides.mono (List.subset_cons_self _ _)) (joinTree_ne_item htree)
  refine ⟨hready, fun x columns hx => ?_⟩
  exact hfresh.ne_of_from ((hsides.vars x columns hx).mono (List.Subset.refl _) hok.drawn (Nat.le_refl _))

end TreeSql.Compile
