import TreeSql.Proofs.Exposed.Nodes

/-
  TreeSql.Proofs.Exposed.Clauses — clauses on the open stage, and stages put around it.

  A clause does not change which columns the open stage exposes (`Stands.attach`); a stage that is put around a
  node exposes none yet (`Stands.wrap`). The expressions of a clause are compiled where the open stage is in scope
  or beside the node, so that columns are pulled through the other stages only.
-/
namespace TreeSql.Compile.Vicinity

open Sql

variable {V : Vicinity} {s t u : State} {f : Face} {node : NodeId} {label : String}

/-! ## Attaching -/

theorem combinations_of_from {a b : Stage} (h : b.from_ = a.from_) : b.combinations ⊆ a.combinations :=
  Stage.combinations_congr h ▸ List.Subset.refl _

/-- A stage goes on to select from where it did, and its columns keep their names. New elements are not among the
    stages below the bound. -/
theorem calm_modify {id bound : Nat} {g : Stage → Stage} (hfrom : ∀ a, (g a).from_ = a.from_)
    (hplain : ∀ i, (t.stages.get id).from_ = some (.item i) →
      Plain (Compile.label t id) (t.stages.get id) → Plain (Compile.label t id) (g (t.stages.get id)))
    (helements : ∀ j ∈ (g (t.stages.get id)).elements, j ∈ (t.stages.get id).elements ∨ bound ≤ j) :
    Calm (· < bound) t { t with stages := t.stages.modify id g } := by
  have hget (j : Nat) : (Stages.get (t.stages.modify id g) j).from_ = (t.stages.get j).from_ := by
    rw [Stages.get_modify]
    split
    · rename_i hj
      rw [hj.1, hfrom]
    · rfl
  have hlabel (j : Nat) : Compile.label { t with stages := t.stages.modify id g } j = Compile.label t j :=
    label_congr rfl (hget j)
  have hnew := onlyNew_modify (combinations_of_from (hfrom (t.stages.get id))) helements
  refine ⟨by simp, fun j _ _ => hget j, fun j _ _ => hlabel j, fun j _ _ hneat i hi => ?_, fun j hj _ hsealed =>
    (hnew.sealed hsealed).resolve_right (Nat.not_le.mpr hj)⟩
  have hi : (Stages.get (t.stages.modify id g) j).from_ = some (.item i) := hi
  rw [hget] at hi
  show Plain _ (Stages.get (t.stages.modify id g) j)
  rw [hlabel, Stages.get_modify]
  split
  · rename_i hj
    rw [hj.1] at hi ⊢
    exact hplain i hi (hj.1 ▸ hneat i (hj.1.symm ▸ hi))
  · exact hneat i hi

theorem plain_congr {source : String} {a b : Stage} (hpulled : b.pulled = a.pulled) (h : Plain source a) :
    Plain source b := by
  unfold Plain
  rw [hpulled]
  exact h

theorem blank_congr {a b : Stage} (h : Blank a) (hprojection : b.projection = a.projection) (hpulled : b.pulled = a.pulled) :
    Blank b := ⟨hprojection.trans h.projection, hpulled.trans h.pulled⟩

theorem Exposing.attach {last : Stage} (h : Exposing f last) {g clause : Stage → Stage} (hg : Clausal g clause) :
    Exposing (f.attach clause) (g last) := by
  obtain ⟨hfrom, hprojection, hpulled⟩ := hg.stage last
  constructor
  case clauses => exact hg.same _ _ h.clauses
  case marked =>
    refine fun hlisted => (h.marked hlisted).imp (fun hsome => ?_) fun hdistinct => hg.distinct _ hdistinct
    show (clause f.clauses).projection.isSome = true
    rw [(hg.face f.clauses).2.1]
    exact hsome
  case unlisted =>
    intro hlisted
    obtain ⟨hblank, hitem⟩ := h.unlisted hlisted
    exact ⟨blank_congr hblank hprojection hpulled, fun hne => hfrom.symm ▸ hitem hne⟩
  case listed => exact fun hlisted hnodup => (outputNames_congr hprojection hpulled).trans (h.listed hlisted hnodup)

/-- Nothing is changed but the open stage, which selects from where it did before. What it refers to anew was
    compiled in between. -/
theorem Stands.change (h : Stands V s t f node) (hm : Meanwhile V s t u f node) {g : Stage → Stage} {f' : Face}
    (hfrom : ∀ a, (g a).from_ = a.from_)
    (hplain : ∀ i, (t.stages.get (nodeAt t.nodes node).last.stage).from_ = some (.item i) →
      Plain (Compile.label t (nodeAt t.nodes node).last.stage) (t.stages.get (nodeAt t.nodes node).last.stage) →
        Plain (Compile.label t (nodeAt t.nodes node).last.stage) (g (t.stages.get (nodeAt t.nodes node).last.stage)))
    (hkept : ∀ id ∈ (g (t.stages.get (nodeAt t.nodes node).last.stage)).elements,
      id ∈ (t.stages.get (nodeAt t.nodes node).last.stage).elements ∨ Kept V.test t.stages.length u id)
    (hwrapped : f'.wrapped = f.wrapped) (hsides : f'.sides ⊆ f.sides)
    (hinner : ((Stages.get (u.stages.modify (nodeAt t.nodes node).last.stage g)
        (nodeAt t.nodes node).first.stage).projection.getD
      []).map (·.name) = f'.inner)
    (hopen : Exposing f' (g (t.stages.get (nodeAt t.nodes node).last.stage))) :
    Stands V s { u with stages := u.stages.modify (nodeAt t.nodes node).last.stage g } f' node := by
  have hlast := h.last
  have hnode : nodeAt u.nodes node = nodeAt t.nodes node := hm.last_eq h
  rw [← hm.open_] at hplain hkept hopen
  have hcalm : Calm (fun _ => True) t { u with stages := u.stages.modify (nodeAt t.nodes node).last.stage g } := by
    refine hm.calm.trans (calm_modify hfrom ?_ fun j hj => (hkept j hj).imp_right (·.floor))
    rw [hm.calm.label _ trivial hlast.bound]
    exact hplain
  have hnode' :
      nodeAt ({ u with stages := u.stages.modify (nodeAt t.nodes node).last.stage g } : State).nodes node = _ := hnode
  constructor <;> try rw [hnode']
  case after =>
    refine hm.after.change (changes_modifyStage hlast.among
      (fun hs => hlast.unsealed (hm.calm.unsealed _ trivial hlast.bound hs))
      (combinations_of_from (hfrom _)) fun j hj => (hkept j hj).imp_right fun hkept =>
        ⟨Nat.ne_of_gt (Nat.lt_of_lt_of_le hlast.bound hkept.floor), hkept.mono h.after.length⟩)
  case added => exact ⟨h.added.1, Nat.lt_of_lt_of_le h.added.2 hm.nodes.1⟩
  case alone => exact h.alone
  case way => exact h.way.calm hcalm fun _ _ => trivial
  case nodup => exact h.nodup
  case framed =>
    exact fun a ha => (hcalm.from_eq _ trivial (h.way.passable a (.tail _ ha)).bound).symm ▸ h.framed a ha
  case enclosed => exact hwrapped.trans h.enclosed
  case inner => exact hinner
  case open_ =>
    show Exposing f' (Stages.get (u.stages.modify _ g) _)
    rw [Stages.get_modify, if_pos ⟨rfl, Nat.lt_of_lt_of_le hlast.bound hm.calm.length⟩]
    exact hopen
  case sides =>
    exact fun x columns hx => (h.sides x columns (hsides hx)).calm hcalm (hm.lookup x columns (hsides hx)) hm.nodes.1
      (fun j hj => congrArg Node.first (hm.nodes.2 j hj)) fun j _ hj => hm.nodes.2 j hj

theorem projection_modify {stages : Stages} {id : StageId} {g : Stage → Stage} (hg : ∀ a, (g a).projection = a.projection)
    (j : StageId) : (Stages.get (stages.modify id g) j).projection = (stages.get j).projection := by
  rw [Stages.get_modify]
  split
  · rename_i hj
    rw [hj.1, hg]
  · rfl

/-- A clause refers to no elements but those that the stage had, and those of some expressions. -/
def Adds (es : List SqlExpr) (g : Stage → Stage) : Prop :=
  ∀ a, ∀ id ∈ (g a).elements, id ∈ a.elements ∨ ∃ e ∈ es, id ∈ e.elements

/-- A clause is put on the open stage. Its expressions were compiled in between. -/
theorem Stands.attach (h : Stands V s t f node) (hm : Meanwhile V s t u f node) {g clause : Stage → Stage}
    (hg : Clausal g clause) {es : List SqlExpr} (hadds : Adds es g)
    (hes : ∀ e ∈ es, ∀ id ∈ e.elements, Kept V.test t.stages.length u id) :
    Stands V s { u with stages := u.stages.modify (nodeAt t.nodes node).last.stage g } (f.attach clause) node := by
  refine h.change hm (fun a => (hg.stage a).1) (fun _ _ => plain_congr (hg.stage _).2.2) (fun id hid => ?_) rfl
    (List.Subset.refl _) ?_ (h.open_.attach hg)
  · exact (hadds _ id hid).imp_right fun ⟨e, he, hid⟩ => hes e he id hid
  · rw [projection_modify fun a => (hg.stage a).2.1, (hm.wider _ (h.way.passable _ (.head _)).bound).projection]
    exact h.inner

/-! ## Elements of clauses -/

section

variable {a : Stage} {e : SqlExpr} {id : StageId}

theorem adds_where (condition : SqlExpr) : Adds [condition] (addCondition condition) := by
  intro a id hid
  simp only [Stage.elements, Stage.clauseExprs, addCondition, List.flatMap_append, List.mem_append] at hid ⊢
  cases h : a.where_ <;> simp [h, SqlExpr.elements] at hid ⊢ <;> grind

theorem adds_orderBy (items : List OrderItem) :
    Adds (items.map (·.expr)) fun a => { a with orderBy := some items } := by
  intro a id hid
  simp only [Stage.elements, Stage.clauseExprs, List.flatMap_append, List.mem_append] at hid ⊢
  simp at hid ⊢
  grind

theorem adds_skip (count : SqlExpr) : Adds [count] fun a => { a with skip := some count } := by
  intro a id hid
  simp only [Stage.elements, Stage.clauseExprs, List.flatMap_append, List.mem_append] at hid ⊢
  simp at hid ⊢
  grind

theorem adds_limit (count : SqlExpr) : Adds [count] (addLimit count) := by
  intro a id hid
  simp only [Stage.elements, Stage.clauseExprs, addLimit, List.flatMap_append, List.mem_append] at hid ⊢
  cases h : a.limit <;> simp [h, SqlExpr.elements, SqlExpr.elementsOfAll] at hid ⊢ <;> grind

theorem adds_distinct : Adds [] fun a => { a with distinct := true } := fun _ _ hid => .inl hid

theorem adds_select (columns : List Column) :
    Adds (columns.map (·.expr)) fun a => { a with projection := some columns } := by
  intro a id hid
  simp only [Stage.elements, Stage.clauseExprs, List.flatMap_append, List.mem_append] at hid ⊢
  simp at hid ⊢
  grind

theorem adds_group (columns : List Column) (keys : List SqlExpr) :
    Adds (columns.map (·.expr) ++ keys) fun a => { a with projection := some columns, groupBy := some keys } := by
  intro a id hid
  simp only [Stage.elements, Stage.clauseExprs, List.flatMap_append, List.mem_append] at hid ⊢
  simp at hid ⊢
  grind

end

/-! ## Stages put around a node -/

/-- A stage that refers to no others. -/
theorem sealed_pushStage {stages : Stages} {stage : Stage} (hnone : stage.combinations = []) (hbare : stage.elements = [])
    {id : StageId} (h : Sealed (stages ++ [stage]) id) : Sealed stages id :=
  ((onlyNew_append hnone).sealed h).resolve_right (by simp [hbare])

theorem sealed_wrapped {id : StageId} (h : Sealed (wrapped t node label).stages id) : Sealed t.stages id :=
  sealed_pushStage rfl rfl h

theorem calm_wrapped : Calm (fun _ => True) t (wrapped t node label) :=
  calm_of_columns (by simp [wrapped]) (map_first_modify _ _ fun _ => rfl) (fun _ _ hid => by rw [get_wrapped hid])
    (fun _ _ hid => by rw [get_wrapped hid]) fun _ _ _ => sealed_wrapped

theorem after_wrapped (h : V.After s t) (hnode : s.nodes.length ≤ node) : V.After s (wrapped t node label) :=
  (h.change (changes_pushStage h.length rfl rfl fun _ hid => absurd hid List.not_mem_nil)).change
    (changes_modifyNode hnode fun _ => rfl)

variable (node label) in
/-- A stage that is put around a node selects from its open stage. -/
theorem passable_wrapper (hok : V.Ok t) (hfloor : s.stages.length ≤ t.stages.length) :
    Passable (s.stages.length ≤ ·) (wrapped t node label) t.stages.length ∧
      Fed (wrapped t node label) (nodeAt t.nodes node).last.name t.stages.length := by
  have hblank : Blank ((wrapped t node label).stages.get t.stages.length) := blank_wrapper
  refine ⟨⟨hfloor, by simp [wrapped], fun hsealed => ?_, neat_of_pulled hblank.pulled⟩, fun i hi => ?_⟩
  · exact Nat.lt_irrefl _ (hok.sealed _ (sealed_wrapped hsealed))
  · have hnone : ((wrapped t node label).nodes.map (·.first)).reverse.find? (·.stage == t.stages.length) = none := by
      rw [show (wrapped t node label).nodes.map (·.first) = t.nodes.map (·.first) from
        map_first_modify _ _ fun _ => rfl, List.find?_eq_none]
      intro a ha
      obtain ⟨n, hn, rfl⟩ := List.mem_map.mp (List.mem_reverse.mp ha)
      simpa using Nat.ne_of_lt (hok.nodes n hn)
    rw [Compile.label, hnone, get_wrapper]
    rfl

theorem endOf_selects (source : String) (l : List AliasedStage) (n : Node) :
    endOf source (l ++ n.selects) = n.last.name := by
  rw [endOf, Node.selects, List.getLast?_append, List.getLast?_cons]
  rfl

/-- A stage around a node, with nothing in it yet. -/
theorem Stands.wrap (h : Stands V s t f node) (hok : V.Ok s) : Stands V s (wrapped t node label) f.wrap node := by
  have hnode : nodeAt (wrapped t node label).nodes node = _ := nodeAt_wrapped h.added.2
  have hlast : (nodeAt (wrapped t node label).nodes node).last = _ := last_wrapped h.added.2
  have hcalm : Calm (fun _ => True) t (wrapped t node label) := calm_wrapped
  obtain ⟨hpassable, hfed⟩ := passable_wrapper node label (hok.after h.after) h.after.length
  have hbound (a : AliasedStage) (ha : a ∈ (nodeAt t.nodes node).selects) := (h.way.passable a ha).bound
  constructor
  case after => exact after_wrapped h.after h.added.1
  case added => exact ⟨h.added.1, by simpa [wrapped] using h.added.2⟩
  case alone => rw [hnode]; exact h.alone
  case way =>
    rw [hnode]
    refine (h.way.calm hcalm fun _ _ => trivial).concat (a := ⟨label, t.stages.length⟩) hpassable ?_
    rw [← List.nil_append (Node.selects _), endOf_selects]
    exact hfed
  case nodup =>
    rw [hnode]
    exact (h.new.append (a := ⟨label, t.stages.length⟩) h.after.length (Nat.le_refl _) hpassable.bound).nodup
  case framed =>
    rw [hnode]
    intro a ha
    rcases List.mem_append.mp ha with ha | ha
    · rw [get_wrapped (hbound a (.tail _ ha))]
      exact h.framed a ha
    · obtain rfl := List.mem_singleton.mp ha
      rw [get_wrapper]
      exact ⟨_, rfl⟩
  case enclosed => simp [hnode, Face.wrap]
  case inner =>
    rw [hnode]
    show ((Stages.get _ (nodeAt t.nodes node).first.stage).projection.getD []).map _ = _
    rw [get_wrapped (hbound _ (.head _))]
    exact h.inner
  case open_ =>
    rw [hlast, get_wrapper]
    refine ⟨⟨rfl, rfl, rfl, rfl, rfl, rfl⟩, ?_, fun _ => ⟨⟨rfl, rfl⟩, fun _ => ⟨_, rfl⟩⟩, ?_⟩ <;>
      exact fun hlisted => by cases hlisted
  case sides =>
    intro x columns hx
    obtain ⟨id, l, hlookup, hid, hunder, hway⟩ := h.sides x columns hx
    have hunder' := hunder.congr (Nat.le_of_eq (List.length_modify ..).symm) fun j hj _ =>
      nodeAt_modify_ne t.nodes (fun n => { n with wrappers := n.wrappers ++ [⟨label, t.stages.length⟩] })
        (Nat.ne_of_lt hj)
    have hfirst : (nodeAt (wrapped t node label).nodes id).first = (nodeAt t.nodes id).first := by
      by_cases hid' : node = id
      · rw [← hid', hnode]
      · rw [show (wrapped t node label).nodes = t.nodes.modify node _ from rfl, nodeAt_modify_ne _ _ hid']
    refine ⟨id, l, hlookup, by simpa [wrapped] using hid, hunder', ?_⟩
    rw [hnode, hfirst]
    show Way _ _ _ (l ++ ((nodeAt t.nodes node).selects ++ [_]))
    rw [← List.append_assoc]
    refine (hway.calm hcalm fun _ _ => trivial).concat hpassable ?_
    rw [endOf_selects]
    exact hfed

/-- The stage that takes a clause is the open stage. -/
theorem Stands.openFor {c : Context} {clause : Clause} {id : StageId} (h : Stands V s t f node) (hok : V.Ok s)
    (hrun : Gives (Compile.openFor clause node label) c t id u) :
    Stands V s u (f.openFor clause) node ∧ id = (nodeAt u.nodes node).last.stage := by
  rw [gives_openFor_iff, ← h.open_.clauses.compatible clause] at hrun
  unfold Face.openFor
  split at hrun
  · rename_i hopen
    obtain ⟨rfl, rfl⟩ := hrun
    rw [if_pos hopen]
    exact ⟨h, rfl⟩
  · rename_i hclosed
    obtain ⟨rfl, rfl⟩ := hrun
    rw [if_neg hclosed, last_wrapped h.added.2]
    exact ⟨h.wrap hok, rfl⟩

/-! ## Expressions around a node -/

section

variable {α : Type} {m : CompileM α} {R : State → α → Prop} {a : α}

/-- What is compiled in the scope of the open stage sees the variables of the node, and leaves that stage alone. -/
theorem Stands.inside (h : Stands V s t f node) (used : List String) (hok : V.Ok s)
    (hused : ∀ x columns, (x, columns) ∈ f.sides → x ∈ used)
    (hm : ∀ scopes can, (V.enter scopes f.sides used can).Yields t m R)
    (hrun : Gives (inScope (nodeAt t.nodes node).last.stage m) V.context t a u) :
    Meanwhile V s t u f node ∧ R u a := by
  have hlast := h.last
  let can (id : StageId) : Prop := Passable (s.stages.length ≤ ·) t id ∧ id ≠ (nodeAt t.nodes node).last.stage
  have hscope (rest : List StageId) : ((nodeAt t.nodes node).last.stage :: rest).contains
      (nodeAt t.nodes node).last.stage = true := by simp
  have hokT : (V.enter [(nodeAt t.nodes node).last.stage] f.sides used can).Ok t := by
    refine ok_enter (hok.after h.after) (fun x columns hx => ⟨hused x columns hx, ?_⟩)
      (fun id hid => ⟨hid.1.bound, hid.1.unsealed⟩) (fun id hid => List.mem_singleton.mp hid ▸ hlast.bound)
    refine (h.sides x columns hx).bound [] (by rw [h.track, List.append_nil]) (fun id hid => ?_) trivial
    by_cases hid' : id = (nodeAt t.nodes node).last.stage
    · exact .inl (hid' ▸ hscope _)
    · exact .inr (.inr ⟨hid, hid'⟩)
  obtain ⟨hafter, ha⟩ := hm _ _ t a u (.refl t) hokT (gives_inScope.mp hrun)
  have hall : V.After s u := h.after.trans_of hafter
    (fun id hid hcan => hcan.resolve_right fun hnew => Nat.lt_irrefl _ (Nat.lt_of_lt_of_le hid hnew.1.among))
    (List.subset_append_right _ _) rfl
  refine ⟨h.meanwhile hafter hall ?_ fun x columns hx => List.mem_append_left _ (hused x columns hx), ha⟩
  exact fun hcan => hcan.elim (h.outside hok) fun hnew => hnew.2 rfl

/-- What is compiled beside a node does not see its variables. -/
theorem Stands.beside (h : Stands V s t f node) (used : List String) (hok : V.Ok s)
    (hused : ∀ x columns, (x, columns) ∈ f.sides → x ∈ used)
    (hm : ∀ scopes can, (V.enter scopes [] used can).Yields t m R) (hrun : Gives m V.context t a u) :
    Meanwhile V s t u f node ∧ R u a := by
  have hokT : (V.enter [] [] used fun _ => False).Ok t :=
    ok_enter (hok.after h.after) (by simp) (by simp) (by simp)
  obtain ⟨hafter, ha⟩ := hm _ _ t a u (.refl t) hokT hrun
  have hall : V.After s u := h.after.trans_of hafter (fun id hid hcan => hcan.resolve_right fun hnew => hnew)
    (List.subset_append_right _ _) rfl
  refine ⟨h.meanwhile hafter hall ?_ fun x columns hx => List.mem_append_left _ (hused x columns hx), ha⟩
  exact fun hcan => hcan.elim (h.outside hok) id

/-- What is compiled around a node sees its variables from outside. -/
theorem Stands.around (h : Stands V s t f node) (used : List String) (hok : V.Ok s)
    (hused : ∀ x columns, (x, columns) ∈ f.sides → x ∈ used)
    (hm : ∀ scopes can, (V.enter scopes f.sides used can).Yields t m R) (hrun : Gives m V.context t a u) :
    V.After s u ∧ t.nodes.length ≤ u.nodes.length ∧ R u a := by
  have hokT : (V.enter [] f.sides used (Passable (s.stages.length ≤ ·) t)).Ok t := by
    refine ok_enter (hok.after h.after) (fun x columns hx => ⟨hused x columns hx, ?_⟩)
      (fun id hid => ⟨hid.bound, hid.unsealed⟩) (by simp)
    refine (h.sides x columns hx).bound [] (by rw [h.track, List.append_nil]) (fun id hid => ?_) trivial
    exact .inr (.inr hid)
  obtain ⟨hafter, ha⟩ := hm _ _ t a u (.refl t) hokT hrun
  refine ⟨h.after.trans_of hafter ?_ (List.subset_append_right _ _) rfl, length_nodes hafter, ha⟩
  exact fun id hid hcan => hcan.resolve_right fun hnew => Nat.lt_irrefl _ (Nat.lt_of_lt_of_le hid hnew.among)

end

end TreeSql.Compile.Vicinity
