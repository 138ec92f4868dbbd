import TreeSql.Proofs.References.After

/-
  TreeSql.Proofs.References.Routes — the way of a column outwards.

  A column of a node is pulled through the stages of the node and of the joins around it (`track`). Each
  stage has to show it to the next one (`Climbs`), up to a stage whose clauses are being built. A column
  keeps its name until it comes to a join, which may rename it.
-/
namespace TreeSql.Compile

open Sql

variable {c : Context} {s t u : State}

/-! ## Tracks -/

/-- A node by number, as it is looked up. -/
def nodeAt (nodes : List Node) (id : NodeId) : Node := (nodes[id]?).getD { first := ⟨"", 0⟩ }

theorem gives_getNode_bind {α : Type} {id : NodeId} {f : Node → CompileM α} {a : α} :
    Gives (getNode id >>= f) c s a t ↔ Gives (f (nodeAt s.nodes id)) c s a t := .rfl

theorem gives_getNode_iff {id : NodeId} {n : Node} :
    Gives (getNode id) c s n t ↔ n = nodeAt s.nodes id ∧ t = s := gives_getNode

/-- The stages of a node and of the joins around it, innermost first. -/
def track (nodes : List Node) (node : NodeId) : List AliasedStage :=
  (nodeAt nodes node).selects ++
    match (nodeAt nodes node).joinParent with
    | some parent => if _h : parent < node then track nodes parent else []
    | none => []
termination_by node

theorem track_append {nodes : List Node} (new : List Node) {node : Nat} (h : node < nodes.length) :
    track (nodes ++ new) node = track nodes node := by
  induction node using Nat.strongRecOn with
  | ind node ih =>
    have hnode : nodeAt (nodes ++ new) node = nodeAt nodes node := by
      rw [nodeAt, nodeAt, List.getElem?_append_left h]
    rw [track, track.eq_1 nodes, hnode]
    congr 1
    split
    · rename_i parent _
      split
      · rename_i hlt
        exact ih parent hlt (Nat.lt_trans hlt h)
      · rfl
    · rfl

theorem gives_pullToScope_append {path p : ColumnPath} {found : Bool} {l l' : List AliasedStage}
    {r : ColumnPath × Bool} (h : Gives (pullToScope path l) c s (p, found) u)
    (h' : if found then r = (p, true) ∧ t = u else Gives (pullToScope p l') c u r t) :
    Gives (pullToScope path (l ++ l')) c s r t := by
  induction l generalizing path s with
  | nil =>
    obtain ⟨hr, rfl⟩ := gives_pure.mp h
    cases hr
    exact h'
  | cons a l ih =>
    rw [List.cons_append, pullToScope, gives_read_bind]
    rw [pullToScope, gives_read_bind] at h
    by_cases ha : c.scopes.contains a.stage = true
    · rw [if_pos ha] at h ⊢
      obtain ⟨hr, rfl⟩ := gives_pure.mp h
      cases hr
      exact gives_pure.mpr h'
    · rw [if_neg ha] at h ⊢
      obtain ⟨path', v, hpull, h⟩ := gives_bind.mp h
      exact gives_bind.mpr ⟨path', v, hpull, ih h⟩

theorem nodes_pullToScope {path : ColumnPath} {l : List AliasedStage} {r : ColumnPath × Bool}
    (h : Gives (pullToScope path l) c s r t) : t.nodes = s.nodes := by
  induction l generalizing path s with
  | nil =>
    obtain ⟨-, rfl⟩ := gives_pure.mp h
    rfl
  | cons a l ih =>
    rw [pullToScope, gives_read_bind] at h
    by_cases ha : c.scopes.contains a.stage = true
    · rw [if_pos ha] at h
      obtain ⟨-, rfl⟩ := gives_pure.mp h
      rfl
    · rw [if_neg ha] at h
      obtain ⟨path', v, hpull, h⟩ := gives_bind.mp h
      obtain ⟨name, w, hname, hpath⟩ := gives_bind.mp hpull
      obtain ⟨-, rfl⟩ := gives_pure.mp hpath
      obtain ⟨-, rfl⟩ := gives_pullColumn.mp hname
      have hnodes := ih h
      exact hnodes

/-- A column is pulled along the track of its node. -/
theorem gives_pullFrom {node : Nat} {path r : ColumnPath} (h : Gives (pullFrom node path) c s r t) :
    ∃ found, Gives (pullToScope path (track s.nodes node)) c s (r, found) t := by
  induction node using Nat.strongRecOn generalizing path s with
  | ind node ih =>
    rw [pullFrom, gives_getNode_bind] at h
    obtain ⟨⟨p, found⟩, w, hpull, h⟩ := gives_bind.mp h
    have hnodes := nodes_pullToScope hpull
    rw [track]
    cases found with
    | true =>
      obtain ⟨rfl, rfl⟩ := gives_pure.mp h
      exact ⟨true, gives_pullToScope_append hpull ⟨rfl, rfl⟩⟩
    | false =>
      have hend (h : Gives (pure p) c w r t) : ∃ found, Gives (pullToScope path
          ((nodeAt s.nodes node).selects ++ [])) c s (r, found) t := by
        obtain ⟨rfl, rfl⟩ := gives_pure.mp h
        exact ⟨false, gives_pullToScope_append hpull rfl⟩
      cases hparent : (nodeAt s.nodes node).joinParent with
      | none =>
        simp only [hparent] at h
        exact hend h
      | some parent =>
        simp only [hparent] at h
        by_cases hlt : parent < node
        · simp only [dif_pos hlt] at h ⊢
          obtain ⟨found, h⟩ := ih parent hlt h
          rw [hnodes] at h
          exact ⟨found, gives_pullToScope_append hpull h⟩
        · simp only [dif_neg hlt] at h ⊢
          exact hend h

/-! ## One column through one stage -/

/-- What pulling a column does to a stage. -/
structure PullsInto (s s' : Stage) (source column name : String) : Prop where
  wider : Wider s s'
  shown : name ∈ s'.pulled.map (·.name)
  pulled : ∀ p ∈ s'.pulled, p ∈ s.pulled ∨ (p.source = source ∧ p.column = column)

theorem pull_spec (s : Stage) (source column : String) (counter : Nat) :
    PullsInto s (s.pull source column counter).2.1 source column (s.pull source column counter).1 ∧
      counter ≤ (s.pull source column counter).2.2 := by
  unfold Stage.pull
  split
  · rename_i name hname
    obtain ⟨p, hp, rfl⟩ := Option.map_eq_some_iff.mp hname
    exact ⟨⟨.refl s, List.mem_map_of_mem (List.mem_of_find?_eq_some hp), fun _ h => .inl h⟩, Nat.le_refl _⟩
  · refine ⟨⟨⟨rfl, List.subset_append_left _ _⟩, by simp, fun p hp => ?_⟩, le_freshName _ _ _ _ _⟩
    refine (List.mem_append.mp hp).imp_right fun hp => ?_
    rw [List.mem_singleton.mp hp]
    exact ⟨rfl, rfl⟩

section

variable {schema : Option Schema} {can : StageId → Prop} {taken : String → Prop}

variable (schema can taken) in
theorem after_pull {a : AliasedStage} {source name : String} {path : ColumnPath}
    (hid : a.stage < s.stages.length) (hcan : can a.stage)
    (hvisible : (s.stages.get a.stage).projection = none →
      Found schema s.stages (s.stages.get a.stage).items (source, name))
    (hplain : ¬Merges (s.stages.get a.stage) →
      Plain source (s.stages.get a.stage) ∧ label s a.stage = source)
    (hrun : Gives (pullThrough ⟨source, name⟩ a) c s path t) :
    After schema can taken s t ∧ ∃ name', path = ⟨a.name, name'⟩ ∧
      (¬Merges (s.stages.get a.stage) → name' = name) ∧ Shows t.stages a.stage [name'] := by
  obtain ⟨name', v, hpull, hpath⟩ := gives_bind.mp hrun
  obtain ⟨rfl, rfl⟩ := gives_pure.mp hpath
  obtain ⟨rfl, rfl⟩ := gives_pullColumn.mp hpull
  obtain ⟨hinto, hle⟩ := pull_spec (s.stages.get a.stage) source name s.aliases
  have hkeeps : ¬Merges (s.stages.get a.stage) →
      ((s.stages.get a.stage).pull source name s.aliases).1 = name ∧
        Plain source ((s.stages.get a.stage).pull source name s.aliases).2.1 := by
    intro hmerges
    rw [pull_plain (hplain hmerges).1]
    exact ⟨rfl, plain_expose (hplain hmerges).1 _⟩
  generalize (s.stages.get a.stage).pull source name s.aliases = r at hinto hle hkeeps
  have hget (id : Nat) : Stages.get (s.stages.set a.stage r.2.1) id =
      if id = a.stage then r.2.1 else s.stages.get id := by
    rw [Stages.get_set]
    simp [hid]
  have hwider (id : Nat) : Wider (s.stages.get id) (Stages.get (s.stages.set a.stage r.2.1) id) := by
    rw [hget]
    split
    · rename_i h
      rw [h]
      exact hinto.wider
    · exact .refl _
  refine ⟨⟨by simp, fun id _ => hwider id, fun id _ p hp => ?_, ?_, fun _ _ => rfl, hle⟩, r.1, rfl,
    fun hmerges => (hkeeps hmerges).1, fun _ x hx => ?_⟩
  · have hp' : p ∈ (Stages.get (s.stages.set a.stage r.2.1) id).pulled := hp
    rw [hget] at hp'
    split at hp'
    · rename_i h
      subst h
      rcases hinto.pulled p hp' with hp | ⟨hsource, hcolumn⟩
      · exact .inl hp
      · refine .inr ⟨hcan, fun hnone => ?_, fun hmerges => ⟨?_, ((hkeeps hmerges).2 p hp').2⟩⟩
        · rw [hsource, hcolumn]
          exact (shown_of_wider fun id _ => hwider id).found (hvisible hnone)
        · rw [hsource, (hplain hmerges).2]
    · exact .inl hp'
  · exact (AddedNodes.refl s).later rfl (by simp)
  · obtain rfl : x = r.1 := by simpa using hx
    show r.1 ∈ (Stages.get (s.stages.set a.stage r.2.1) a.stage).pulled.map (·.name)
    rw [hget, if_pos rfl]
    exact hinto.shown

/-! ## Routes -/

variable (schema) in
/-- The select list of a stage, if it has one, has the column: whose name has to be known for that. -/
def Carries (s : State) (known : Option String) (a : AliasedStage) : Prop :=
  schema.isSome → ∀ columns, (s.stages.get a.stage).projection = some columns →
    ∃ name ∈ known, name ∈ columns.map (·.name)

/-- The item is the stage. -/
def StandsFor (env : Items) (a : AliasedStage) : Prop :=
  ∃ i, Items.at_ env a.name = some i ∧ i.source = .stage a.stage

/-- A stage around another one, which pulls columns from nowhere else. -/
structure Around (s : State) (a b : AliasedStage) : Prop where
  bound : b.stage < s.stages.length
  from_eq : (s.stages.get b.stage).from_ = some (.item { source := .stage a.stage, name := a.name })
  plain : Plain a.name (s.stages.get b.stage)
  label : label s b.stage = a.name

variable (schema) in
/-- A column goes outwards from a stage, through the stages of a list: what is known of its name at first and
    in the end. -/
inductive Climbs (s : State) : Option String → AliasedStage → List AliasedStage → Option String → Prop
  | nil {known : Option String} {a : AliasedStage} : Climbs s known a [] known
  | plain {known end_ : Option String} {a b : AliasedStage} {rest : List AliasedStage} : Around s a b →
    ((s.stages.get b.stage).projection = none → Carries schema s known a) →
    Climbs s known b rest end_ → Climbs s known a (b :: rest) end_
  | merge {known end_ : Option String} {a b : AliasedStage} {rest : List AliasedStage} :
    b.stage < s.stages.length → Merges (s.stages.get b.stage) →
    StandsFor (s.stages.get b.stage).items a → Carries schema s known a →
    Climbs s none b rest end_ → Climbs s known a (b :: rest) end_

variable (schema) in
/-- A column starts at the innermost stage of a node. -/
structure Starts (s : State) (name : String) (a : AliasedStage) : Prop where
  bound : a.stage < s.stages.length
  unmerged : ¬Merges (s.stages.get a.stage)
  plain : Plain a.name (s.stages.get a.stage)
  label : label s a.stage = a.name
  visible : (s.stages.get a.stage).projection = none →
    Found schema s.stages (s.stages.get a.stage).items (a.name, name)

theorem not_merges_of_item {s : Stage} {i : FromItem} (h : s.from_ = some (.item i)) : ¬Merges s :=
  fun hm => hm.2 i h

theorem standsFor_item (a : AliasedStage) {s : Stage}
    (h : s.from_ = some (.item { source := .stage a.stage, name := a.name })) : StandsFor s.items a := by
  refine ⟨{ source := .stage a.stage, name := a.name }, ?_, rfl⟩
  rw [Stage.items, h]
  simp [Items.at_, FromTree.items]

theorem topOf_append (a : AliasedStage) (l l' : List AliasedStage) : topOf a (l ++ l') = topOf (topOf a l) l' := by
  induction l generalizing a with
  | nil => rfl
  | cons b l ih => rw [List.cons_append, topOf_cons, topOf_cons, ih]

theorem topOf_mem (a : AliasedStage) (l : List AliasedStage) : topOf a l ∈ a :: l := by
  induction l generalizing a with
  | nil => exact .head _
  | cons b l ih =>
    rw [topOf_cons]
    exact .tail _ (ih b)

/-! ## Routes, longer and shorter -/

theorem climbs_bound {known end_ : Option String} {a : AliasedStage} {l : List AliasedStage}
    (ha : a.stage < s.stages.length) (h : Climbs schema s known a l end_) :
    (topOf a l).stage < s.stages.length := by
  induction h with
  | nil => exact ha
  | plain hb _ _ ih =>
    rw [topOf_cons]
    exact ih hb.bound
  | merge hb _ _ _ _ ih =>
    rw [topOf_cons]
    exact ih hb

theorem Climbs.append {known mid end_ : Option String} {a : AliasedStage} {l l' : List AliasedStage}
    (h : Climbs schema s known a l mid) (h' : Climbs schema s mid (topOf a l) l' end_) :
    Climbs schema s known a (l ++ l') end_ := by
  induction h with
  | nil => exact h'
  | plain hb hcarries _ ih =>
    rw [topOf_cons] at h'
    exact .plain hb hcarries (ih h')
  | merge hb hmerges hstands hcarries _ ih =>
    rw [topOf_cons] at h'
    exact .merge hb hmerges hstands hcarries (ih h')

/-- The last stage of a route is seen from inside. -/
theorem Climbs.last {known end_ : Option String} {a b : AliasedStage} {l : List AliasedStage}
    (h : Climbs schema s known a (l ++ [b]) end_) : ∃ mid, Climbs schema s known a l mid ∧
      StandsFor (s.stages.get b.stage).items (topOf a l) ∧
      ((s.stages.get b.stage).projection = none → Carries schema s mid (topOf a l)) := by
  induction l generalizing a known with
  | nil =>
    cases h with
    | plain hb hcarries _ => exact ⟨known, .nil, standsFor_item a hb.from_eq, hcarries⟩
    | merge _ _ hstands hcarries _ => exact ⟨known, .nil, hstands, fun _ => hcarries⟩
  | cons c l ih =>
    rw [topOf_cons]
    cases h with
    | plain hc hcarries hrest =>
      obtain ⟨mid, hl, hend⟩ := ih hrest
      exact ⟨mid, .plain hc hcarries hl, hend⟩
    | merge hc hmerges hstands hcarries hrest =>
      obtain ⟨mid, hl, hend⟩ := ih hrest
      exact ⟨mid, .merge hc hmerges hstands hcarries hl, hend⟩

/-! ## Routes in later states -/

section

variable {among : StageId → Prop}

theorem Steady.merges (h : Steady among s t) {id : Nat} (hid : id < s.stages.length) (hamong : among id) :
    Merges (t.stages.get id) ↔ Merges (s.stages.get id) := by
  unfold Merges
  rw [h.from_eq id hamong hid, h.projection id hamong hid]

theorem Steady.plain (h : Steady among s t) {id : Nat} (hid : id < s.stages.length) (hamong : among id)
    {source : String} (hplain : Plain source (s.stages.get id)) (hlabel : Compile.label s id = source)
    (hmerges : ¬Merges (s.stages.get id)) : Plain source (t.stages.get id) := by
  intro p hp
  rcases h.pulled id hamong hid p hp with hp | hfits
  · exact hplain p hp
  · rw [← hlabel]
    exact hfits hmerges

theorem Steady.items (h : Steady among s t) {id : Nat} (hid : id < s.stages.length) (hamong : among id) :
    (t.stages.get id).items = (s.stages.get id).items := by
  rw [Stage.items, h.from_eq id hamong hid]
  rfl

theorem Carries.steady (h : Steady among s t) {known : Option String} {a : AliasedStage}
    (ha : a.stage < s.stages.length) (hamong : among a.stage) (hcarries : Carries schema s known a) :
    Carries schema t known a := by
  unfold Carries
  rw [h.projection a.stage hamong ha]
  exact hcarries

theorem Around.steady (h : Steady among s t) {a b : AliasedStage} (hamong : among b.stage)
    (hb : Around s a b) : Around t a b where
  bound := Nat.lt_of_lt_of_le hb.bound h.length
  from_eq := (h.from_eq _ hamong hb.bound).trans hb.from_eq
  plain := h.plain hb.bound hamong hb.plain hb.label (not_merges_of_item hb.from_eq)
  label := (h.label _ hamong hb.bound).trans hb.label

theorem Starts.steady (h : Steady among s t) {name : String} {a : AliasedStage} (hamong : among a.stage)
    (ha : Starts schema s name a) : Starts schema t name a where
  bound := Nat.lt_of_lt_of_le ha.bound h.length
  unmerged hm := ha.unmerged ((h.merges ha.bound hamong).mp hm)
  plain := h.plain ha.bound hamong ha.plain ha.label ha.unmerged
  label := (h.label _ hamong ha.bound).trans ha.label
  visible hnone := by
    rw [h.items ha.bound hamong]
    exact h.shown.found (ha.visible (h.projection _ hamong ha.bound ▸ hnone))

theorem Climbs.steady (h : Steady among s t) {known end_ : Option String} {a : AliasedStage}
    {l : List AliasedStage} (ha : a.stage < s.stages.length) (hamong : ∀ b ∈ a :: l, among b.stage)
    (hl : Climbs schema s known a l end_) : Climbs schema t known a l end_ := by
  induction hl with
  | nil => exact .nil
  | @plain known end_ a b rest hb hcarries _ ih =>
    have hamong' := hamong b (.tail _ (.head _))
    refine .plain (hb.steady h hamong') (fun hnone => ?_) (ih hb.bound fun c hc => hamong c (.tail _ hc))
    exact (hcarries (h.projection _ hamong' hb.bound ▸ hnone)).steady h ha (hamong a (.head _))
  | @merge known end_ a b rest hb hmerges hstands hcarries _ ih =>
    have hamong' := hamong b (.tail _ (.head _))
    refine .merge (Nat.lt_of_lt_of_le hb h.length) ((h.merges hb hamong').mpr hmerges) ?_
      (hcarries.steady h ha (hamong a (.head _))) (ih hb fun c hc => hamong c (.tail _ hc))
    rw [h.items hb hamong']
    exact hstands

end

/-! ## Columns on their routes -/

/-- A column that was pulled through a stage, or is in its select list, is exposed. -/
theorem mem_outputNames {known : Option String} {a : AliasedStage} {name : String}
    (hknown : ∀ x ∈ known, x = name) (hcarries : Carries schema s known a) (hasked : schema.isSome)
    (hshows : Shows s.stages a.stage [name]) : name ∈ (s.stages.get a.stage).outputNames := by
  unfold Stage.outputNames
  cases hp : (s.stages.get a.stage).projection with
  | none => exact hshows hp name (.head _)
  | some columns =>
    obtain ⟨x, hx, hmem⟩ := hcarries hasked columns hp
    rw [← hknown x hx]
    exact hmem

theorem found_of_standsFor {env : Items} {known : Option String} {a : AliasedStage} {name : String}
    (h : StandsFor env a) (hknown : ∀ x ∈ known, x = name) (hcarries : Carries schema s known a)
    (hshows : Shows s.stages a.stage [name]) : Found schema s.stages env (a.name, name) := by
  obtain ⟨i, hi, hsource⟩ := h
  refine ⟨i, hi, fun columns hcolumns => ?_⟩
  rw [hsource]
  exact mem_outputNames hknown hcarries (by rw [Option.mem_def.mp hcolumns]; rfl) hshows

variable (schema can taken) in
/-- A column is pulled along its route, up to a stage in scope. -/
theorem gives_pullToScope_climbs {known end_ : Option String} {a : AliasedStage}
    {l rest : List AliasedStage} {name : String} {r : ColumnPath × Bool}
    (hclimbs : Climbs schema s known a l end_) (ha : a.stage < s.stages.length) (hknown : ∀ x ∈ known, x = name)
    (hcan : ∀ b ∈ l, can b.stage ∧ c.scopes.contains b.stage = false) (hrest : InScope c rest)
    (hshows : Shows s.stages a.stage [name])
    (hrun : Gives (pullToScope ⟨a.name, name⟩ (l ++ rest)) c s r t) :
    After schema can taken s t ∧ ∃ name', r.1 = ⟨(topOf a l).name, name'⟩ ∧ (∀ x ∈ end_, x = name') ∧
      Shows t.stages (topOf a l).stage [name'] := by
  induction l generalizing s known a name with
  | nil =>
    cases hclimbs
    cases rest with
    | nil =>
      obtain ⟨rfl, rfl⟩ := gives_pure.mp hrun
      exact ⟨.refl _, name, rfl, hknown, hshows⟩
    | cons b l =>
      have hb : c.scopes.contains b.stage = true := hrest
      rw [List.nil_append, pullToScope, gives_read_bind, if_pos hb] at hrun
      obtain ⟨rfl, rfl⟩ := gives_pure.mp hrun
      exact ⟨.refl _, name, rfl, hknown, hshows⟩
  | cons b l ih =>
    obtain ⟨hb, hout⟩ := hcan b (.head _)
    rw [List.cons_append, pullToScope, gives_read_bind, if_neg (by rw [hout]; simp)] at hrun
    obtain ⟨path, v, hpull, hlast⟩ := gives_bind.mp hrun
    have hsteady {v : State} (hafter : After schema can taken s v) (hid : b.stage < s.stages.length)
        {known : Option String} (hl : Climbs schema s known b l end_) : Climbs schema v known b l end_ := by
      have hsteady : Steady (fun _ => True) s v := hafter.steady
      exact hl.steady hsteady hid fun _ _ => trivial
    rw [topOf_cons]
    cases hclimbs with
    | plain haround hcarries hl =>
      obtain ⟨hafter, name', rfl, hname, hshows'⟩ := after_pull schema can taken haround.bound hb
        (fun hnone => found_of_standsFor (standsFor_item a haround.from_eq) hknown (hcarries hnone) hshows)
        (fun _ => ⟨haround.plain, haround.label⟩) hpull
      obtain rfl := hname (not_merges_of_item haround.from_eq)
      obtain ⟨hlater, hend⟩ := ih (hsteady hafter haround.bound hl)
        (Nat.lt_of_lt_of_le haround.bound hafter.length) hknown (fun b hb => hcan b (.tail _ hb)) hshows' hlast
      exact ⟨hafter.trans hlater, hend⟩
    | merge hid hmerges hstands hcarries hl =>
      obtain ⟨hafter, name', rfl, -, hshows'⟩ := after_pull schema can taken hid hb
        (fun _ => found_of_standsFor hstands hknown hcarries hshows)
        (fun hm => (hm hmerges).elim) hpull
      obtain ⟨hlater, hend⟩ := ih (hsteady hafter hid hl) (Nat.lt_of_lt_of_le hid hafter.length) (by simp)
        (fun b hb => hcan b (.tail _ hb)) hshows' hlast
      exact ⟨hafter.trans hlater, hend⟩

end

end TreeSql.Compile
