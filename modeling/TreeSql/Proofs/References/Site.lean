import TreeSql.Proofs.References.Names
import TreeSql.Proofs.References.Routes
import TreeSql.Proofs.References.Typing

/-
  TreeSql.Proofs.References.Site — where an expression is compiled, and what it may refer to there.

  A `Site` has the FROM items that can be seen and the variables that are in scope. It holds of a state
  (`Ok`) if each variable is bound to a node whose columns lead to one of the items (`Leads`); then every
  property that is in scope becomes a visible reference (`gives_boundColumn`). `enter` adds variables and
  items, for the clauses of a stage.
-/
namespace TreeSql.Compile

open Sql

structure Site where
  schema : Option Schema
  context : Context
  /-- The FROM items that can be seen, the nearest first. -/
  env : Items
  scope : Scope
  /-- The names that have a meaning already. -/
  taken : String → Prop
  /-- The stages that columns of the variables come through. -/
  reach : StageId → Prop
  /-- Stages are numbered from here on. -/
  floor : Nat
  /-- Aliases are numbered after this one. -/
  drawn : Nat
  query : context.mode = .query

namespace Site

variable {S : Site} {s t u : State}

variable (S) in
/-- Columns can be pulled through the stage. -/
def Can (id : StageId) : Prop := S.reach id ∧ S.context.scopes.contains id = false

variable (S) in
/-- A later state, as seen from here. -/
abbrev After (s t : State) : Prop := Compile.After S.schema S.Can S.taken s t

variable (S) in
/-- A column of a node becomes a visible reference, on its way through the stages of the track. -/
inductive Leads (s : State) (name : String) : List AliasedStage → Prop
  | here {a : AliasedStage} {rest : List AliasedStage} :
    S.context.scopes.contains a.stage = true → Found S.schema s.stages S.env (a.name, name) →
    Leads s name (a :: rest)
  | through {a : AliasedStage} {l rest : List AliasedStage} {end_ : Option String} :
    (∀ b ∈ a :: l, S.Can b.stage) → InScope S.context rest → Starts S.schema s name a →
    Climbs S.schema s (some name) a l end_ → Carries S.schema s end_ (topOf a l) → StandsFor S.env (topOf a l) →
    Leads s name (a :: l ++ rest)

variable (S) in
/-- A variable is bound to a node, and its columns can be referred to. -/
def Bound (s : State) (x : String) (columns : Columns) : Prop :=
  ∃ node, s.bindings.lookup x = some node ∧ node < s.nodes.length ∧
    ∀ name, columns.has name = true → S.Leads s name (track s.nodes node)

variable (S) in
/-- The variables in scope are bound. -/
structure Ok (s : State) : Prop where
  floor : S.floor ≤ s.stages.length
  drawn : S.drawn ≤ s.aliases
  reach : ∀ id, S.reach id → id < s.stages.length
  scopes : ∀ id ∈ S.context.scopes, id < s.stages.length
  nodes : ∀ n ∈ s.nodes, n.first.stage < s.stages.length
  items : ∀ i ∈ S.env, S.taken i.name
  vars : ∀ x columns, (x, columns) ∈ S.scope → S.taken x
  bound : ∀ x columns, (x, columns) ∈ S.scope → S.Bound s x columns

theorem Leads.after (h : S.After s t) {name : String} {l : List AliasedStage} (hl : S.Leads s name l) :
    S.Leads t name l := by
  have hsteady : Steady (fun _ => True) s t := h.steady
  cases hl with
  | here hscope hvisible => exact .here hscope (h.shown.found hvisible)
  | through hcan hrest hstarts hclimbs hcarries hstands =>
    exact .through hcan hrest (hstarts.steady hsteady trivial)
      (hclimbs.steady hsteady hstarts.bound fun _ _ => trivial)
      (hcarries.steady hsteady (climbs_bound hstarts.bound hclimbs) trivial) hstands

theorem Bound.after (h : S.After s t) {x : String} {columns : Columns} (hx : S.taken x)
    (hbound : S.Bound s x columns) : S.Bound t x columns := by
  obtain ⟨node, hlookup, hnode, hleads⟩ := hbound
  obtain ⟨new, hnodes, -⟩ := h.nodes.added
  refine ⟨node, (h.lookup x hx).trans hlookup, ?_, fun name hname => ?_⟩
  · rw [hnodes, List.length_append]
    exact Nat.lt_of_lt_of_le hnode (Nat.le_add_right _ _)
  · rw [hnodes, track_append new hnode]
    exact (hleads name hname).after h

theorem Ok.after (hok : S.Ok s) (h : S.After s t) : S.Ok t where
  floor := Nat.le_trans hok.floor h.length
  drawn := Nat.le_trans hok.drawn h.aliases
  reach id hid := Nat.lt_of_lt_of_le (hok.reach id hid) h.length
  scopes id hid := Nat.lt_of_lt_of_le (hok.scopes id hid) h.length
  nodes n hn := by
    obtain ⟨new, hnodes, hnew⟩ := h.nodes.added
    rw [hnodes] at hn
    rcases List.mem_append.mp hn with hn | hn
    · exact Nat.lt_of_lt_of_le (hok.nodes n hn) h.length
    · exact (hnew n hn).2
  items := hok.items
  vars := hok.vars
  bound x columns hx := (hok.bound x columns hx).after h (hok.vars x columns hx)

/-! ## Columns -/

theorem track_cons (nodes : List Node) (node : NodeId) :
    ∃ rest, track nodes node = (nodeAt nodes node).first :: rest := by
  rw [track]
  exact ⟨_, rfl⟩

theorem gives_pullToScope_leads {name : String} {a : AliasedStage} {l : List AliasedStage}
    {r : ColumnPath × Bool} (hl : S.Leads s name (a :: l))
    (hrun : Gives (pullToScope ⟨a.name, name⟩ (a :: l)) S.context s r t) :
    S.After s t ∧ Found S.schema t.stages S.env (r.1.qualifier, r.1.name) := by
  rw [pullToScope, gives_read_bind] at hrun
  generalize hl' : a :: l = l' at hl
  cases hl with
  | here hscope hvisible =>
    obtain ⟨rfl, rfl⟩ := List.cons.inj hl'
    rw [if_pos hscope] at hrun
    obtain ⟨rfl, rfl⟩ := gives_pure.mp hrun
    exact ⟨.refl _, hvisible⟩
  | @through b m rest end_ hcan hrest hstarts hclimbs hcarries hstands =>
    obtain ⟨rfl, rfl⟩ := List.cons.inj (hl'.trans (List.cons_append ..))
    have ha := hcan a (.head _)
    rw [if_neg (by rw [ha.2]; simp)] at hrun
    obtain ⟨path, v, hpull, hlast⟩ := gives_bind.mp hrun
    obtain ⟨hafter, name', rfl, hname, hshows⟩ := after_pull S.schema S.Can S.taken hstarts.bound ha
      hstarts.visible (fun _ => ⟨hstarts.plain, hstarts.label⟩) hpull
    obtain rfl := hname hstarts.unmerged
    have hbound := Nat.lt_of_lt_of_le hstarts.bound hafter.length
    have hsteady : Steady (fun _ => True) s v := hafter.steady
    have hclimbs' := hclimbs.steady hsteady hstarts.bound fun _ _ => trivial
    obtain ⟨hlater, name', hpath, hknown, hshows'⟩ := gives_pullToScope_climbs
      S.schema S.Can S.taken hclimbs' hbound (by simp)
      (fun b hb => ⟨hcan b (.tail _ hb), (hcan b (.tail _ hb)).2⟩) hrest hshows hlast
    have hall : S.After s t := hafter.trans hlater
    have hsteady : Steady (fun _ => True) s t := hall.steady
    have hcarries' := hcarries.steady hsteady (climbs_bound hstarts.bound hclimbs) trivial
    refine ⟨hall, ?_⟩
    rw [hpath]
    exact found_of_standsFor hstands hknown hcarries' hshows'

/-- A property in scope becomes a visible reference. -/
theorem gives_boundColumn {base : Expr} {name : String} {e : SqlExpr} (hok : S.Ok s)
    (hscope : Expr.inScope S.scope base name = true) (hrun : Gives (boundColumn base name) S.context s e t) :
    S.After s t ∧ ∃ qualifier column, e = .columnRef qualifier column ∧
      Found S.schema t.stages S.env (qualifier, column) := by
  obtain ⟨x, node, _, v, path, howner, hlookup, hnode, hpull, rfl⟩ := boundColumn_inv hrun
  obtain ⟨rfl, rfl⟩ := gives_getNode_iff.mp hnode
  obtain ⟨columns, hx, hname⟩ := Expr.exists_of_inScope hscope howner
  obtain ⟨node', hlookup', -, hleads⟩ := hok.bound x columns hx
  obtain rfl := Option.some.inj (hlookup.symm.trans hlookup')
  obtain ⟨found, hpath⟩ := gives_pullFrom hpull
  obtain ⟨rest, htrack⟩ := track_cons v.nodes node
  have hl := hleads name hname
  rw [htrack] at hl hpath
  obtain ⟨hafter, hvisible⟩ := gives_pullToScope_leads hl hpath
  exact ⟨hafter, path.qualifier, path.name, rfl, hvisible⟩

/-! ## Going on elsewhere -/

variable (S) in
/-- The site after names from some roots were given, from the state `s` to `u`: with stages whose clauses are
    built, items and variables that are added, whose columns come through the stages `reach`. -/
def enter (scopes : List StageId) (env : Items) (scope : Scope) (reach : StageId → Prop) (used : List String)
    (s u : State) : Site where
  schema := S.schema
  context := { S.context with scopes := scopes ++ S.context.scopes }
  env := env ++ S.env
  scope := scope ++ S.scope
  taken x := S.taken x ∨ From used s.aliases u.aliases x
  reach id := S.reach id ∨ reach id
  floor := u.stages.length
  drawn := u.aliases
  query := S.query

variable {scopes : List StageId} {env : Items} {scope : Scope} {reach : StageId → Prop} {used roots : List String}

/-- An item is hidden by others only if they have its name. -/
theorem at_append {own : Items} (hown : ∀ i ∈ own, ¬S.taken i.name) (hitems : ∀ i ∈ S.env, S.taken i.name)
    {name : String} {i : FromItem} (h : Items.at_ S.env name = some i) : Items.at_ (own ++ S.env) name = some i := by
  have hname : i.name = name := by simpa using List.find?_some h
  have hnone : own.find? (·.name == name) = none := by
    rw [List.find?_eq_none]
    intro j hj hj'
    have hsame : j.name = name := by simpa using hj'
    exact hown j hj (hsame ▸ hname ▸ hitems i (List.mem_of_find?_eq_some h))
  rw [Items.at_, List.find?_append, hnone]
  exact h

theorem Leads.enter (hok : S.Ok s) (hscopes : ∀ id ∈ scopes, ¬S.reach id)
    (henv : ∀ i ∈ env, ¬S.taken i.name) {name : String} {l : List AliasedStage} (h : S.Leads u name l) :
    (S.enter scopes env scope reach used s u).Leads u name l := by
  have hscope {id : StageId} (h : S.context.scopes.contains id = true) :
      (scopes ++ S.context.scopes).contains id = true := by
    rw [List.contains_iff_mem] at h ⊢
    exact List.mem_append_right _ h
  cases h with
  | here hin hvisible =>
    obtain ⟨i, hi, hexposes⟩ := hvisible
    exact .here (hscope hin) ⟨i, at_append henv hok.items hi, hexposes⟩
  | @through a l rest _ hcan hrest hstarts hclimbs hcarries hstands =>
    obtain ⟨i, hi, hsource⟩ := hstands
    refine .through (fun b hb => ?_) ?_ hstarts hclimbs hcarries ⟨i, at_append henv hok.items hi, hsource⟩
    · obtain ⟨hreach, hout⟩ := hcan b hb
      refine ⟨.inl hreach, ?_⟩
      have hnew : b.stage ∉ scopes := fun hmem => hscopes _ hmem hreach
      have hold : b.stage ∉ S.context.scopes := by
        intro hmem
        rw [List.contains_iff_mem.mpr hmem] at hout
        cases hout
      show (scopes ++ S.context.scopes).contains b.stage = false
      rw [Bool.eq_false_iff, Ne, List.contains_iff_mem, List.mem_append]
      exact fun h => h.elim hnew hold
    · cases rest with
      | nil => trivial
      | cons b rest => exact hscope hrest

/-- What is added at a site, from the state `s` to `u`: new stages and fresh names. -/
structure Addition (S : Site) (scopes : List StageId) (env : Items) (scope : Scope) (reach : StageId → Prop)
    (used : List String) (s u : State) : Prop where
  bound : ∀ x columns, (x, columns) ∈ scope →
    (S.enter scopes env scope reach used s u).Bound u x columns
  scopes : ∀ id ∈ scopes, ¬S.reach id ∧ id < u.stages.length
  reach : ∀ id, reach id → s.stages.length ≤ id ∧ id < u.stages.length
  items : ∀ i ∈ env, From used s.aliases u.aliases i.name
  vars : ∀ x columns, (x, columns) ∈ scope → From used s.aliases u.aliases x

theorem ok_enter (hok : S.Ok s) (h : S.After s u) (hfresh : Fresh S.taken S.drawn used)
    (hadd : Addition S scopes env scope reach used s u) :
    (S.enter scopes env scope reach used s u).Ok u where
  floor := Nat.le_refl _
  drawn := Nat.le_refl _
  reach id hid := hid.elim (fun hid => Nat.lt_of_lt_of_le (hok.reach id hid) h.length) fun hid =>
    (hadd.reach id hid).2
  scopes id hid := (List.mem_append.mp hid).elim (fun hid => (hadd.scopes id hid).2)
    fun hid => Nat.lt_of_lt_of_le (hok.scopes id hid) h.length
  nodes := (hok.after h).nodes
  items i hi := (List.mem_append.mp hi).elim (fun hi => .inr (hadd.items i hi)) fun hi => .inl (hok.items i hi)
  vars x columns hx := (List.mem_append.mp hx).elim (fun hx => .inr (hadd.vars x columns hx)) fun hx =>
    .inl (hok.vars x columns hx)
  bound x columns hx := by
    rcases List.mem_append.mp hx with hx | hx
    · exact hadd.bound x columns hx
    · obtain ⟨node, hlookup, hnode, hleads⟩ := (hok.after h).bound x columns hx
      refine ⟨node, hlookup, hnode, fun name hname => ?_⟩
      refine (hleads name hname).enter hok (fun id hid => (hadd.scopes id hid).1) fun i hi => ?_
      exact hfresh.not_taken ((hadd.items i hi).mono (List.Subset.refl _) hok.drawn (Nat.le_refl _))

/-- The roots that are left are fresh where others are used. -/
theorem fresh_enter (hok : S.Ok s) (h : S.After s u) (hfresh : Fresh S.taken S.drawn (used ++ roots)) :
    Fresh (S.enter scopes env scope reach used s u).taken (S.enter scopes env scope reach used s u).drawn roots :=
  hfresh.enter (Nat.le_trans hok.drawn h.aliases) fun _ hx =>
    hx.imp_right fun hx => hx.mono (List.Subset.refl _) hok.drawn (Nat.le_refl _)

/-- What is done there is done later. -/
theorem after_leave (h : S.After s u) (hreach : ∀ id, reach id → s.stages.length ≤ id)
    (h' : (S.enter scopes env scope reach used s u).After u t) : S.After s t := by
  refine h.trans_of h' (fun id hid hcan => ⟨?_, ?_⟩) fun x hx => .inl hx
  · exact hcan.1.resolve_right fun hnew => absurd (hreach id hnew) (Nat.not_le_of_lt hid)
  · have hout : (scopes ++ S.context.scopes).contains id = false := hcan.2
    rw [Bool.eq_false_iff, Ne, List.contains_iff_mem] at hout ⊢
    exact fun hmem => hout (List.mem_append_right _ hmem)

end Site

end TreeSql.Compile
