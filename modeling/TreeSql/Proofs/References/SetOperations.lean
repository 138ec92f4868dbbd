import TreeSql.Proofs.Compile.Chains
import TreeSql.Proofs.References.Sources

/-
  TreeSql.Proofs.References.SetOperations — set operations on operands that expose their members.

  The operands of a chain are compiled one by one, beside each other. Each is closed, and exposes its members:
  it has a select list of them, or they are pulled through its open stage.
-/
namespace TreeSql.Compile

open Sql

variable {S : Site} {p : Parts} {s t u : State} {e : Expr} {node : NodeId} {v var : String} {roots rest : List String}
  {f : Face} {c : Context}

/-! ## Operands -/

theorem binders_chainOperands (kind : SetOpKind) (e : Expr) :
    Expr.bindersOfAll (chainOperands kind e) = e.binders := by
  fun_induction chainOperands kind e with
  | case1 l r ihl ihr =>
    rw [Expr.bindersOfAll_eq_flatMap, List.flatMap_append, ← Expr.bindersOfAll_eq_flatMap,
      ← Expr.bindersOfAll_eq_flatMap, ihl, ihr]
    rfl
  | case2 | case3 => exact List.append_nil _

theorem resolves_chainOperands {schema : Option Schema} {scope : Scope} {kind : SetOpKind} {e : Expr}
    (he : e.resolves schema scope = true) : ∀ o ∈ chainOperands kind e, o.resolves schema scope = true := by
  fun_induction chainOperands kind e with
  | case1 l r ihl ihr =>
    obtain ⟨hboth, -⟩ := Bool.and_eq_true_iff.mp he
    obtain ⟨hl, hr⟩ := Bool.and_eq_true_iff.mp hboth
    exact fun o ho => (List.mem_append.mp ho).elim (ihl hl o) (ihr hr o)
  | case2 | case3 => exact fun o ho => List.mem_singleton.mp ho ▸ he

theorem head_chainOperands (schema : Option Schema) (kind : SetOpKind) (e : Expr) :
    ∃ o rest, chainOperands kind e = o :: rest ∧ (o.face schema).members = (e.face schema).members := by
  fun_induction chainOperands kind e with
  | case1 l r ihl _ =>
    obtain ⟨o, rest, hl, hmembers⟩ := ihl
    exact ⟨o, _, by rw [hl]; rfl, hmembers⟩
  | case2 | case3 => exact ⟨_, _, rfl, rfl⟩

/-- The operands of a set operation resolve, bind the same variables, and the first has the members of the whole. -/
structure Operands (schema : Option Schema) (scope : Scope) (l r : Expr) (operands : List Expr) : Prop where
  binders : Expr.bindersOfAll operands = l.binders ++ r.binders
  resolves : ∀ o ∈ operands, o.resolves schema scope = true
  head : ∃ o rest, operands = o :: rest ∧ (o.face schema).members = (l.face schema).members

theorem operands_setOp {schema : Option Schema} {scope : Scope} {l r : Expr} (kind : SetOpKind)
    (hl : l.resolves schema scope = true) (hr : r.resolves schema scope = true) :
    Operands schema scope l r (setOpOperands kind l r) := by
  have hchain (kind : SetOpKind) : Operands schema scope l r (chainOperands kind l ++ chainOperands kind r) := by
    refine ⟨?_, fun o ho => ?_, ?_⟩
    · rw [Expr.bindersOfAll_eq_flatMap, List.flatMap_append, ← Expr.bindersOfAll_eq_flatMap,
        ← Expr.bindersOfAll_eq_flatMap, binders_chainOperands, binders_chainOperands]
    · exact (List.mem_append.mp ho).elim (resolves_chainOperands hl o) (resolves_chainOperands hr o)
    · obtain ⟨o, rest, hl, hmembers⟩ := head_chainOperands schema kind l
      exact ⟨o, _, by rw [hl]; rfl, hmembers⟩
  cases kind with
  | except =>
    refine ⟨by simp [setOpOperands, Expr.bindersOfAll], fun o ho => ?_, l, [r], rfl, rfl⟩
    simp only [setOpOperands, List.mem_cons, List.not_mem_nil, or_false] at ho
    rcases ho with rfl | rfl
    · exact hl
    · exact hr
  | _ => exact hchain _

/-! ## Members of an operand -/

/-- An open stage that selects all of one item pulls columns from its alias. -/
theorem Inside.label_last {floor : Nat} {n : Node} (h : Inside S.schema floor t f n)
    (hnone : (t.stages.get n.last.stage).projection = none) {i : FromItem}
    (hfrom : (t.stages.get n.last.stage).from_ = some (.item i)) : Compile.label t n.last.stage = i.name := by
  rcases List.eq_nil_or_concat' n.wrappers with hnil | ⟨l, b, hl⟩
  · have hlast : n.last = n.first := by rw [last_eq_topOf, hnil]; rfl
    rw [hlast] at hnone hfrom ⊢
    exact h.label.trans (h.named hnone i hfrom).symm
  · have hlast : n.last = b := by rw [last_eq_topOf, hl, topOf_append]; rfl
    have hb := h.around l b hl
    rw [hlast] at hfrom ⊢
    rw [hb.from_eq] at hfrom
    cases hfrom
    exact hb.label

/-- The members of the rows are exposed. -/
def Exposed (S : Site) (u : State) (id : StageId) (members : List String) : Prop :=
  S.schema.isSome → ∀ name ∈ members, name ∈ (u.stages.get id).outputNames

theorem gives_pullMembers (schema : Option Schema) (taken : String → Prop) {id : StageId} {source : String}
    {members : List Member} {r : Unit} (hid : id < s.stages.length) (hlabel : label s id = source)
    (hplain : Plain source (s.stages.get id)) (hmerges : ¬Merges (s.stages.get id))
    (hfound : ∀ m ∈ members, Found schema s.stages (s.stages.get id).items (source, m.name))
    (hrun : Gives (exposeMembers.pullMembers id source members) c s r t) :
    After schema (· = id) taken s t ∧ Shows t.stages id (members.map (·.name)) := by
  induction members generalizing s with
  | nil =>
    obtain ⟨-, rfl⟩ := gives_pure.mp hrun
    exact ⟨.refl _, fun _ name hname => by cases hname⟩
  | cons m members ih =>
    obtain ⟨name, u, hpull, hrest⟩ := gives_bind.mp hrun
    have hthrough : Gives (pullThrough ⟨source, m.name⟩ ⟨"", id⟩) c s ⟨"", name⟩ u :=
      gives_bind.mpr ⟨name, u, hpull, gives_pure.mpr ⟨rfl, rfl⟩⟩
    obtain ⟨hafter, name', hpath, hname, hshows⟩ := after_pull schema (· = id) taken hid rfl
      (fun _ => hfound m (.head _)) (fun _ => ⟨hplain, hlabel⟩) hthrough
    obtain rfl := hname hmerges
    have hsteady : Steady (fun _ => True) s u := hafter.steady
    obtain ⟨hlater, hrest⟩ := ih (Nat.lt_of_lt_of_le hid hafter.length) ((hafter.label hid).trans hlabel)
      (hsteady.plain hid trivial hplain hlabel hmerges) (fun hm => hmerges ((hsteady.merges hid trivial).mp hm))
      (fun m hm => by
        rw [hsteady.items hid trivial]
        exact hafter.shown.found (hfound m (.tail _ hm))) hrest
    refine ⟨hafter.trans hlater, fun hnone x hx => ?_⟩
    rcases List.mem_cons.mp hx with rfl | hx
    · have hwider := hlater.wider id (Nat.lt_of_lt_of_le hid hafter.length)
      exact List.map_subset _ hwider.pulled (hshows (hwider.projection ▸ hnone) _ (.head _))
    · exact hrest hnone x hx

/-- The members of a blank stage are columns of its only item. -/
theorem Ready.source_of_blank (h : Ready S s t roots f node)
    (hblank : Blank (t.stages.get (nodeAt t.nodes node).last.stage)) (hsure : f.listed = true ∨ f.loose = false)
    {name : String} (hname : name ∈ f.members) :
    ∃ i, (t.stages.get (nodeAt t.nodes node).last.stage).from_ = some (.item i) ∧
      ∀ columns ∈ S.schema, i.source.Exposes columns t.stages name := by
  cases hlisted : f.listed with
  | true =>
    have hmem := h.built.open_.listed hlisted name hname
    rw [hblank.outputNames] at hmem
    cases hmem
  | false => exact h.built.open_.source hlisted (hsure.resolve_left (Bool.eq_false_iff.mp hlisted)) name hname

/-- The open stage of an operand exposes the members. -/
theorem Ready.expose (h : Ready S s t roots f node) {type : DataType}
    (hmembers : S.schema.isSome → type.memberNames = f.members ∧ (f.listed = true ∨ f.loose = false))
    (hrun : Gives (exposeMembers (nodeAt t.nodes node).last.stage type) c t () u) :
    Built S s u roots f node ∧ nodeAt u.nodes node = nodeAt t.nodes node ∧
      Exposed S u (nodeAt t.nodes node).last.stage f.members := by
  have hlast := h.built.bound (last_mem _)
  have hnames (hasked : S.schema.isSome) : (type.elementOrSelf.members?.getD []).map (·.name) = f.members := by
    rw [members_elementOrSelf]
    exact (hmembers hasked).1
  rcases exposeMembers_inv hrun with
    ⟨hnot, rfl⟩ | ⟨⟨hnone, hpulled⟩, ⟨item, members, hfrom, htype, hpull⟩ | ⟨hitem, rfl⟩⟩
  · refine ⟨h.built, rfl, fun _ name hname => ?_⟩
    cases hlisted : f.listed with
    | true => exact h.built.open_.listed hlisted name hname
    | false =>
      have hblank := h.blank_of_unlisted hlisted
      exact (hnot ⟨hblank.projection, hblank.pulled⟩).elim
  · have hblank : Blank (t.stages.get (nodeAt t.nodes node).last.stage) := ⟨hnone, hpulled⟩
    rw [htype] at hnames
    obtain ⟨hafter, hshows⟩ := gives_pullMembers S.schema (fun _ => True) hlast.2
      (h.built.inside.label_last hnone hfrom) (plain_of_pulled hpulled) (not_merges_of_item hfrom) (fun m hm => by
        refine ⟨item, by simp [Items.at_, Stage.items, hfrom, FromTree.items], fun columns hcolumns => ?_⟩
        have hasked : S.schema.isSome := by rw [Option.mem_def.mp hcolumns]; rfl
        obtain ⟨i, hi, hexposes⟩ := h.source_of_blank hblank (hmembers hasked).2
          (hnames hasked ▸ List.mem_map_of_mem hm)
        obtain rfl : item = i := by simpa [hfrom] using hi
        exact hexposes columns hcolumns) hpull
    have hall : S.After s u := h.built.after.trans_of hafter
      (fun id hid hcan => absurd hlast.1 (by rw [← hcan]; exact Nat.not_le_of_lt hid)) fun _ _ => trivial
    refine ⟨h.built.later hafter hall fun _ _ => trivial, h.built.node_eq hafter, fun hasked name hname => ?_⟩
    have hnone' := (hafter.wider _ hlast.2).projection.trans hnone
    rw [Stage.outputNames, hnone']
    exact hshows hnone' name (hnames hasked ▸ hname)
  · refine ⟨h.built, rfl, fun hasked name hname => ?_⟩
    obtain ⟨i, hfrom, -⟩ := h.source_of_blank ⟨hnone, hpulled⟩ (hmembers hasked).2 hname
    have hname := hnames hasked ▸ hname
    cases htype : type.elementOrSelf.members? with
    | none =>
      rw [htype] at hname
      cases hname
    | some members => exact (hitem i members hfrom htype).elim

/-! ## Operands, one by one -/

theorem Built.closed {f : Face} (h : Built S s t roots f node) :
    Closed S.schema (s.stages.length ≤ ·) t.stages S.env (nodeAt t.nodes node).last.stage :=
  closed_iff.mpr ⟨(h.bound (last_mem _)).1, (h.bound (last_mem _)).2, h.open_.fine.mono fun _ hid => hid.1⟩

theorem operandStages_ready (hp : Sound p) {es : List Expr} {place : Nat} {ids : List StageId}
    (hes : ∀ e ∈ es, e.resolves S.schema S.scope = true ∧ e.combinable S.schema = true)
    (hfresh : Fresh S.taken S.drawn (var :: Expr.bindersOfAll es)) (hgiven : Given (Expr.bindersOfAll es))
    (hok : S.Ok s) (hrun : Gives (operandStages p var place es) S.context s ids t) :
    S.After s t ∧ (∀ id ∈ ids, Closed S.schema (s.stages.length ≤ ·) t.stages S.env id) ∧
      ∀ e ∈ es.head?, ∃ id ∈ ids.head?, Exposed S t id (e.face S.schema).members := by
  induction es generalizing s place ids with
  | nil =>
    obtain ⟨rfl, rfl⟩ := gives_pure.mp hrun
    exact ⟨.refl _, fun _ hid => (by cases hid), fun _ he => (by cases he)⟩
  | cons e es ih =>
    obtain ⟨child, t₁, _, t₂, t₃, ids, hrows, hopen, hexpose, hrest, rfl⟩ := operandStages_inv hrun
    obtain ⟨rfl, rfl⟩ := gives_openStage_iff.mp hopen
    obtain ⟨he, hcombinable⟩ := hes e (.head _)
    have hgiven' : Given e.binders := fun r hr => hgiven r (List.mem_append_left _ hr)
    have hfresh' : Fresh S.taken S.drawn (var :: e.binders) :=
      hfresh.sublist ((List.sublist_append_left _ _).cons_cons _)
    have hready := hp.rows S he (hfresh'.operand place hgiven') hgiven' hok hrows
    have hmembers (hasked : S.schema.isSome) : e.resultType.memberNames = (e.face S.schema).members ∧
        ((e.face S.schema).listed = true ∨ (e.face S.schema).loose = false) := by
      rw [Expr.combinable, ← Option.not_isSome, hasked] at hcombinable
      simpa using hcombinable
    obtain ⟨hbuilt, hnode, hexposed⟩ := hready.expose hmembers hexpose
    have hafter := hbuilt.after
    obtain ⟨hlater, hclosed, -⟩ := ih (fun e he => hes e (.tail _ he))
      (hfresh.sublist ((List.sublist_append_right _ _).cons_cons _))
      (fun r hr => hgiven r (List.mem_append_right _ hr)) (hok.after hafter) hrest
    refine ⟨hafter.trans hlater, fun id hid => ?_, fun e' he' => ⟨_, rfl, fun hasked name hname => ?_⟩⟩
    · rcases List.mem_cons.mp hid with rfl | hid
      · exact hnode ▸ hbuilt.closed.later hlater.grown
      · exact (hclosed id hid).mono fun _ hid => Nat.le_trans hafter.length hid
    · cases he'
      exact hlater.shown _ (hexposed hasked name hname)

theorem setOpRows_ready (hp : Sound p) {kind : SetOpKind} {l r : Expr}
    (he : (Expr.setOp kind l r).resolves S.schema S.scope = true)
    (hfresh : Fresh S.taken S.drawn (var :: (Expr.setOp kind l r).binders))
    (hgiven : Given (Expr.setOp kind l r).binders) (hok : S.Ok s)
    (hrun : Gives (setOpRows p kind l r var) S.context s node t) : NodeReady S s t var (.setOp kind l r) node := by
  obtain ⟨hboth, hcombinable⟩ := Bool.and_eq_true_iff.mp he
  obtain ⟨hl, hr⟩ := Bool.and_eq_true_iff.mp hboth
  obtain ⟨ids, t₁, hoperands, hpush⟩ := gives_bind.mp hrun
  obtain ⟨rfl, rfl⟩ := gives_pushSource.mp hpush
  obtain ⟨hbinders, hresolves, o, rest, hhead, hmembers⟩ := operands_setOp kind hl hr
  have hwhole : Expr.bindersOfAll (setOpOperands kind l r) = (Expr.setOp kind l r).binders := hbinders
  obtain ⟨hafter, hclosed, hexposed⟩ := operandStages_ready hp
    (fun e he => ⟨hresolves e he, List.all_eq_true.mp hcombinable e he⟩) (hwhole ▸ hfresh) (hwhole ▸ hgiven) hok
    hoperands
  obtain ⟨id, hid, hexposed⟩ := hexposed o (by rw [hhead]; rfl)
  rw [hmembers] at hexposed
  have hexposes (name : String) (hname : name ∈ (l.face S.schema).members) (schema : Schema) (hschema : schema ∈ S.schema) :
      Source.Exposes schema t₁.stages name (.setOp kind ids) :=
    ⟨id, hid, hexposed (by rw [Option.mem_def.mp hschema]; rfl) name hname⟩
  refine ⟨ready_source hafter (.head _) ⟨fun name hname schema hschema => ?_, hexposes, by simp [FromTree.exprs],
    fun q hq => ?_⟩, by rintro x columns ⟨⟩⟩
  · exact hexposes name (Columns.has_of.mp hname (by rw [Option.mem_def.mp hschema]; rfl)) schema hschema
  · obtain ⟨id, hid, rfl⟩ := List.mem_map.mp hq
    exact hclosed id hid

end TreeSql.Compile
