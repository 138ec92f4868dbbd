import TreeSql.Proofs.Exposed.Operands

/-
  TreeSql.Proofs.Exposed.Subqueries — the columns of a relation in place of a value.

  A subquery shows what the open stage of its node exposes: the members of the rows, or nothing. For a limited
  relation the first column of the innermost select list is carried outwards, and is shown too
  (`Face.carrying`).
-/
namespace TreeSql.Compile.Vicinity

open Sql

variable {V : Vicinity} {p : Parts} {s t u : State} {e : Expr} {f : Face} {node : NodeId} {P : StageId → Prop}
  {source name : String} {l : List AliasedStage} {c : Context} {a : SqlExpr}

/-! ## Exposed columns -/

theorem Exposing.shown {last : Stage} (h : Exposing f last) (hnodup : f.members.Nodup) : last.outputNames = f.shown := by
  rw [Face.shown]
  cases hlisted : f.listed with
  | true => exact h.listed hlisted hnodup
  | false => exact (h.unlisted hlisted).1.outputNames

/-- One more column is shown by a stage that has no select list. -/
theorem outputNames_pulled {a : Stage} (hplain : Plain source a) (name : String) :
    (a.expose source [name]).outputNames =
      if a.projection.isNone then a.outputNames ++ [name].filter (· ∉ a.outputNames) else a.outputNames := by
  have hprojection := (wider_expose a source [name]).projection
  rw [Stage.outputNames, Stage.outputNames, hprojection, expose_single, exposedName?_plain hplain]
  cases a.projection with
  | some columns => rfl
  | none =>
    generalize hnames : a.pulled.map (·.name) = names
    by_cases hmem : name ∈ names
    · simp [hmem, hnames]
    · simp [hmem, hnames]

/-! ## Columns carried outwards -/

theorem gives_pullThrough_plain {a : AliasedStage} {path : ColumnPath} (hplain : Plain source (s.stages.get a.stage))
    (hrun : Gives (pullThrough ⟨source, name⟩ a) c s path t) :
    path = ⟨a.name, name⟩ ∧ t = { s with stages := s.stages.modify a.stage (·.expose source [name]) } := by
  obtain ⟨name', u, hpull, hpath⟩ := gives_bind.mp hrun
  obtain ⟨rfl, rfl⟩ := gives_pure.mp hpath
  obtain ⟨rfl, rfl⟩ := gives_pullColumn.mp hpull
  rw [pull_plain hplain, set_get_eq_modify s.stages a.stage (·.expose source [name])]
  exact ⟨rfl, rfl⟩

/-- A column keeps its name on its way outwards, and is exposed by each stage. -/
theorem gives_pullAll_plain (hok : V.Ok s) (hway : Way P s source l) (hcan : ∀ a ∈ l, V.can a.stage)
    (hitem : ∀ a ∈ l, ∃ i, (s.stages.get a.stage).from_ = some (.item i)) (hnodup : (l.map (·.stage)).Nodup) {r : Unit}
    (hrun : Gives (pullAll ⟨source, name⟩ l) V.context s r t) :
    V.After s t ∧ (∀ id, id ∉ l.map (·.stage) → t.stages.get id = s.stages.get id) ∧
      ∀ a ∈ l, ∃ source, Plain source (s.stages.get a.stage) ∧
        t.stages.get a.stage = (s.stages.get a.stage).expose source [name] := by
  induction l generalizing s source with
  | nil =>
    obtain ⟨-, rfl⟩ := gives_pure.mp hrun
    exact ⟨.refl _, fun _ _ => rfl, by simp⟩
  | cons a l ih =>
    obtain ⟨path, u, hpull, hrest⟩ := gives_bind.mp hrun
    obtain ⟨⟨hpassable, hfed⟩, hway⟩ := hway
    obtain ⟨hne, hnodup⟩ := List.nodup_cons.mp hnodup
    obtain ⟨i, hi⟩ := hitem a (.head _)
    have hplain : Plain source (s.stages.get a.stage) := hfed i hi ▸ hpassable.neat i hi
    obtain ⟨hafter, -⟩ := after_pull hok (hcan a (.head _)) hfed hpull
    obtain ⟨rfl, rfl⟩ := gives_pullThrough_plain hplain hpull
    have hsame (id : StageId) (hid : id ≠ a.stage) :
        Stages.get (s.stages.modify a.stage (·.expose source [name])) id = s.stages.get id := by
      rw [Stages.get_modify, if_neg fun h => hid h.1]
    have hothers (b : AliasedStage) (hb : b ∈ l) : b.stage ≠ a.stage := fun h =>
      hne (List.mem_map.mpr ⟨b, hb, h⟩)
    have hcalm : Calm (fun _ => True) s _ := hafter.calm
    obtain ⟨hlater, hunchanged, hpulled⟩ := ih (hok.after hafter) (hway.calm hcalm fun _ _ => trivial)
      (fun b hb => hcan b (.tail _ hb)) (fun b hb => by
        show ∃ i, (Stages.get _ b.stage).from_ = _
        rw [hsame _ (hothers b hb)]
        exact hitem b (.tail _ hb)) hnodup hrest
    refine ⟨hafter.trans hlater, fun id hid => ?_, fun b hb => ?_⟩
    · rw [List.map_cons, List.mem_cons, not_or] at hid
      exact (hunchanged id hid.2).trans (hsame id hid.1)
    · rcases List.mem_cons.mp hb with rfl | hb
      · refine ⟨source, hplain, (hunchanged _ hne).trans ?_⟩
        show Stages.get (s.stages.modify _ _) _ = _
        rw [Stages.get_modify, if_pos ⟨rfl, hpassable.bound⟩]
      · obtain ⟨source', hplain', hget⟩ := hpulled b hb
        have hget' : Stages.get (s.stages.modify a.stage (·.expose source [name])) b.stage = s.stages.get b.stage :=
          hsame _ (hothers b hb)
        exact ⟨source', hget' ▸ hplain', hget.trans (congrArg (·.expose source' [name]) hget')⟩

/-! ## Subqueries -/

/-- The value is a new subquery, with the given columns if the names of the members are distinct. -/
def Shows (s t : State) (e : Expr) (columns : List String) (a : SqlExpr) : Prop :=
  ∃ id, a = .stage id ∧ s.stages.length ≤ id ∧ id < t.stages.length ∧
    ((e.face none).members.Nodup → (t.stages.get id).outputNames = columns)

theorem found_of_shows {w : State} (hw : V.After w s) (hok : V.Ok s) (h : Shows s t e e.shown a) :
    V.Found w.stages.length e t a := by
  obtain ⟨id, rfl, hnew, hbound, hcolumns⟩ := h
  refine ⟨⟨SqlExpr.fits_stage ⟨Nat.le_trans hw.length hnew, hbound, hok.outside hnew⟩, fun _ hid => by cases hid⟩,
    fun he j hj => ?_⟩
  cases hj
  exact hcolumns he.nodup

theorem subqueryValue_shows (hp : Sound p) (he : V.Suits e) (hok : V.Ok s)
    (hrun : Gives (subqueryValue p e) V.context s a t) : V.After s t ∧ Shows s t e (e.face none).shown a := by
  obtain ⟨label, t₁, child, t₂, _, halias, hrows, hopen, rfl⟩ := subqueryValue_inv hrun
  obtain ⟨rfl, rfl⟩ := gives_openStage_iff.mp hopen
  have h := hp.aliased he hok halias hrows
  exact ⟨h.after, _, rfl, h.last.among, h.last.bound, h.open_.shown⟩

theorem limitValue_shows (hp : Sound p) (he : V.Suits e) (hok : V.Ok s)
    (hrun : Gives (limitValue p e) V.context s a t) : V.After s t ∧ Shows s t e (e.face none).carrying a := by
  obtain ⟨label, t₁, child, _, _, t₂, halias, hrows, hnode, rfl, hcarried⟩ := limitValue_inv hrun
  obtain ⟨rfl, rfl⟩ := gives_getNode_iff.mp hnode
  have h := hp.aliased he hok halias hrows
  rcases hcarried with ⟨column, columns, hcolumns, hpull⟩ | ⟨hnone, rfl⟩
  · have hok' : (V.enter [] [] [] (Passable (s.stages.length ≤ ·) t₂)).Ok t₂ :=
      ok_enter (hok.after h.after) (by simp) (fun id hid => ⟨hid.bound, hid.unsealed⟩) (by simp)
    obtain ⟨hafter, hsame, hpulled⟩ := gives_pullAll_plain hok' h.way.2
      (fun b hb => .inr (h.way.passable b (.tail _ hb))) h.framed (List.nodup_cons.mp h.nodup).2 hpull
    refine ⟨h.after.leave (fun _ hid => hid.among) hafter, _, rfl, h.last.among,
      Nat.lt_of_lt_of_le h.last.bound hafter.length, fun hnodup => ?_⟩
    have hshown := h.open_.shown hnodup
    rw [Face.carrying, h.enclosed]
    rcases List.eq_nil_or_concat' (nodeAt t₂.nodes child).wrappers with hnil | ⟨l, b, hl⟩
    · rw [hsame _ (by simp [hnil]), hshown, hnil]
      rfl
    · have hlast : (nodeAt t₂.nodes child).last = b := by rw [last_eq_topOf, hl, topOf_append]; rfl
      have hinner := h.inner
      rw [hcolumns] at hinner
      have hnone := h.open_.clauses.projection
      rw [hlast] at hshown hnone ⊢
      obtain ⟨source, hplain, hget⟩ := hpulled b (by simp [hl])
      rw [hget, outputNames_pulled hplain, hshown, ← hinner, hl, List.isEmpty_eq_false_iff.mpr (by simp)]
      rw [← Option.not_isSome, ← Option.not_isSome, hnone]
      rfl
  · refine ⟨h.after, _, rfl, h.last.among, h.last.bound, fun hnodup => ?_⟩
    -- there is no column to carry
    have hinner : (e.face none).inner = [] := by
      rw [← h.inner]
      cases hcolumns : (t.stages.get (nodeAt t.nodes child).first.stage).projection with
      | none => rfl
      | some columns =>
        cases columns with
        | nil => rfl
        | cons column columns => exact (hnone column columns hcolumns).elim
    rw [h.open_.shown hnodup, Face.carrying, hinner]
    split
    · exact (List.append_nil _).symm
    · rfl

end TreeSql.Compile.Vicinity
