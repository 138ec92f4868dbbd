import TreeSql.Compile.Statement
import TreeSql.Proofs.Compile.Run

/-
  TreeSql.Proofs.Compile.Operators — compiled relations, taken apart.

  Most operators compile their input to a node, open a stage of it, compile what their clause is made of, and
  attach the clause to that stage. For each of them, and for subqueries and queries, one lemma says which steps a
  run that succeeds is made of and which state it ends in (`filterRows_inv` and so on). What is proved of all
  operators goes by these lemmas, so nothing else has to know in which order an operator does its work.
-/
namespace TreeSql.Compile

open Sql

variable {p : Parts} {c : Context} {s t : State} {e : Expr} {node : NodeId} {stage : StageId} {var : String}

/-! ## Filters, order and limits -/

theorem filterRows_inv {input : Binding} {q : Expr} (h : Gives (filterRows p input q var) c s node t) :
    ∃ t₁ stage t₂ condition t₃, Gives (p.rows input.expr input.var) c s node t₁ ∧
      Gives (openFor .filter node var) c t₁ stage t₂ ∧ Gives (inScope stage (p.value q)) c t₂ condition t₃ ∧
      t = { t₃ with stages := t₃.stages.modify stage (addCondition condition) } := by
  obtain ⟨_, t₁, hrows, h⟩ := gives_bind.mp h
  obtain ⟨stage, t₂, hopen, h⟩ := gives_bind.mp h
  obtain ⟨condition, t₃, hcondition, h⟩ := gives_bind.mp h
  obtain ⟨_, t₄, hmodify, hlast⟩ := gives_bind.mp h
  obtain ⟨-, rfl⟩ := gives_modifyStage.mp hmodify
  obtain ⟨rfl, rfl⟩ := gives_pure.mp hlast
  exact ⟨t₁, stage, t₂, condition, t₃, hrows, hopen, hcondition, rfl⟩

theorem orderBy_inv {keys : List SortKey} {u : Unit} (h : Gives (orderBy p stage keys) c s u t) :
    ∃ items t₁, Gives (inScope stage (orderItems p keys)) c s items t₁ ∧
      t = { t₁ with stages := t₁.stages.modify stage fun a => { a with orderBy := some items } } := by
  obtain ⟨items, t₁, hitems, hmodify⟩ := gives_bind.mp h
  exact ⟨items, t₁, hitems, (gives_modifyStage.mp hmodify).2⟩

theorem sortRows_inv {input : Binding} {keys : List SortKey} (h : Gives (sortRows p input keys var) c s node t) :
    ∃ t₁ stage t₂, Gives (p.rows input.expr input.var) c s node t₁ ∧
      Gives (openFor .sort node var) c t₁ stage t₂ ∧ Gives (orderBy p stage keys) c t₂ () t := by
  obtain ⟨_, t₁, hrows, h⟩ := gives_bind.mp h
  obtain ⟨stage, t₂, hopen, h⟩ := gives_bind.mp h
  obtain ⟨_, t₃, horder, hlast⟩ := gives_bind.mp h
  obtain ⟨rfl, rfl⟩ := gives_pure.mp hlast
  exact ⟨t₁, stage, t₂, hrows, hopen, horder⟩

theorem skipRows_inv {input : Binding} {keys : List SortKey} {count : Expr}
    (h : Gives (skipRows p input keys count var) c s node t) :
    ∃ t₁ stage t₂ t₃ a t₄, Gives (p.rows input.expr input.var) c s node t₁ ∧
      Gives (openFor .skip node var) c t₁ stage t₂ ∧ Gives (orderBy p stage keys) c t₂ () t₃ ∧
      Gives (p.value count) c t₃ a t₄ ∧
      t = { t₄ with stages := t₄.stages.modify stage fun b => { b with skip := some a } } := by
  obtain ⟨_, t₁, hrows, h⟩ := gives_bind.mp h
  obtain ⟨stage, t₂, hopen, h⟩ := gives_bind.mp h
  obtain ⟨_, t₃, horder, h⟩ := gives_bind.mp h
  obtain ⟨a, t₄, hvalue, h⟩ := gives_bind.mp h
  obtain ⟨_, t₅, hmodify, hlast⟩ := gives_bind.mp h
  obtain ⟨-, rfl⟩ := gives_modifyStage.mp hmodify
  obtain ⟨rfl, rfl⟩ := gives_pure.mp hlast
  exact ⟨t₁, stage, t₂, t₃, a, t₄, hrows, hopen, horder, hvalue, rfl⟩

theorem limitRows_inv {count : Expr} (h : Gives (limitRows p e count) c s node t) :
    ∃ label s₁ t₁ last t₂ a t₃, Gives nextAlias c s label s₁ ∧ Gives (p.rows e label) c s₁ node t₁ ∧
      Gives (openStage node) c t₁ last t₂ ∧ Gives (p.value count) c t₂ a t₃ ∧
      t = { t₃ with stages := t₃.stages.modify last.stage (addLimit a) } := by
  obtain ⟨label, s₁, halias, h⟩ := gives_bind.mp h
  obtain ⟨_, t₁, hrows, h⟩ := gives_bind.mp h
  obtain ⟨last, t₂, hopen, h⟩ := gives_bind.mp h
  obtain ⟨a, t₃, hvalue, h⟩ := gives_bind.mp h
  obtain ⟨_, t₄, hmodify, hlast⟩ := gives_bind.mp h
  obtain ⟨-, rfl⟩ := gives_modifyStage.mp hmodify
  obtain ⟨rfl, rfl⟩ := gives_pure.mp hlast
  exact ⟨label, s₁, t₁, last, t₂, a, t₃, halias, hrows, hopen, hvalue, rfl⟩

/-! ## Select lists -/

/-- The open stage takes the `DISTINCT`, or a stage around it that exposes its columns. -/
theorem distinctRows_inv (h : Gives (distinctRows p e var) c s node t) :
    ∃ label s₁ t₁ last t₂, Gives nextAlias c s label s₁ ∧ Gives (p.rows e label) c s₁ node t₁ ∧
      Gives (openStage node) c t₁ last t₂ ∧
      (Clause.distinct.compatible (t₂.stages.get last.stage) = true ∧
          t = { t₂ with stages := t₂.stages.modify last.stage fun a => { a with distinct := true } } ∨
        Clause.distinct.compatible (t₂.stages.get last.stage) ≠ true ∧
          ∃ wrapper t₃, Gives (wrap node var) c t₂ wrapper t₃ ∧
            t = { t₃ with stages := t₃.stages.modify wrapper fun a =>
              { a.expose last.name (t₂.stages.get last.stage).outputNames with distinct := true } }) := by
  obtain ⟨label, s₁, halias, h⟩ := gives_bind.mp h
  obtain ⟨_, t₁, hrows, h⟩ := gives_bind.mp h
  obtain ⟨last, t₂, hopen, h⟩ := gives_bind.mp h
  rw [gives_getStage_bind] at h
  split at h
  · rename_i htakes
    obtain ⟨_, t₃, hmodify, hlast⟩ := gives_bind.mp h
    obtain ⟨-, rfl⟩ := gives_modifyStage.mp hmodify
    obtain ⟨rfl, rfl⟩ := gives_pure.mp hlast
    exact ⟨label, s₁, t₁, last, t₂, halias, hrows, hopen, .inl ⟨htakes, rfl⟩⟩
  · rename_i hclosed
    obtain ⟨wrapper, t₃, hwrap, h⟩ := gives_bind.mp h
    obtain ⟨_, t₄, hmodify, hlast⟩ := gives_bind.mp h
    obtain ⟨-, rfl⟩ := gives_modifyStage.mp hmodify
    obtain ⟨rfl, rfl⟩ := gives_pure.mp hlast
    exact ⟨label, s₁, t₁, last, t₂, halias, hrows, hopen, .inr ⟨hclosed, wrapper, t₃, hwrap, rfl⟩⟩

theorem rowColumns_inv {row : Expr} {columns : List Column} (h : Gives (rowColumns p row) c s columns t) :
    ∃ type args members values, row = .newInstance type args ∧ type.members? = some members ∧
      members.length = args.length ∧ Gives (valuesOf p.value args) c s values t ∧
      columns = columnsOf members (args.zipWith columnValue values) := by
  unfold rowColumns at h
  split at h
  · rename_i type args
    cases hmembers : type.members? with
    | none =>
      rw [hmembers] at h
      exact (not_gives_fail h).elim
    | some members =>
      simp only [hmembers] at h
      split at h
      · rename_i hlength
        obtain ⟨values, t₁, hvalues, hlast⟩ := gives_bind.mp h
        obtain ⟨rfl, rfl⟩ := gives_pure.mp hlast
        exact ⟨type, args, members, values, rfl, hmembers, hlength, hvalues, rfl⟩
      · exact (not_gives_fail h).elim
  · exact (not_gives_fail h).elim

/-- A stage that gets a select list, and a new node for it. -/
theorem selectList_inv {columns : List Column}
    (h : Gives (do
      modifyStage stage fun a => { a with projection := some columns }
      pushNode { first := ⟨var, stage⟩ }) c s node t) :
    node = s.nodes.length ∧ t = { s with
      stages := s.stages.modify stage fun a => { a with projection := some columns }
      nodes := s.nodes ++ [{ first := ⟨var, stage⟩ }] } := by
  obtain ⟨_, t₁, hmodify, hpush⟩ := gives_bind.mp h
  obtain ⟨-, rfl⟩ := gives_modifyStage.mp hmodify
  exact gives_pushNode.mp hpush

/-- The columns are compiled inside of the open stage, or beside it for a stage around it. -/
theorem projectRows_inv {input : Binding} {row : Expr} (h : Gives (projectRows p input row var) c s node t) :
    ∃ child t₁ last t₂ columns t₃, Gives (p.rows input.expr input.var) c s child t₁ ∧
      Gives (openStage child) c t₁ last t₂ ∧
      (Clause.project.compatible (t₂.stages.get last.stage) = true ∧
          Gives (inScope last.stage (rowColumns p row)) c t₂ columns t₃ ∧ node = t₃.nodes.length ∧
          t = { t₃ with
            stages := t₃.stages.modify last.stage fun a => { a with projection := some columns }
            nodes := t₃.nodes ++ [{ first := ⟨var, last.stage⟩ }] } ∨
        Clause.project.compatible (t₂.stages.get last.stage) ≠ true ∧
          Gives (rowColumns p row) c t₂ columns t₃ ∧
          ∃ wrapper t₄, Gives (wrap child var) c t₃ wrapper t₄ ∧ node = t₄.nodes.length ∧
            t = { t₄ with
              stages := t₄.stages.modify wrapper fun a => { a with projection := some columns }
              nodes := t₄.nodes ++ [{ first := ⟨var, wrapper⟩ }] }) := by
  obtain ⟨child, t₁, hrows, h⟩ := gives_bind.mp h
  obtain ⟨last, t₂, hopen, h⟩ := gives_bind.mp h
  rw [gives_getStage_bind] at h
  split at h
  · rename_i htakes
    obtain ⟨columns, t₃, hcolumns, h⟩ := gives_bind.mp h
    exact ⟨child, t₁, last, t₂, columns, t₃, hrows, hopen, .inl ⟨htakes, hcolumns, selectList_inv h⟩⟩
  · rename_i hclosed
    obtain ⟨columns, t₃, hcolumns, h⟩ := gives_bind.mp h
    obtain ⟨wrapper, t₄, hwrap, h⟩ := gives_bind.mp h
    exact ⟨child, t₁, last, t₂, columns, t₃, hrows, hopen,
      .inr ⟨hclosed, hcolumns, wrapper, t₄, hwrap, selectList_inv h⟩⟩

/-! ## Groups -/

theorem members_elementOrSelf (t : DataType) : t.elementOrSelf.members? = t.members? := by
  cases t <;> rfl

/-- The values of the groups: the keys, and then the aggregates. -/
theorem groupValues_inv {keys : List Expr} {aggregates : List Aggregate} {r : List SqlExpr × List SqlExpr}
    (h : Gives (do
      let keyValues ← valuesOf p.value keys
      return (keyValues, ← aggregateValues p aggregates)) c s r t) :
    ∃ t₁, Gives (valuesOf p.value keys) c s r.1 t₁ ∧ Gives (aggregateValues p aggregates) c t₁ r.2 t := by
  obtain ⟨keyValues, t₁, hkeys, h⟩ := gives_bind.mp h
  obtain ⟨values, t₂, hvalues, hlast⟩ := gives_bind.mp h
  obtain ⟨rfl, rfl⟩ := gives_pure.mp hlast
  exact ⟨t₁, hkeys, hvalues⟩

theorem groupRows_inv {input : GroupBinding} {keys : List Expr} {aggregates : List Aggregate} {type : DataType}
    (h : Gives (groupRows p input keys aggregates type var) c s node t) :
    ∃ t₁ stage t₂ members r t₃, Gives (p.rows input.expr input.var) c s node t₁ ∧
      Gives (openFor .groupBy node var) c t₁ stage t₂ ∧ type.members? = some members ∧
      members.length = keys.length + aggregates.length ∧
      Gives (inScope stage do
        let keyValues ← valuesOf p.value keys
        return (keyValues, ← aggregateValues p aggregates)) c
          { t₂ with bindings := (input.groupVar, node) :: t₂.bindings } r t₃ ∧
      t = { t₃ with stages := t₃.stages.modify stage fun a =>
        { a with projection := some (columnsOf members (r.1 ++ r.2)), groupBy := some (groupKeys keys r.1) } } := by
  obtain ⟨_, t₁, hrows, h⟩ := gives_bind.mp h
  obtain ⟨stage, t₂, hopen, h⟩ := gives_bind.mp h
  obtain ⟨_, u, hbind, h⟩ := gives_bind.mp h
  obtain ⟨-, rfl⟩ := gives_bindVar.mp hbind
  rw [members_elementOrSelf] at h
  cases hmembers : type.members? with
  | none =>
    rw [hmembers] at h
    exact (not_gives_fail h).elim
  | some members =>
    simp only [hmembers] at h
    split at h
    · rename_i hlength
      obtain ⟨r, t₃, hvalues, h⟩ := gives_bind.mp h
      obtain ⟨_, t₄, hmodify, hlast⟩ := gives_bind.mp h
      obtain ⟨-, rfl⟩ := gives_modifyStage.mp hmodify
      obtain ⟨rfl, rfl⟩ := gives_pure.mp hlast
      exact ⟨t₁, stage, t₂, members, r, t₃, hrows, hopen, rfl, hlength, hvalues, rfl⟩
    · exact (not_gives_fail h).elim

/-! ## Names of columns -/

theorem names_columnsOf {members : List Member} {values : List SqlExpr}
    (h : members.length = values.length) : (columnsOf members values).map (·.name) = members.map (·.name) := by
  induction members generalizing values with
  | nil => rfl
  | cons m members ih =>
    cases values with
    | nil => cases h
    | cons v values => exact congrArg (m.name :: ·) (ih (Nat.succ.inj h))

theorem length_valuesOf {v : Expr → CompileM SqlExpr} {es : List Expr} {values : List SqlExpr}
    (h : Gives (valuesOf v es) c s values t) : values.length = es.length := by
  induction es generalizing s values with
  | nil =>
    obtain ⟨rfl, -⟩ := gives_pure.mp h
    rfl
  | cons e es ih =>
    obtain ⟨a, u, -, h⟩ := gives_bind.mp h
    obtain ⟨as, u', has, h⟩ := gives_bind.mp h
    obtain ⟨rfl, rfl⟩ := gives_pure.mp h
    simp [ih has]

/-- The values of a row constructor, one for each argument. -/
theorem length_columnValues {v : Expr → CompileM SqlExpr} {args : List Expr} {values : List SqlExpr}
    (h : Gives (valuesOf v args) c s values t) : (args.zipWith columnValue values).length = args.length := by
  rw [List.length_zipWith, length_valuesOf h, Nat.min_self]

theorem length_aggregateValues {aggregates : List Aggregate} {values : List SqlExpr}
    (h : Gives (aggregateValues p aggregates) c s values t) : values.length = aggregates.length := by
  induction aggregates generalizing s values with
  | nil =>
    obtain ⟨rfl, -⟩ := gives_pure.mp h
    rfl
  | cons a aggregates ih =>
    obtain ⟨value, u, -, h⟩ := gives_bind.mp h
    obtain ⟨as, u', has, h⟩ := gives_bind.mp h
    obtain ⟨rfl, rfl⟩ := gives_pure.mp h
    simp [ih has]

theorem length_groupValues {keys : List Expr} {aggregates : List Aggregate} {r : List SqlExpr × List SqlExpr}
    (h : Gives (do
      let keyValues ← valuesOf p.value keys
      return (keyValues, ← aggregateValues p aggregates)) c s r t) :
    (r.1 ++ r.2).length = keys.length + aggregates.length := by
  obtain ⟨t₁, hkeys, hvalues⟩ := groupValues_inv h
  rw [List.length_append, length_valuesOf hkeys, length_aggregateValues hvalues]

/-! ## Constant rows and set operations -/

/-- The row of an element, which is the first of its input, or rows that are written out. -/
theorem constantRows_inv {type : DataType} {args : List Expr} (h : Gives (constantRows p type args var) c s node t) :
    (∃ input label s₁ t₁ last t₂, args = [.element input] ∧ Gives nextAlias c s label s₁ ∧
        Gives (p.rows input label) c s₁ node t₁ ∧ Gives (openStage node) c t₁ last t₂ ∧
        t = { t₂ with stages := t₂.stages.modify last.stage (addLimit (.constant (.int32 1))) }) ∨
      (∀ input, args ≠ [.element input]) ∧ ∃ written t₁, Gives (pushSource (.rows written) var) c t₁ node t ∧
        (emptyRows type = .ok written ∧ t₁ = s ∨
          ∃ selects, Gives (constantSelects p args) c s selects t₁ ∧
            written = .seq ([.verbatim "("] ++ [SqlExpr.verbatim " UNION ALL "].intercalate selects ++ [.verbatim ")"])) := by
  unfold constantRows at h
  split at h
  · rename_i input
    obtain ⟨label, s₁, halias, h⟩ := gives_bind.mp h
    obtain ⟨_, t₁, hrows, h⟩ := gives_bind.mp h
    obtain ⟨last, t₂, hopen, h⟩ := gives_bind.mp h
    obtain ⟨_, t₃, hmodify, hlast⟩ := gives_bind.mp h
    obtain ⟨-, rfl⟩ := gives_modifyStage.mp hmodify
    obtain ⟨rfl, rfl⟩ := gives_pure.mp hlast
    exact .inl ⟨input, label, s₁, t₁, last, t₂, rfl, halias, hrows, hopen, rfl⟩
  · obtain ⟨written, t₁, hempty, hpush⟩ := gives_bind.mp h
    exact .inr ⟨by simp, written, t₁, hpush, .inl (gives_lift.mp hempty)⟩
  · rename_i hne _
    obtain ⟨selects, t₁, hselects, hpush⟩ := gives_bind.mp h
    exact .inr ⟨hne, _, t₁, hpush, .inr ⟨selects, hselects, rfl⟩⟩

theorem operandStages_inv {es : List Expr} {place : Nat} {ids : List StageId}
    (h : Gives (operandStages p var place (e :: es)) c s ids t) :
    ∃ node t₁ last t₂ t₃ rest, Gives (p.rows e (operandName var place)) c s node t₁ ∧
      Gives (openStage node) c t₁ last t₂ ∧ Gives (exposeMembers last.stage e.resultType) c t₂ () t₃ ∧
      Gives (operandStages p var (place + 1) es) c t₃ rest t ∧ ids = last.stage :: rest := by
  obtain ⟨node, t₁, hrows, h⟩ := gives_bind.mp h
  obtain ⟨last, t₂, hopen, h⟩ := gives_bind.mp h
  obtain ⟨_, t₃, hexpose, h⟩ := gives_bind.mp h
  obtain ⟨rest, t₄, hrest, hlast⟩ := gives_bind.mp h
  obtain ⟨rfl, rfl⟩ := gives_pure.mp hlast
  exact ⟨node, t₁, last, t₂, t₃, rest, hrows, hopen, hexpose, hrest, rfl⟩

theorem exposeMembers_inv {type : DataType} {u : Unit} (h : Gives (exposeMembers stage type) c s u t) :
    (¬((s.stages.get stage).projection = none ∧ (s.stages.get stage).pulled = []) ∧ t = s) ∨
      ((s.stages.get stage).projection = none ∧ (s.stages.get stage).pulled = []) ∧
        ((∃ item members, (s.stages.get stage).from_ = some (.item item) ∧
            type.elementOrSelf.members? = some members ∧
            Gives (exposeMembers.pullMembers stage item.name members) c s () t) ∨
          (∀ item members, (s.stages.get stage).from_ = some (.item item) →
            type.elementOrSelf.members? ≠ some members) ∧ t = s) := by
  have hempty : ((s.stages.get stage).projection.isSome || !(s.stages.get stage).pulled.isEmpty) = true ↔
      ¬((s.stages.get stage).projection = none ∧ (s.stages.get stage).pulled = []) := by
    rw [Bool.or_eq_true, Option.isSome_iff_ne_none, Bool.not_eq_true', List.isEmpty_eq_false_iff, Classical.not_and_iff_not_or_not]
  rw [exposeMembers, gives_getStage_bind] at h
  split at h
  · rename_i hsome
    exact .inl ⟨hempty.mp hsome, (gives_pure.mp h).2⟩
  · rename_i hnone
    refine .inr ⟨Classical.not_not.mp (hnone ∘ hempty.mpr), ?_⟩
    split at h
    · rename_i item members hfrom htype
      exact .inl ⟨item, members, hfrom, htype, h⟩
    · rename_i hitem
      exact .inr ⟨hitem, (gives_pure.mp h).2⟩

/-! ## Joins -/

theorem joinSide_inv {item : FromItem} (h : Gives (joinSide p node e var) c s item t) :
    ∃ child t₁ last, Gives (p.rows e var) c s child t₁ ∧
      Gives (openStage child) c { t₁ with nodes := t₁.nodes.modify child fun n => { n with joinParent := some node } }
        last t ∧
      item = { source := .stage last.stage, name := last.name } := by
  obtain ⟨child, t₁, hrows, h⟩ := gives_bind.mp h
  obtain ⟨_, t₂, hmodify, h⟩ := gives_bind.mp h
  obtain ⟨-, rfl⟩ := gives_modifyNode.mp hmodify
  obtain ⟨last, t₃, hopen, hlast⟩ := gives_bind.mp h
  obtain ⟨rfl, rfl⟩ := gives_pure.mp hlast
  exact ⟨child, t₁, last, hrows, hopen, rfl⟩

/-- The right side of an apply is one item, which is compiled inside of the stage of the join. -/
theorem joinTree_inv {kind : JoinKind} {l r : Binding} {condition : Option Expr} {f : FromTree}
    (h : Gives (joinTree p node stage (.join kind l r condition) var) c s f t) :
    ∃ left t₁ right t₂, Gives (joinTree p node stage l.expr l.var) c s left t₁ ∧
      (kind.isApply = true ∧ (∃ item, Gives (inScope stage (joinSide p node r.expr r.var)) c t₁ item t₂ ∧
          right = .item { item with forceSubquery := true }) ∨
        kind.isApply ≠ true ∧ Gives (joinTree p node stage r.expr r.var) c t₁ right t₂) ∧
      Gives (joined p stage left kind right condition) c t₂ f t := by
  obtain ⟨left, t₁, hleft, h⟩ := gives_bind.mp h
  split at h
  · rename_i hkind
    obtain ⟨item, t₂, hitem, h⟩ := gives_bind.mp h
    obtain ⟨_, t₃, hright, h⟩ := gives_bind.mp h
    obtain ⟨rfl, rfl⟩ := gives_pure.mp hright
    exact ⟨left, t₁, _, _, hleft, .inl ⟨hkind, item, hitem, rfl⟩, h⟩
  · rename_i hkind
    obtain ⟨right, t₂, hright, h⟩ := gives_bind.mp h
    exact ⟨left, t₁, right, t₂, hleft, .inr ⟨hkind, hright⟩, h⟩

theorem joinTree_side_inv {f : FromTree}
    (hjoin : ∀ kind l lv r rv condition, e = .join kind ⟨l, lv⟩ ⟨r, rv⟩ condition → False)
    (h : Gives (joinTree p node stage e var) c s f t) :
    ∃ item, Gives (joinSide p node e var) c s item t ∧ f = .item item := by
  rw [joinTree] at h
  · obtain ⟨item, t₁, hitem, hlast⟩ := gives_bind.mp h
    obtain ⟨rfl, rfl⟩ := gives_pure.mp hlast
    exact ⟨item, hitem, rfl⟩
  · exact hjoin

theorem joinRows_inv (h : Gives (joinRows p e var) c s node t) :
    node = s.nodes.length ∧ ∃ from_ t₁,
      Gives (joinTree p s.nodes.length s.stages.length e var) c
        { s with stages := s.stages ++ [{}], nodes := s.nodes ++ [{ first := ⟨var, s.stages.length⟩ }] } from_ t₁ ∧
      t = { t₁ with stages := t₁.stages.modify s.stages.length fun a => { a with from_ := some from_ } } := by
  obtain ⟨_, t₁, hstage, h⟩ := gives_bind.mp h
  obtain ⟨rfl, rfl⟩ := gives_pushStage.mp hstage
  obtain ⟨_, t₂, hpush, h⟩ := gives_bind.mp h
  obtain ⟨rfl, rfl⟩ := gives_pushNode.mp hpush
  obtain ⟨from_, t₃, htree, h⟩ := gives_bind.mp h
  obtain ⟨_, t₄, hmodify, hlast⟩ := gives_bind.mp h
  obtain ⟨-, rfl⟩ := gives_modifyStage.mp hmodify
  obtain ⟨rfl, rfl⟩ := gives_pure.mp hlast
  exact ⟨rfl, from_, t₃, htree, rfl⟩

/-! ## All relations, subqueries and queries -/

/-- The node of a relation is bound to its variable. -/
theorem rowsStep_inv (h : Gives (rowsStep p e var) c s node t) :
    ∃ u, Gives (nodeStep p e var) c s node u ∧ t = { u with bindings := (var, node) :: u.bindings } := by
  obtain ⟨_, u, hnode, h⟩ := gives_bind.mp h
  obtain ⟨_, v, hbind, hlast⟩ := gives_bind.mp h
  obtain ⟨-, rfl⟩ := gives_bindVar.mp hbind
  obtain ⟨rfl, rfl⟩ := gives_pure.mp hlast
  exact ⟨u, hnode, rfl⟩

theorem subqueryValue_inv {a : SqlExpr} (h : Gives (subqueryValue p e) c s a t) :
    ∃ label s₁ node t₁ last, Gives nextAlias c s label s₁ ∧ Gives (p.rows e label) c s₁ node t₁ ∧
      Gives (openStage node) c t₁ last t ∧ a = .stage last.stage := by
  obtain ⟨label, s₁, halias, h⟩ := gives_bind.mp h
  obtain ⟨node, t₁, hrows, h⟩ := gives_bind.mp h
  obtain ⟨last, t₂, hopen, hlast⟩ := gives_bind.mp h
  obtain ⟨rfl, rfl⟩ := gives_pure.mp hlast
  exact ⟨label, s₁, node, t₁, last, halias, hrows, hopen, rfl⟩

/-- The first column of the innermost select list is pulled through the stages around it, if there is one. -/
theorem limitValue_inv {a : SqlExpr} (h : Gives (limitValue p e) c s a t) :
    ∃ label s₁ node t₁ n t₂, Gives nextAlias c s label s₁ ∧ Gives (p.rows e label) c s₁ node t₁ ∧
      Gives (getNode node) c t₁ n t₂ ∧ a = .stage n.last.stage ∧
      ((∃ column columns, (t₂.stages.get n.first.stage).projection = some (column :: columns) ∧
          Gives (pullAll ⟨n.first.name, column.name⟩ n.wrappers) c t₂ () t) ∨
        (∀ column columns, (t₂.stages.get n.first.stage).projection ≠ some (column :: columns)) ∧ t = t₂) := by
  obtain ⟨label, s₁, halias, h⟩ := gives_bind.mp h
  obtain ⟨node, t₁, hrows, h⟩ := gives_bind.mp h
  obtain ⟨n, t₂, hnode, h⟩ := gives_bind.mp h
  rw [gives_getStage_bind] at h
  split at h
  · rename_i column columns hcolumns
    obtain ⟨_, t₃, hpull, hlast⟩ := gives_bind.mp h
    obtain ⟨rfl, rfl⟩ := gives_pure.mp hlast
    exact ⟨label, s₁, node, t₁, n, t₂, halias, hrows, hnode, rfl, .inl ⟨column, columns, hcolumns, hpull⟩⟩
  · rename_i hnone
    obtain ⟨rfl, rfl⟩ := gives_pure.mp h
    exact ⟨label, s₁, node, t₁, n, _, halias, hrows, hnode, rfl, .inr ⟨hnone, rfl⟩⟩

/-- A query is a relation, or it is put into a projection to its declared columns. -/
theorem queryStatement_inv {query : Expr} {r : Statement × List Member}
    (h : Gives (queryStatement allParts query) c s r t) :
    ∃ label s₁ node t₁ last, Gives nextAlias c s label s₁ ∧
      Gives (rows ((declaredColumns? query label).getD query) label) c s₁ node t₁ ∧
      Gives (openStage node) c t₁ last t ∧ r = (.select last.stage, resultColumns (t.stages.get last.stage)) := by
  unfold queryStatement at h
  split at h
  · obtain ⟨label, s₁, halias, h⟩ := gives_bind.mp h
    obtain ⟨node, t₁, hrows, h⟩ := gives_bind.mp h
    obtain ⟨last, t₂, hopen, h⟩ := gives_bind.mp h
    obtain ⟨stage, t₃, hstage, hlast⟩ := gives_bind.mp h
    obtain ⟨rfl, rfl⟩ := gives_getStage.mp hstage
    obtain ⟨rfl, rfl⟩ := gives_pure.mp hlast
    exact ⟨label, s₁, node, t₁, last, halias, hrows, hopen, rfl⟩
  · exact (not_gives_fail h).elim

end TreeSql.Compile
