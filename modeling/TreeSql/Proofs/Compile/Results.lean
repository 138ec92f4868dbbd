import TreeSql.Command.Sql
import TreeSql.Proofs.Compile.Frame
import TreeSql.Proofs.Meaning.Opening
import TreeSql.Proofs.References.SelectLists
import TreeSql.Proofs.References.Statement

/-
  TreeSql.Proofs.Compile.Results — the result columns of a query are those that it declares.

  The members of the row type of a query are its columns. A projection and a grouping write them into the
  stage that is open at the end; any other query, of primitive members, is put into a projection first. So
  the last stage has a select list with these names and types, whatever the query is made of
  (`CommandTree.columns_toCommand`).

  A query whose type is a row itself, and not a collection of rows, is not put into a projection. If its
  last operator is put around the input, then it has no result columns (`Films.no_columns_of_row`).
-/
namespace TreeSql

open Sql

/-! ## Select lists -/

/-- The columns of a select list, as members of a row. -/
def Sql.membersOf (columns : List Column) : List Member := columns.map fun c => ⟨c.name, c.type⟩

/-- The stage has a select list, of columns with the names and types of the members. -/
def Sql.Stage.Lists (s : Stage) (members : List Member) : Prop :=
  ∃ columns, s.projection = some columns ∧ membersOf columns = members

theorem Sql.Stage.Lists.outputNames {s : Stage} {members : List Member} (h : s.Lists members) :
    s.outputNames = members.map (·.name) := by
  obtain ⟨columns, hcolumns, rfl⟩ := h
  rw [Stage.outputNames, hcolumns, membersOf, List.map_map]
  rfl

namespace Compile

variable {c : Context} {s t : State} {n : Nat} {var : String} {node : NodeId}

theorem resultColumns_of_lists {s : Stage} {members : List Member} (h : s.Lists members) :
    resultColumns s = members := by
  obtain ⟨columns, hcolumns, rfl⟩ := h
  rw [resultColumns, hcolumns]
  rfl

theorem members_columnsOf {members : List Member} {values : List SqlExpr} (h : members.length = values.length) :
    membersOf (columnsOf members values) = members := by
  induction members generalizing values with
  | nil => rfl
  | cons m members ih =>
    cases values with
    | nil => cases h
    | cons v values => exact congrArg (m :: ·) (ih (Nat.succ.inj h))

/-- A row constructor gives one column for each member of its type. -/
theorem members_rowColumns {p : Parts} {row : Expr} {columns : List Column}
    (h : Gives (rowColumns p row) c s columns t) : row.resultType.members? = some (membersOf columns) := by
  obtain ⟨type, args, members, values, rfl, hmembers, hlength, hvalues, rfl⟩ := rowColumns_inv h
  rw [members_columnsOf (hlength.trans (length_columnValues hvalues).symm), Expr.resultType, hmembers]

/-! ## Projections and groupings -/

/-- The open stage of the node has a select list of the members. -/
def OpenLists (t : State) (node : NodeId) (members : List Member) : Prop :=
  (t.stages.get (nodeAt t.nodes node).last.stage).Lists members

/-- A step that keeps what there is, run from the start. -/
theorem Keeps.run {α : Type} {m : CompileM α} {P : State → α → Prop} {a : α} (h : Keeps s s m P)
    (hrun : Gives m c s a t) : Kept s t ∧ P t a := (h c s a t (.refl s) (.refl s) hrun).2

theorem keeps_rowsTo (n : Nat) (e : Expr) (var : String) :
    Keeps s s ((partsTo n).rows e var) fun t node =>
      AddedNode s t node ∧ Added s t (nodeAt t.nodes node).last.stage := by
  intro c s' node t hs hkept hrun
  have hagree := TreeComparison.agree_partsTo (frame_agreeOnConstants s) n
  obtain ⟨ht, hkept', _, -, hadded⟩ := hagree.rows e var s c s' node t hs hkept hrun
  have hnode : AddedNode s t node := hadded
  have hn : t.nodes[node]? = some (nodeAt t.nodes node) := by
    rw [nodeAt, List.getElem?_eq_getElem hnode.2, Option.getD_some]
  exact ⟨ht, hkept', hnode, hkept'.fresh node _ hnode.1 hn _ (TreeComparison.last_mem_selects _)⟩

/-- A select list is attached to a stage, which is that of a new node. -/
theorem openLists_attach {stage : StageId} {columns : List Column} (hstage : stage < s.stages.length) :
    OpenLists { s with
        stages := s.stages.modify stage fun a => { a with projection := some columns }
        nodes := s.nodes ++ [{ first := ⟨var, stage⟩ }] }
      s.nodes.length (membersOf columns) := by
  refine ⟨columns, ?_, rfl⟩
  have hnode : nodeAt (s.nodes ++ [({ first := ⟨var, stage⟩ } : Node)]) s.nodes.length = { first := ⟨var, stage⟩ } := by
    rw [nodeAt, List.getElem?_concat_length, Option.getD_some]
  show (Stages.get (s.stages.modify stage _) (nodeAt (s.nodes ++ [_]) s.nodes.length).last.stage).projection = _
  rw [hnode, Stages.get_modify, if_pos ⟨rfl, hstage⟩]

/-- A projection leaves its columns in the open stage, whether its input takes them or is closed. -/
theorem openLists_projectRows {input : Binding} {row : Expr}
    (h : Gives (projectRows (partsTo n) input row var) c s node t) :
    ∃ members, row.resultType.members? = some members ∧ OpenLists t node members := by
  obtain ⟨child, t₁, _, t₂, columns, t₃, hrows, hopen, h⟩ := projectRows_inv h
  obtain ⟨-, hchild, hlast⟩ := (keeps_rowsTo n input.expr input.var).run hrows
  obtain ⟨rfl, rfl⟩ := gives_openStage.mp hopen
  rcases h with ⟨-, hcolumns, rfl, rfl⟩ | ⟨-, hcolumns, _, t₄, hwrap, rfl, rfl⟩
  · have hcolumns := gives_inScope.mp hcolumns
    have hkept := Keeps.run
      (TreeComparison.steps_rowColumns (C := frame t₂) (TreeComparison.agree_partsTo (frame_agreeOnConstants t₂) n) row)
      hcolumns
    exact ⟨_, members_rowColumns hcolumns, openLists_attach (Nat.lt_of_lt_of_le hlast.2 hkept.1.length)⟩
  · obtain ⟨rfl, rfl⟩ := gives_wrap_iff.mp hwrap
    exact ⟨_, members_rowColumns hcolumns, openLists_attach (by simp [wrapped])⟩

/-- The stage that takes a clause is the open stage of the node. -/
theorem last_openFor {clause : Clause} {label : String} {stage : StageId} (hnode : node < s.nodes.length)
    (hlast : (nodeAt s.nodes node).last.stage < s.stages.length)
    (h : Gives (openFor clause node label) c s stage t) :
    stage = (nodeAt t.nodes node).last.stage ∧ stage < t.stages.length ∧ s.nodes.length ≤ t.nodes.length := by
  have h := gives_openFor_iff.mp h
  split at h
  · obtain ⟨rfl, rfl⟩ := h
    exact ⟨rfl, hlast, Nat.le_refl _⟩
  · obtain ⟨rfl, rfl⟩ := h
    rw [last_wrapped hnode]
    exact ⟨rfl, by simp [wrapped], by simp [wrapped]⟩

theorem keeps_groupValues (n : Nat) (keys : List Expr) (aggregates : List Aggregate) :
    Keeps s s (do
      let keyValues ← valuesOf (partsTo n).value keys
      return (keyValues, ← aggregateValues (partsTo n) aggregates)) fun _ _ => True := by
  have hagree := TreeComparison.agree_partsTo (frame_agreeOnConstants s) n
  refine keeps_bind (Comparison.steps_valuesOf (C := (frame s).toComparison) (hagree.compiles keys)) fun _ _ => ?_
  refine keeps_bind (TreeComparison.steps_aggregateValues hagree aggregates) fun _ _ => ?_
  exact keeps_pure fun _ _ => trivial

/-- The stage that takes a clause is one that can. -/
theorem compatible_of_openFor {clause : Clause} {label : String} {stage : StageId}
    (h : Gives (openFor clause node label) c s stage t) : clause.compatible (t.stages.get stage) = true := by
  have h := gives_openFor_iff.mp h
  split at h
  · obtain ⟨rfl, rfl⟩ := h
    assumption
  · obtain ⟨rfl, rfl⟩ := h
    rw [wrapped, Stages.get_append, if_pos rfl]
    exact compatible_ofSource ..

/-- A grouping leaves its columns, the keys and then the aggregates, in the open stage, which could take them. -/
theorem gives_groupRows {input : GroupBinding} {keys : List Expr} {aggregates : List Aggregate} {type : DataType}
    (h : Gives (groupRows (partsTo n) input keys aggregates type var) c s node t) :
    ∃ members keyValues values, type.members? = some members ∧
      members.length = keys.length + aggregates.length ∧
      (∃ c' u v, Gives (valuesOf (partsTo n).value keys) c' u keyValues v) ∧
      (∃ c' u v, Gives (aggregateValues (partsTo n) aggregates) c' u values v) ∧
      ∃ stage, Clause.groupBy.compatible stage = true ∧
        t.stages.get (nodeAt t.nodes node).last.stage = { stage with
          projection := some (columnsOf members (keyValues ++ values))
          groupBy := some (groupKeys keys keyValues) } := by
  obtain ⟨t₁, stage, t₂, members, ⟨keyValues, values⟩, t₃, hrows, hopen, hmembers, hlength, hvalues, rfl⟩ :=
    groupRows_inv h
  obtain ⟨-, hchild, hlast⟩ := (keeps_rowsTo n input.expr input.var).run hrows
  have hcompatible := compatible_of_openFor hopen
  obtain ⟨rfl, hstage, hnodes⟩ := last_openFor hchild.2 hlast.2 hopen
  have hvalues := gives_inScope.mp hvalues
  have hkept := ((keeps_groupValues n keys aggregates).run hvalues).1
  -- The values are compiled beside the node, which stays as it was.
  have hnode : nodeAt t₃.nodes node = nodeAt t₂.nodes node := by
    obtain ⟨rest, hrest⟩ := hkept.nodes
    rw [nodeAt, nodeAt, ← hrest, List.getElem?_append_left (Nat.lt_of_lt_of_le hchild.2 hnodes)]
  obtain ⟨u, hkeys, haggregates⟩ := groupValues_inv hvalues
  refine ⟨members, keyValues, values, hmembers, hlength, ⟨_, _, _, hkeys⟩, ⟨_, _, _, haggregates⟩,
    t₃.stages.get (nodeAt t₂.nodes node).last.stage, ?_, ?_⟩
  · rw [(hkept.stages _ hstage).rest]
    exact hcompatible
  · show Stages.get (t₃.stages.modify _ _) (nodeAt t₃.nodes node).last.stage = _
    rw [hnode, Stages.get_modify, if_pos ⟨rfl, Nat.lt_of_lt_of_le hstage hkept.length⟩]

theorem openLists_groupRows {input : GroupBinding} {keys : List Expr} {aggregates : List Aggregate} {type : DataType}
    (h : Gives (groupRows (partsTo n) input keys aggregates type var) c s node t) :
    ∃ members, type.members? = some members ∧ OpenLists t node members := by
  obtain ⟨members, keyValues, values, hmembers, hlength, ⟨_, _, _, hkeys⟩, ⟨_, _, _, haggregates⟩, stage, -, hstage⟩ :=
    gives_groupRows h
  refine ⟨members, hmembers, columnsOf members (keyValues ++ values), by rw [hstage], members_columnsOf ?_⟩
  rw [List.length_append, length_valuesOf hkeys, length_aggregateValues haggregates, hlength]

end Compile

/-! ## Queries -/

/-- The query declares its columns: it has a select list of its own, or its rows are made of members, at least
    one and all of them primitive. -/
inductive Expr.Declares : Expr → Prop
  | project (input : Binding) (row : Expr) : Declares (.project input row)
  | groupBy (input : GroupBinding) (keys : List Expr) (aggregates : List Aggregate) (type : DataType) :
    Declares (.groupBy input keys aggregates type)
  | rows {query : Expr} {element : DataType} {members : List Member}
    (helement : query.resultType.element? = some element)
    (hmembers : element.members? = some members) (hsome : members ≠ [])
    (hprimitive : ∀ m ∈ members, m.type.kind?.isSome) : Declares query

namespace Compile

/-- The rows of a projection or a grouping are listed under the members of its type. -/
theorem openLists_rowsStep {query : Expr}
    (hquery : (∃ input row, query = .project input row) ∨
      ∃ input keys aggregates type, query = .groupBy input keys aggregates type)
    (h : Gives (rowsStep (partsTo n) query var) c s node t) :
    ∃ members, query.resultType.members? = some members ∧ OpenLists t node members := by
  obtain ⟨u, hnode, rfl⟩ := rowsStep_inv h
  rcases hquery with ⟨input, row, rfl⟩ | ⟨input, keys, aggregates, type, rfl⟩
  · obtain ⟨members, hmembers, hlists⟩ := openLists_projectRows hnode
    exact ⟨members, by rw [Expr.resultType]; exact hmembers, hlists⟩
  · obtain ⟨members, hmembers, hlists⟩ := openLists_groupRows hnode
    exact ⟨members, by rw [Expr.resultType]; exact hmembers, hlists⟩

/-- What a query that declares its columns is put into: a projection or a grouping with the same members. -/
theorem declared_root {query : Expr} (h : query.Declares) (label : String) :
    let root := (declaredColumns? query label).getD query
    ((∃ input row, root = .project input row) ∨
      ∃ input keys aggregates type, root = .groupBy input keys aggregates type) ∧
    root.resultType.members? = query.resultType.members? := by
  cases h with
  | project input row => exact ⟨.inl ⟨input, row, rfl⟩, rfl⟩
  | groupBy input keys aggregates type => exact ⟨.inr ⟨input, keys, aggregates, type, rfl⟩, rfl⟩
  | @rows _ element members helement hmembers hsome hprimitive =>
    unfold declaredColumns?
    split
    · exact ⟨.inl ⟨_, _, rfl⟩, rfl⟩
    · exact ⟨.inr ⟨_, _, _, _, rfl⟩, rfl⟩
    · have hany : (members.isEmpty || members.any (·.type.kind?.isNone)) = false := by
        simpa [hsome, List.isEmpty_iff] using fun m hm => Option.isSome_iff_ne_none.mp (hprimitive m hm)
      simp only [helement, hmembers, Option.bind_eq_bind, Option.bind_some, hany, Bool.false_eq_true, if_false,
        Option.getD_some]
      refine ⟨.inl ⟨_, _, rfl⟩, ?_⟩
      obtain ⟨facets, htype⟩ : ∃ facets, query.resultType = .collection element facets := by
        cases htype : query.resultType with
        | collection e facets =>
          rw [htype] at helement
          cases helement
          exact ⟨facets, rfl⟩
        | _ => rw [htype] at helement; cases helement
      rw [htype, DataType.members?, hmembers]
      rfl

theorem lists_queryStatement {query : Expr} (hquery : query.Declares) {r : Statement × List Member}
    (h : Gives (queryStatement allParts query) c s r t) :
    ∃ root, r = (.select root, r.2) ∧ query.resultType.members? = some r.2 ∧ (t.stages.get root).Lists r.2 := by
  obtain ⟨label, t₁, node, t₂, _, -, hrows, hopen, rfl⟩ := queryStatement_inv h
  obtain ⟨rfl, rfl⟩ := gives_openStage.mp hopen
  obtain ⟨hroot, hmembers⟩ := declared_root hquery label
  obtain ⟨members, hmembers', hlists⟩ := openLists_rowsStep (n := 2 * _) hroot hrows
  have hlists : (t.stages.get (nodeAt t.nodes node).last.stage).Lists members := hlists
  have hcolumns := resultColumns_of_lists hlists
  refine ⟨_, rfl, ?_, ?_⟩
  · rw [← hmembers, hmembers']
    exact congrArg some hcolumns.symm
  · exact hcolumns ▸ hlists

end Compile

open Compile

/-- The result columns of a query are the members of its row type, in order, and the last SELECT has a select list
    with just these names and types. -/
theorem CommandTree.columns_toCommand {tree : CommandTree} {query : Expr} (hbody : tree.body = .query query)
    (hquery : query.Declares) {settings : Settings} {command : Command}
    (hcommand : tree.toCommand settings = .ok command) :
    query.resultType.members? = some command.columns ∧
      ∃ root t, build settings tree.body = .ok ((.select root, command.columns), t) ∧
        command.text = t.stages.select settings.serverVersion.regime root ∧
        (t.stages.get root).Lists command.columns ∧
        (t.stages.get root).outputNames = command.columns.map (·.name) := by
  obtain ⟨⟨⟨statement, columns⟩, t⟩, hbuild, hcommand⟩ := ok_of_bind hcommand
  obtain ⟨declared, -, hcommand⟩ := ok_of_bind hcommand
  cases hcommand
  have hrun : Gives (queryStatement allParts query) (contextOf settings tree.body) {} (statement, columns) t := by
    rw [hbody] at hbuild ⊢
    exact hbuild
  obtain ⟨root, hselect, hmembers, hlists⟩ := lists_queryStatement hquery hrun
  obtain rfl : statement = .select root := congrArg Prod.fst hselect
  exact ⟨hmembers, root, t, hbuild, rfl, hlists, hlists.outputNames⟩

namespace Compile.Films

def countRow : DataType := .ofMembers [⟨"Rating", integer⟩, ⟨"N", integer⟩]

/-- The ratings of more than one film, from groups of the given type. -/
def frequent (type : DataType) : Expr :=
  let counts := Expr.groupBy ⟨.scan films, "f", "g"⟩ [.property (.varRef "f" integer) "Rating" integer]
    [.ofArg "Count" (.property (.varRef "g" integer) "Id" integer) integer] type
  .filter ⟨counts, "c"⟩
    (.comparison .greaterThan (.property (.varRef "c" countRow) "N" integer) (.constant (.int32 1)))

theorem columns_frequent :
    (frequent (.ofElement countRow)).Declares ∧
      ∃ command, (CommandTree.ofQuery (frequent (.ofElement countRow))).toCommand {} = .ok command ∧
        command.columns = [⟨"Rating", integer⟩, ⟨"N", integer⟩] ∧
        ∃ root t, build {} (.query (frequent (.ofElement countRow))) = .ok ((.select root, command.columns), t) ∧
          (t.stages.get root).Lists command.columns := by
  have hmembers : countRow.members? = some [⟨"Rating", integer⟩, ⟨"N", integer⟩] := rfl
  have hdeclares : (frequent (.ofElement countRow)).Declares := .rows rfl hmembers (by simp) (by decide)
  obtain ⟨command, hcommand, -⟩ :
      ∃ command, (CommandTree.ofQuery (frequent (.ofElement countRow))).toCommand {} = .ok command ∧
        command.parameters = [] := exists_ok (by decide +kernel)
  obtain ⟨hmembers, root, t, hbuild, -, hlists, -⟩ := CommandTree.columns_toCommand rfl hdeclares hcommand
  exact ⟨hdeclares, command, hcommand, (Option.some.inj hmembers).symm, root, t, hbuild, hlists⟩

/-- The same groups, of which one row gives the type: their members are not selected. -/
theorem no_columns_of_row :
    (frequent countRow).resultType.members? = some [⟨"Rating", integer⟩, ⟨"N", integer⟩] ∧
      ∃ command, (CommandTree.ofQuery (frequent countRow)).toCommand {} = .ok command ∧ command.columns = [] ∧
        ∃ root t, build {} (.query (frequent countRow)) = .ok ((.select root, command.columns), t) ∧
          (t.stages.get root).projection.isNone = true := by
  refine ⟨rfl, ?_⟩
  obtain ⟨command, hcommand, hcolumns⟩ :
      ∃ command, (CommandTree.ofQuery (frequent countRow)).toCommand {} = .ok command ∧ command.columns = [] :=
    exists_ok (by decide +kernel)
  obtain ⟨⟨⟨statement, columns⟩, t⟩, hbuild, root, hroot, hnone, hcolumns'⟩ :
      ∃ r : (Statement × List Member) × State, build {} (.query (frequent countRow)) = .ok r ∧
        ∃ root ∈ root? r.1.1, (r.2.stages.get root).projection.isNone = true ∧ r.1.2 = [] :=
    exists_ok (by decide +kernel)
  cases statement with
  | select root' =>
    obtain rfl : root' = root := by simpa [root?] using hroot
    obtain rfl : columns = [] := hcolumns'
    exact ⟨command, hcommand, hcolumns, root', t, hcolumns ▸ hbuild, hnone⟩
  | _ => cases hroot

end Compile.Films

end TreeSql
