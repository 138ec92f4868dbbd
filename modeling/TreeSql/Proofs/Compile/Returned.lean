import TreeSql.Command.Sql
import TreeSql.Proofs.Compile.Run
import TreeSql.Proofs.Quoting.ReadBack
import TreeSql.Proofs.References.Statement

/-
  TreeSql.Proofs.Compile.Returned — the columns that a change sends back, and their names.

  A change that returns a row of its target's columns has a `RETURNING` list of these columns at its end. The server
  names an output column by the alias that stands after it, or by itself if there is none; `outputNames?` reads these
  names from the list. The command reports its columns by the members of the row.

  No aliases are written into the list. So the server's names are those of the columns (`CommandTree.returned_names`),
  and they are the reported ones exactly if each member of the row has the name of the column that it is made of. A
  member of another name is reported under a name that the server does not give (`Films.key_of_id`).
-/
namespace TreeSql

/-! ## Output columns -/

namespace Quoting

open Postgres

theorem map_cons_eq_some {c : Char} {x : Option (List Char × List Char)} {body r : List Char}
    (h : x.map (Prod.map (c :: ·) id) = some (body, r)) : ∃ body', x = some (body', r) := by
  obtain ⟨p, hp, hr⟩ := Option.map_eq_some_iff.mp h
  obtain rfl : p.2 = r := congrArg Prod.snd hr
  exact ⟨p.1, hp⟩

theorem length_readBody? {quote : Char} {escapes : Bool} {s body r : List Char}
    (h : readBody? quote escapes s = some (body, r)) : r.length < s.length := by
  fun_induction readBody? quote escapes s generalizing body with
  | case1 => cases h
  | case2 s ih =>
    obtain ⟨body', h⟩ := map_cons_eq_some h
    have := ih h
    simp only [List.length_cons]
    omega
  | case3 d s hd =>
    cases h
    simp
  | case4 =>
    cases h
    simp
  | case5 c s hc hescape d rest hread ih =>
    obtain ⟨body', h⟩ := map_cons_eq_some h
    have := ih h
    have := length_readEscape? hread
    simp only [List.length_cons]
    omega
  | case6 => cases h
  | case7 c s hc hescape ih =>
    obtain ⟨body', h⟩ := map_cons_eq_some h
    have := ih h
    simp only [List.length_cons]
    omega

theorem length_readIdentifier? {text name rest : String} (h : readIdentifier? text = some (name, rest)) :
    rest.toList.length < text.toList.length := by
  unfold readIdentifier? at h
  split at h
  · next s hs =>
    have hrest := length_readBody? (map_ofList_eq_some.mp h)
    rw [hs, List.length_cons]
    omega
  · cases h

/-- A column at the head of a select list, with an alias or without: its name, and the text after it. -/
def readOutput? (text : String) : Option (String × String) :=
  match readIdentifier? text with
  | some (column, rest) =>
    match rest.toList with
    | ' ' :: 'A' :: 'S' :: ' ' :: name => readIdentifier? (String.ofList name)
    | _ => some (column, rest)
  | none => none

theorem length_readOutput? {text name rest : String} (h : readOutput? text = some (name, rest)) :
    rest.toList.length < text.toList.length := by
  unfold readOutput? at h
  split at h
  · next column rest' hcolumn =>
    have hrest := length_readIdentifier? hcolumn
    split at h
    · next name' halias =>
      have hname := length_readIdentifier? h
      simp only [String.toList_ofList] at hname
      simp only [halias, List.length_cons] at hrest
      omega
    · cases h
      exact hrest
  · cases h

/-- The names of the columns of a select list. -/
def readOutputs? (text : String) : Option (List String) :=
  match _h : readOutput? text with
  | none => none
  | some (name, rest) =>
    match _hrest : rest.toList with
    | [] => some [name]
    | ',' :: ' ' :: more => (readOutputs? (String.ofList more)).map (name :: ·)
    | _ => none
termination_by text.toList.length
decreasing_by
  have hlt := length_readOutput? _h
  simp only [_hrest, List.length_cons] at hlt
  simp only [String.toList_ofList]
  omega

/-- The names that the server gives to the columns of a list, which may be empty. -/
def outputNames? (text : String) : Option (List String) := if text = "" then some [] else readOutputs? text

/-- A column without an alias has its own name. -/
theorem readOutput?_identifier (name rest : String) (hquote : rest.toList.head? ≠ some '"')
    (halias : rest.toList.head? ≠ some ' ') : readOutput? (Quote.identifier name ++ rest) = some (name, rest) := by
  unfold readOutput?
  rw [(readIdentifier?_iff name rest).mpr hquote]
  dsimp only
  split
  · next hrest =>
    rw [hrest] at halias
    exact (halias rfl).elim
  · rfl

theorem readOutputs?_empty : readOutputs? "" = none := by
  have hnone : readOutput? "" = none := by decide
  rw [readOutputs?]
  split
  · rfl
  · next hread => cases hnone.symm.trans hread

theorem readOutputs?_last {text name : String} (h : readOutput? text = some (name, "")) :
    readOutputs? text = some [name] := by
  rw [readOutputs?]
  split
  · next hread => cases h.symm.trans hread
  · next hread =>
    cases h.symm.trans hread
    rfl

theorem readOutputs?_comma {text name more : String} (h : readOutput? text = some (name, ", " ++ more)) :
    readOutputs? text = (readOutputs? more).map (name :: ·) := by
  have hmore : (", " ++ more).toList = ',' :: ' ' :: more.toList := by simp
  rw [readOutputs?]
  split
  · next hread => cases h.symm.trans hread
  · next hread =>
    cases h.symm.trans hread
    split
    · next hnil => cases hmore.symm.trans hnil
    · next hcons =>
      cases hmore.symm.trans hcons
      rw [String.ofList_toList]
    · next hother => exact (hother _ hmore).elim

theorem readOutputs?_identifiers (name : String) (names : List String) :
    readOutputs? (", ".intercalate ((name :: names).map Quote.identifier)) = some (name :: names) := by
  induction names generalizing name with
  | nil =>
    have hcolumn : readOutput? (Quote.identifier name ++ "") = some (name, "") :=
      readOutput?_identifier name "" (by simp) (by simp)
    rw [String.append_empty] at hcolumn
    rw [List.map_singleton, String.intercalate_singleton]
    exact readOutputs?_last hcolumn
  | cons name' names ih =>
    -- a comma is neither a second quote nor the blank before an alias
    have hcolumn := readOutput?_identifier name (", " ++ ", ".intercalate ((name' :: names).map Quote.identifier))
      (by simp) (by simp)
    rw [List.map_cons, List.map_cons, String.intercalate_cons_cons, String.append_assoc]
    have hrest := ih name'
    rw [List.map_cons] at hcolumn hrest
    rw [readOutputs?_comma hcolumn, hrest]
    rfl

/-- A list of columns has their names. -/
theorem outputNames?_identifiers (names : List String) :
    outputNames? (", ".intercalate (names.map Quote.identifier)) = some names := by
  cases names with
  | nil => rfl
  | cons name names =>
    have hread := readOutputs?_identifiers name names
    have hne : ", ".intercalate ((name :: names).map Quote.identifier) ≠ "" := by
      intro h
      rw [h, readOutputs?_empty] at hread
      cases hread
    rw [outputNames?, if_neg hne, hread]

example : outputNames? "\"Id\" AS \"Key\", \"a \"\"b\"\"\"" = some ["Key", "a \"b\""] := by decide +kernel

end Quoting

/-! ## Rows of columns -/

/-- The name of a property of something. -/
def Expr.propertyName? : Expr → Option String
  | property _ name _ => some name
  | _ => none

namespace CommandBody

/-- What a change sends back. -/
def returning? : CommandBody → Option Expr
  | insert c => c.returning
  | update c => c.returning
  | query _ | delete _ => none

/-- The change that sends nothing back. -/
def withoutReturning : CommandBody → CommandBody
  | insert c => insert { c with returning := none }
  | update c => update { c with returning := none }
  | body => body

end CommandBody

open Sql Postgres

/-- Columns of a target are written by their names alone. -/
theorem Sql.render_properties (regime : Regime) (stages : Stages) (names : List String) :
    SqlExpr.render regime stages (.list (names.map .property)) = ", ".intercalate (names.map Quote.identifier) := by
  have hall (select : StageId → String) (names : List String) :
      renderAll regime select (names.map .property) = names.map Quote.identifier := by
    induction names with
    | nil => rfl
    | cons name names ih =>
      rw [List.map_cons, renderAll, ih]
      rfl
  exact congrArg (", ".intercalate ·) (hall (stages.select regime) names)

/-- A clause at the end of a text, and no clause in its place. -/
theorem Sql.append_clause (text keyword list : String) :
    text ++ clause keyword (some list) = text ++ clause keyword none ++ keyword ++ list := by
  rw [clause, clause, String.append_empty, String.append_assoc]

namespace Compile

variable {c : Context} {s t : State} {var : String} {type : DataType} {args : List Expr} {properties : List String}

/-- A property of the target is a column by its name, and of anything else there is none. -/
theorem gives_property_target (hc : c.mode = .target var) {e : Expr} {name : String}
    (he : e.propertyName? = some name) {x : SqlExpr} (h : Gives (value e) c s x t) : x = .property name ∧ t = s := by
  cases e with
  | property base name' type' =>
    obtain rfl : name' = name := Option.some.inj he
    have hrun : Gives (propertyValue base name') c s x t := h
    rw [propertyValue, gives_read_bind, hc] at hrun
    dsimp only at hrun
    split at hrun
    · split at hrun
      · exact gives_pure.mp hrun
      · exact (not_gives_fail hrun).elim
    · exact (not_gives_fail hrun).elim
  | _ => cases he

theorem gives_valuesOf_properties (hc : c.mode = .target var)
    (hargs : args.map Expr.propertyName? = properties.map some) {xs : List SqlExpr}
    (h : Gives (valuesOf value args) c s xs t) : xs = properties.map .property ∧ t = s := by
  induction args generalizing properties s xs with
  | nil =>
    obtain rfl : properties = [] := by simpa using hargs.symm
    exact gives_pure.mp h
  | cons e args ih =>
    cases properties with
    | nil => cases hargs
    | cons name properties =>
      obtain ⟨he, hargs⟩ := List.cons.inj hargs
      obtain ⟨x, u, hx, h⟩ := gives_bind.mp h
      obtain ⟨xs', v, hxs, h⟩ := gives_bind.mp h
      obtain ⟨rfl, rfl⟩ := gives_pure.mp h
      obtain ⟨rfl, rfl⟩ := gives_property_target hc he hx
      obtain ⟨rfl, rfl⟩ := ih hargs hxs
      exact ⟨rfl, rfl⟩

/-- A statement that sends back a row of properties has them as columns, and nothing is built for them. -/
theorem gives_returned_properties (hc : c.mode = .target var)
    (hargs : args.map Expr.propertyName? = properties.map some) {returning : Option Expr}
    (hreturning : returning = some (.newInstance type args)) {make : Option (List SqlExpr) → Statement}
    {r : Statement × List Member}
    (h : Gives (do
      let (values, columns) ← returnedValues allParts returning
      return (make values, columns)) c s r t) :
    r.1 = make (some (properties.map .property)) ∧ type.members? = some r.2 ∧ t = s := by
  subst hreturning
  obtain ⟨⟨values, columns⟩, u, hvalues, h⟩ := gives_bind.mp h
  obtain ⟨rfl, rfl⟩ := gives_pure.mp h
  rw [returnedValues] at hvalues
  split at hvalues
  · exact (not_gives_fail hvalues).elim
  · next members hmembers =>
    split at hvalues
    · obtain ⟨xs, u, hxs, hvalues⟩ := gives_bind.mp hvalues
      obtain ⟨hresult, rfl⟩ := gives_pure.mp hvalues
      obtain ⟨rfl, rfl⟩ := gives_valuesOf_properties hc hargs hxs
      cases hresult
      exact ⟨rfl, hmembers, rfl⟩
    · exact (not_gives_fail hvalues).elim

/-- The change that sends nothing back is the same statement, up to the list at its end. -/
theorem gives_withoutReturning {body : CommandBody} (hreturning : body.returning? = some (.newInstance type args))
    (hargs : args.map Expr.propertyName? = properties.map some) {settings : Settings}
    {statement' : Statement} {columns : List Member}
    (h : Gives (statement allParts body) (contextOf settings body) {} (statement', columns) t) :
    type.members? = some columns ∧
      ∃ bare,
        Gives (statement allParts body.withoutReturning) (contextOf settings body.withoutReturning) {} (bare, []) t ∧
        ∀ regime, statement'.render regime t.stages =
          bare.render regime t.stages ++ " RETURNING " ++ ", ".intercalate (properties.map Quote.identifier) := by
  cases body with
  | query e | delete d => cases hreturning
  | insert i =>
    obtain ⟨table, u, htable, h⟩ := gives_bind.mp h
    obtain ⟨assignments, v, hassignments, h⟩ := gives_bind.mp h
    obtain ⟨rfl, hmembers, rfl⟩ := gives_returned_properties rfl hargs hreturning h
    refine ⟨hmembers, .insert table assignments none, ?_, fun regime => ?_⟩
    · exact gives_bind.mpr ⟨table, u, htable, gives_bind.mpr ⟨assignments, _, hassignments, rfl⟩⟩
    · rw [← render_properties regime t.stages]
      exact append_clause _ _ _
  | update i =>
    have hrun : Gives (updateStatement allParts i) (contextOf settings (.update i)) {} (statement', columns) t := h
    unfold updateStatement at hrun
    split at hrun
    · exact (not_gives_fail hrun).elim
    · next hnonempty =>
      obtain ⟨table, u, htable, h⟩ := gives_bind.mp hrun
      obtain ⟨assignments, v, hassignments, h⟩ := gives_bind.mp h
      obtain ⟨where_, w, hwhere, h⟩ := gives_bind.mp h
      obtain ⟨rfl, hmembers, rfl⟩ := gives_returned_properties rfl hargs hreturning h
      refine ⟨hmembers, .update table assignments where_ none, ?_, fun regime => ?_⟩
      · show Gives (updateStatement allParts { i with returning := none }) _ _ _ _
        rw [updateStatement, if_neg hnonempty]
        exact gives_bind.mpr ⟨table, u, htable, gives_bind.mpr ⟨assignments, v, hassignments,
          gives_bind.mpr ⟨where_, _, hwhere, rfl⟩⟩⟩
      · rw [← render_properties regime t.stages]
        exact append_clause _ _ _

end Compile

open Compile Quoting

/-- A change that returns a row of columns ends with a list of these columns. The server names the output columns by
    them, and the command reports the members of the row. -/
theorem CommandTree.returned_names {tree : CommandTree} {type : DataType} {args : List Expr} {properties : List String}
    (hreturning : tree.body.returning? = some (.newInstance type args))
    (hargs : args.map Expr.propertyName? = properties.map some) {settings : Settings} {command : Command}
    (hcommand : tree.toCommand settings = .ok command) :
    ∃ bare list, { tree with body := tree.body.withoutReturning }.toCommand settings = .ok bare ∧
      command.text = bare.text ++ " RETURNING " ++ list ∧ outputNames? list = some properties ∧
      type.members? = some command.columns ∧
      (outputNames? list = some (command.columns.map (·.name)) ↔
        type.members?.map (List.map (·.name)) = some properties) := by
  obtain ⟨⟨⟨statement', columns⟩, t⟩, hbuild, hcommand⟩ := ok_of_bind hcommand
  obtain ⟨declared, hdeclared, hcommand⟩ := ok_of_bind hcommand
  cases hcommand
  obtain ⟨hmembers, bare, hbare, htext⟩ := gives_withoutReturning hreturning hargs hbuild
  have hnames := outputNames?_identifiers properties
  refine ⟨⟨bare.render settings.serverVersion.regime t.stages, declared ++ liftedParameters 0 t.lifted, []⟩,
    ", ".intercalate (properties.map Quote.identifier), ?_, htext _, hnames, hmembers, ?_⟩
  · have hbuild' : build settings tree.body.withoutReturning = .ok ((bare, []), t) := hbare
    rw [CommandTree.toCommand, hbuild', hdeclared]
    rfl
  · rw [hnames, hmembers, Option.map_some]
    exact eq_comm

namespace Compile.Films

/-- All films get a rating, and come back as rows of this type. -/
def rerated (row : List Member) : CommandTree where
  body :=
    let column (name : String) : Expr := .property (.varRef "f" integer) name integer
    .update { target := ⟨.scan films, "f"⟩, assignments := [⟨column "Rating", .constant (.int32 5)⟩],
              returning := some (.newInstance (.ofMembers row) [column "Id", column "Rating"]) }

theorem returned_names_of_films :
    let row : List Member := [⟨"Id", integer⟩, ⟨"Rating", integer⟩]
    (∃ args, (rerated row).body.returning? = some (.newInstance (.ofMembers row) args) ∧
        args.map Expr.propertyName? = [some "Id", some "Rating"]) ∧
      ∃ command, (rerated row).toCommand {} = .ok command ∧ command.columns = row ∧
        ∃ bare list, command.text = bare ++ " RETURNING " ++ list ∧
          outputNames? list = some (command.columns.map (·.name)) := by
  intro row
  obtain ⟨command, hcommand, -⟩ : ∃ command, (rerated row).toCommand {} = .ok command ∧ command.columns = row :=
    exists_ok (by decide +kernel)
  have hargs : [Expr.property (.varRef "f" integer) "Id" integer, .property (.varRef "f" integer) "Rating" integer].map
      Expr.propertyName? = ["Id", "Rating"].map some := rfl
  obtain ⟨bare, list, -, htext, -, hmembers, hnames⟩ := CommandTree.returned_names rfl hargs hcommand
  exact ⟨⟨_, rfl, rfl⟩, command, hcommand, (Option.some.inj hmembers).symm, bare.text, list, htext, hnames.mpr rfl⟩

/-- A column of another name than the member that is made of it. -/
theorem key_of_id :
    let row : List Member := [⟨"Key", integer⟩, ⟨"Rating", integer⟩]
    ∃ command, (rerated row).toCommand {} = .ok command ∧
      command.text = "UPDATE \"dbo\".\"Film\" SET \"Rating\" = @p_0 RETURNING \"Id\", \"Rating\"" ∧
      outputNames? "\"Id\", \"Rating\"" = some ["Id", "Rating"] ∧
      command.columns.map (·.name) = ["Key", "Rating"] := by
  intro row
  obtain ⟨command, hcommand, htext, hcolumns⟩ : ∃ command, (rerated row).toCommand {} = .ok command ∧
      command.text = "UPDATE \"dbo\".\"Film\" SET \"Rating\" = @p_0 RETURNING \"Id\", \"Rating\"" ∧
      command.columns.map (·.name) = ["Key", "Rating"] := exists_ok (by decide +kernel)
  exact ⟨command, hcommand, htext, outputNames?_identifiers ["Id", "Rating"], hcolumns⟩

end Compile.Films

end TreeSql
