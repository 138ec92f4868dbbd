import TreeSql.Compile.Statement
import TreeSql.Postgres.Wire

/-
  TreeSql.Command.Sql — command trees as SQL commands.

  A command has the text to send, the parameters to send with it and the columns of its result.
  The parameters are those that the tree declares and then the constants lifted out of it.
-/
namespace TreeSql

structure Parameter where
  name : String
  kind : PrimitiveKind
  /-- The value of a lifted constant. A declared parameter has none. -/
  value : Option Value := none
deriving DecidableEq

/-- The type under which the parameter is sent. -/
def Parameter.wireType (p : Parameter) : Postgres.WireType := .ofKind p.kind

structure Command where
  text : String
  parameters : List Parameter
  columns : List Member
deriving DecidableEq

/-- A declared parameter. -/
def ParameterDecl.parameter (d : ParameterDecl) : Except Error Parameter :=
  match d.type.kind? with
  | some kind => .ok { name := d.name, kind }
  | none => .error (.parameterType d.name)

/-- The parameters that a tree declares. -/
def declaredParameters : List ParameterDecl → Except Error (List Parameter)
  | [] => .ok []
  | d :: ds => return (← d.parameter) :: (← declaredParameters ds)

/-- The parameters for lifted constants, numbered from a place on. -/
def liftedParameters : (place : Nat) → List Value → List Parameter
  | _, [] => []
  | place, v :: vs =>
    { name := Compile.liftedName place, kind := v.kind, value := some v } ::
      liftedParameters (place + 1) vs

/-- The SQL command for a tree. -/
def CommandTree.toCommand (tree : CommandTree) (settings : Settings) : Except Error Command := do
  let ((statement, columns), state) ← Compile.build settings tree.body
  let declared ← declaredParameters tree.parameters
  return {
    text := statement.render settings.serverVersion.regime state.stages
    parameters := declared ++ liftedParameters 0 state.lifted
    columns }

end TreeSql
