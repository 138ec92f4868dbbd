import TreeSql.Error
import TreeSql.Sql.Stage

/-
  TreeSql.Compile.State — what a compilation knows, and the steps it is made of.

  A compilation builds stages. A relational input under compilation is a `Node`: the stage its rows
  come from, the stages wrapped around it so far, and the join it is a side of. Variables are bound
  to nodes. Clauses are attached to the last stage of a node; while the expressions of a clause are
  compiled, its stage is in scope.

  A compilation is a program of primitive steps (`Step`), and `CompileM.run` runs it. The stages in
  scope, the mode and the choice to lift constants are fixed for the extent of a step (`Context`); all
  else is `State`, which only grows: stages, nodes, aliases and lifted constants are added, never
  removed. A failed run gives an error and no state.
-/
namespace TreeSql.Compile

open Sql

/-- The number of a node. -/
abbrev NodeId := Nat

/-- A stage and the alias by which stages around it refer to it. -/
structure AliasedStage where
  name : String
  stage : StageId
deriving DecidableEq

structure Node where
  /-- The innermost stage; columns are resolved from here outwards. -/
  first : AliasedStage
  /-- The stages around it, innermost first. -/
  wrappers : List AliasedStage := []
  /-- The join in whose `FROM` clause the stages stand. -/
  joinParent : Option NodeId := none
deriving DecidableEq

namespace Node

/-- All stages, innermost first. -/
def selects (n : Node) : List AliasedStage := n.first :: n.wrappers

/-- The stage that is still open for clauses. -/
def last (n : Node) : AliasedStage := n.wrappers.getLast?.getD n.first

end Node

/-- What a property access means. -/
inductive Mode where
  /-- A column of a bound input. -/
  | query
  /-- A column of the table bound to the variable. -/
  | target (var : String)
deriving DecidableEq

structure Context where
  mode : Mode
  liftConstants : Bool
  /-- The stages whose clauses are being built, innermost first. -/
  scopes : List StageId := []

structure State where
  stages : Stages := []
  nodes : List Node := []
  /-- Variables and their nodes, the latest first. -/
  bindings : List (String × NodeId) := []
  /-- The number of aliases given out. -/
  aliases : Nat := 0
  /-- The constants lifted into parameters, in order. -/
  lifted : List Value := []

/-- The name of the parameter for the constant lifted at the given place. -/
def liftedName (place : Nat) : String := "p_" ++ Text.numeral place

/-! ## Steps -/

/-- A primitive step. -/
inductive Step where
  | nextAlias
  | pushStage (stage : Stage)
  | getStage (id : StageId)
  | modifyStage (id : StageId) (f : Stage → Stage)
  /-- Exposes a source column of a stage and gives its name there. -/
  | pullColumn (id : StageId) (source column : String)
  | pushNode (node : Node)
  /-- A node by number. Numbers come from `pushNode`, so there is one. -/
  | getNode (id : NodeId)
  | modifyNode (id : NodeId) (f : Node → Node)
  | bindVar (var : String) (node : NodeId)
  /-- The node that a variable is bound to. -/
  | boundNode (var : String)
  /-- Registers a constant as a parameter and gives its name. -/
  | liftConstant (value : Value)

namespace Step

/-- What a step gives. -/
abbrev Answer : Step → Type
  | nextAlias | pullColumn .. | liftConstant _ => String
  | pushStage _ => StageId
  | getStage _ => Stage
  | pushNode _ => NodeId
  | getNode _ => Node
  | boundNode _ => Option NodeId
  | modifyStage .. | modifyNode .. | bindVar .. => Unit

/-- What a step gives in a state, and the state after it. -/
def apply : (x : Step) → State → x.Answer × State
  | nextAlias, s => (aliasName (s.aliases + 1), { s with aliases := s.aliases + 1 })
  | pushStage stage, s => (s.stages.length, { s with stages := s.stages ++ [stage] })
  | getStage id, s => (s.stages.get id, s)
  | modifyStage id f, s => ((), { s with stages := s.stages.modify id f })
  | pullColumn id source column, s =>
    let (name, stage, aliases) := (s.stages.get id).pull source column s.aliases
    (name, { s with stages := s.stages.set id stage, aliases })
  | pushNode node, s => (s.nodes.length, { s with nodes := s.nodes ++ [node] })
  | getNode id, s => ((s.nodes[id]?).getD { first := ⟨"", 0⟩ }, s)
  | modifyNode id f, s => ((), { s with nodes := s.nodes.modify id f })
  | bindVar var node, s => ((), { s with bindings := (var, node) :: s.bindings })
  | boundNode var, s => (s.bindings.lookup var, s)
  | liftConstant value, s => (liftedName s.lifted.length, { s with lifted := s.lifted ++ [value] })

end Step

/-! ## Programs of steps -/

/-- A compilation, as the steps that it takes. -/
inductive CompileM : Type → Type 1 where
  | pure {α : Type} (a : α) : CompileM α
  | fail {α : Type} (e : Error) : CompileM α
  | context {α : Type} (next : Context → CompileM α) : CompileM α
  | step {α : Type} (x : Step) (next : x.Answer → CompileM α) : CompileM α
  /-- The body with a stage in scope, and what follows it. -/
  | inScope {α β : Type} (id : StageId) (body : CompileM α) (next : α → CompileM β) : CompileM β

namespace CompileM

/-- A program, and what is done with its result. -/
protected def bind {α β : Type} : CompileM α → (α → CompileM β) → CompileM β
  | pure a, f => f a
  | fail e, _ => fail e
  | context next, f => context fun c => (next c).bind f
  | step x next, f => step x fun a => (next a).bind f
  | inScope id body next, f => inScope id body fun a => (next a).bind f

instance : Monad CompileM where
  pure := CompileM.pure
  bind := CompileM.bind

instance : MonadReaderOf Context CompileM where
  read := context CompileM.pure

instance : MonadLift (Except Error) CompileM where
  monadLift
    | .ok a => CompileM.pure a
    | .error e => fail e

/-- The result of a program and the state after it, or the error that it ends with. -/
def run {α : Type} : CompileM α → Context → State → Except Error (α × State)
  | pure a, _, s => .ok (a, s)
  | fail e, _, _ => .error e
  | context next, c, s => (next c).run c s
  | step x next, c, s => (next (x.apply s).1).run c (x.apply s).2
  | inScope id body next, c, s =>
    (body.run { c with scopes := id :: c.scopes } s).bind fun r => (next r.1).run c r.2

end CompileM

/-! ## Stages -/

def nextAlias : CompileM String := .step .nextAlias .pure

def pushStage (stage : Stage) : CompileM StageId := .step (.pushStage stage) .pure

def getStage (id : StageId) : CompileM Stage := .step (.getStage id) .pure

def modifyStage (id : StageId) (f : Stage → Stage) : CompileM Unit := .step (.modifyStage id f) .pure

/-- Runs a program with a stage in scope. -/
def inScope {α : Type} (id : StageId) (body : CompileM α) : CompileM α := .inScope id body .pure

def pullColumn (id : StageId) (source column : String) : CompileM String :=
  .step (.pullColumn id source column) .pure

/-! ## Nodes and bindings -/

def pushNode (node : Node) : CompileM NodeId := .step (.pushNode node) .pure

def getNode (id : NodeId) : CompileM Node := .step (.getNode id) .pure

def modifyNode (id : NodeId) (f : Node → Node) : CompileM Unit := .step (.modifyNode id f) .pure

/-- The open stage of a node. -/
def openStage (id : NodeId) : CompileM AliasedStage := return (← getNode id).last

/-- Binds a variable to a node. -/
def bindVar (var : String) (node : NodeId) : CompileM Unit := .step (.bindVar var node) .pure

def boundNode (var : String) : CompileM (Option NodeId) := .step (.boundNode var) .pure

/-- A new stage that selects from one source, with a new node for it. -/
def pushSource (source : Source) (name : String) : CompileM NodeId := do
  let stage ← pushStage (.ofSource source name)
  pushNode { first := ⟨name, stage⟩ }

/-! ## Constants -/

def liftConstant (value : Value) : CompileM String := .step (.liftConstant value) .pure

end TreeSql.Compile
