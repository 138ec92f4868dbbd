import TreeSql.Postgres.Version

/-
  TreeSql.Settings.Basic — what compiling is told beside the tree.
-/
namespace TreeSql

structure Settings where
  serverVersion : Postgres.ServerVersion := .default
  /-- Whether constants in changes become parameters. -/
  liftInChanges : Bool := true
  /-- Whether constants in queries become parameters. -/
  liftInQueries : Bool := false
deriving DecidableEq

namespace Settings

/-- The defaults for a server version, given as text. -/
def forVersion (version : String) : Settings :=
  { serverVersion := .parseOrDefault version }

end Settings

end TreeSql
