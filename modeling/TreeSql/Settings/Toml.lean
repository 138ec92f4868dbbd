import TreeSql.Error
import TreeSql.Settings.Basic
import TreeSql.Toml.Reader

/-
  TreeSql.Settings.Toml — settings in a TOML document.

  Every setting may be absent, and unknown keys are skipped. The server version may be a text or an
  integer; a float is refused, since it would lose the zero of a version such as 9.10.
-/
namespace TreeSql.Settings

open Toml

/-- The version that an item gives. Text that holds no version stands for the default. -/
def version? : Item → Option Postgres.ServerVersion
  | .text s => some (.parseOrDefault s)
  | .integer i => some (.parseOrDefault (Text.integer i))
  | _ => none

def flag? : Item → Option Bool
  | .boolean b => some b
  | _ => none

/-- A setting by its key, or the default where the key is absent. -/
def setting? {α : Type} (entries : Entries) (key : String) (read? : Item → Option α) (default : α) :
    Option α :=
  match entries.lookup key with
  | none => some default
  | some item => read? item

def ofEntries? (entries : Entries) : Option Settings := do
  return {
    serverVersion := ← setting? entries "server_version" version? .default
    liftInChanges := ← setting? entries "parameterize_dml_constants" flag? true
    liftInQueries := ← setting? entries "parameterize_query_constants" flag? false }

/-- The settings in a TOML text. -/
def ofText (s : String) : Except Error Settings :=
  match (Toml.ofText? s.toList).bind ofEntries? with
  | some settings => .ok settings
  | none => .error .malformedSettings

end TreeSql.Settings
