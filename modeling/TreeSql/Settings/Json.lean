import TreeSql.Json.Decoder
import TreeSql.Settings.Basic

/-
  TreeSql.Settings.Json — settings in JSON.

  The server version may be a text or an integer. Text that holds no version stands for the default.
-/
namespace TreeSql

open Json Decoder

namespace Postgres.ServerVersion

def toJson (v : ServerVersion) : Json := .ofString v.text

/-- A version as it is given in settings. -/
def settingDecoder : Decoder ServerVersion
  | n, .string escaped => Decoder.map parseOrDefault string n (.string escaped)
  | n, j => Decoder.map (fun i => parseOrDefault (Text.integer i.toInt)) int64 n j

/-- A version by itself, which has to be a version. -/
def decoder : Decoder ServerVersion := fun n j => do (parse (← string n j)).toOption

end Postgres.ServerVersion

namespace Settings

def toJson (s : Settings) : Json :=
  .record [("server_version", s.serverVersion.toJson),
    ("parameterize_dml_constants", .bool s.liftInChanges),
    ("parameterize_query_constants", .bool s.liftInQueries)]

def decoder : Decoder Settings := fun n j => do
  let f ← fields ["server_version", "parameterize_dml_constants", "parameterize_query_constants"] n j
  return {
    serverVersion := ← f.getD "server_version" Postgres.ServerVersion.settingDecoder .default
    liftInChanges := ← f.getD "parameterize_dml_constants" bool true
    liftInQueries := ← f.getD "parameterize_query_constants" bool false }

end Settings

end TreeSql
