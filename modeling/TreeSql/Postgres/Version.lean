import TreeSql.Error
import TreeSql.Sql.Operator
import TreeSql.Text.Blank
import TreeSql.Text.Digits

/-
  TreeSql.Postgres.Version — the server version that SQL is written for.

  A version is read from the start of a text: a number and up to two more after points. What
  follows is not looked at, and a part that does not fit 32 bits is taken as absent. The version
  decides which table of operator precedence is used.
-/
namespace TreeSql.Postgres

structure ServerVersion where
  major : UInt32
  minor : UInt32
  patch : UInt32
deriving DecidableEq

namespace ServerVersion

/-- The version that is assumed where none can be read. -/
def default : ServerVersion := ⟨9, 5, 0⟩

/-- The first version with the modern precedence table. -/
def firstModern : ServerVersion := ⟨9, 5, 0⟩

/-- Order by major, then minor, then patch number. -/
def cmp (a b : ServerVersion) : Ordering :=
  (compare a.major b.major).then ((compare a.minor b.minor).then (compare a.patch b.patch))

/-- Whether the server is older than the modern precedence table. -/
def isLegacy (v : ServerVersion) : Bool := v.cmp firstModern == .lt

def regime (v : ServerVersion) : Sql.Regime := if v.isLegacy then .legacy else .modern

/-- A zero patch number is left out. -/
def text (v : ServerVersion) : String :=
  Text.numeral v.major.toNat ++ "." ++ Text.numeral v.minor.toNat ++
    (if v.patch = 0 then "" else "." ++ Text.numeral v.patch.toNat)

/-! ## Reading -/

/-- A number that fits 32 bits, and the rest. -/
def readNumber? (s : List Char) : Option (UInt32 × List Char) :=
  let ds := Text.leadingDigits s
  let n := Text.digitsValue ds
  if ds.isEmpty || UInt32.size ≤ n then none else some (UInt32.ofNat n, Text.afterDigits s)

/-- A number after a point; zero, with nothing taken from the text, where there is none. -/
def readPart (s : List Char) : UInt32 × List Char :=
  match s with
  | '.' :: rest => (readNumber? rest).getD (0, s)
  | s => (0, s)

/-- The version at the start of a text without leading blanks. -/
def readVersion? (s : List Char) : Option ServerVersion := do
  let (major, s) ← readNumber? s
  let (minor, s) := readPart s
  let (patch, _) := readPart s
  some ⟨major, minor, patch⟩

/-- The version at the start of a text. -/
def parse (s : String) : Except Error ServerVersion :=
  let trimmed := Text.trimStart s.toList
  match readVersion? trimmed with
  | some v => .ok v
  | none => .error (.versionExpected (Text.utf8Length s.toList - Text.utf8Length trimmed) s)

/-- The version at the start of a text, or the default. -/
def parseOrDefault (s : String) : ServerVersion := (parse s).toOption.getD default

end ServerVersion

end TreeSql.Postgres
