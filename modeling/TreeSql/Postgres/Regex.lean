/-
  TreeSql.Postgres.Regex — options of a regular expression match.

  Options arrive as bits. PostgreSQL takes them as letters embedded at the start of the pattern;
  two of them have no counterpart there.
-/
namespace TreeSql.Postgres

inductive RegexOption where
  | ignoreCase
  | multiline
  | explicitCapture
  | compiled
  | singleline
  | ignorePatternWhitespace
  | rightToLeft
  | ecmaScript
  | cultureInvariant
deriving DecidableEq

namespace RegexOption

/-- All options in the order of their bits. -/
def all : List RegexOption :=
  [ignoreCase, multiline, explicitCapture, compiled, singleline, ignorePatternWhitespace,
    rightToLeft, ecmaScript, cultureInvariant]

def bit : RegexOption → Nat
  | ignoreCase => 1
  | multiline => 2
  | explicitCapture => 4
  | compiled => 8
  | singleline => 16
  | ignorePatternWhitespace => 32
  | rightToLeft => 64
  | ecmaScript => 256
  | cultureInvariant => 512

def name : RegexOption → String
  | ignoreCase => "IGNORE_CASE"
  | multiline => "MULTILINE"
  | explicitCapture => "EXPLICIT_CAPTURE"
  | compiled => "COMPILED"
  | singleline => "SINGLELINE"
  | ignorePatternWhitespace => "IGNORE_PATTERN_WHITESPACE"
  | rightToLeft => "RIGHT_TO_LEFT"
  | ecmaScript => "ECMA_SCRIPT"
  | cultureInvariant => "CULTURE_INVARIANT"

end RegexOption

/-- A set of options, as a list in the order of their bits. -/
structure RegexOptions where
  members : List RegexOption
deriving DecidableEq

namespace RegexOptions

def empty : RegexOptions := ⟨[]⟩

/-- The options whose bits are set; other bits are dropped. -/
def ofBits (bits : Nat) : RegexOptions := ⟨RegexOption.all.filter fun o => bits / o.bit % 2 == 1⟩

def bits (s : RegexOptions) : Nat := s.members.foldl (fun n o => n + o.bit) 0

def contains (s : RegexOptions) (o : RegexOption) : Bool := s.members.contains o

def description (s : RegexOptions) : String :=
  "RegexOptions(" ++ String.intercalate " | " (s.members.map RegexOption.name) ++ ")"

/-- The letters of the options in an embedded option group; `none` if an option has no letter. The
    letters `p`, `n` and `w` say where line ends count. -/
def letters? (s : RegexOptions) : Option String :=
  if s.contains .rightToLeft || s.contains .ecmaScript then none
  else
    let lines := match s.contains .multiline, s.contains .singleline with
      | false, false => "p"
      | true, false => "n"
      | false, true => ""
      | true, true => "w"
    some ((if s.contains .ignoreCase then "i" else "") ++ lines ++
      (if s.contains .ignorePatternWhitespace then "x" else ""))

end RegexOptions

end TreeSql.Postgres
