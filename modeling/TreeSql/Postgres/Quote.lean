/-
  TreeSql.Postgres.Quote — names, strings and patterns in SQL text.

  A quoted identifier doubles its quotes. A string is written as an `E''` literal, in which a
  backslash and a quote are escaped by a backslash. A pattern that is to match literally escapes
  the wildcards and the escape character itself.
-/
namespace TreeSql.Postgres.Quote

/-- A text with every quote in it doubled. -/
def doubleQuotes (s : List Char) : List Char :=
  s.flatMap fun c => if c = '"' then ['"', '"'] else [c]

/-- A name as a quoted identifier. -/
def identifier (name : String) : String :=
  String.ofList ('"' :: doubleQuotes name.toList ++ ['"'])

/-- A text with a name after it as a quoted identifier, written character by character. -/
def appendIdentifier (out name : String) : String :=
  (name.toList.foldl (fun out c => if c = '"' then (out.push '"').push c else out.push c)
    (out.push '"')).push '"'

/-- A text as the body of an `E''` literal. -/
def escapeString (s : List Char) : List Char :=
  s.flatMap fun c => if c = '\\' then ['\\', '\\'] else if c = '\'' then ['\\', '\''] else [c]

/-- A text as an `E''` literal. -/
def string (s : String) : String :=
  String.ofList ('E' :: '\'' :: escapeString s.toList ++ ['\''])

/-- The character that escapes a wildcard in a pattern. -/
def patternEscape : Char := '\\'

/-- A pattern that matches exactly the given text. -/
def literalPattern (s : String) : String :=
  String.ofList (s.toList.flatMap fun c =>
    if c = '%' ∨ c = '_' ∨ c = patternEscape then [patternEscape, c] else [c])

end TreeSql.Postgres.Quote
