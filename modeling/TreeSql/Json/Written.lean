import TreeSql.Json.Basic

/-
  TreeSql.Json.Written — JSON values as text.

  `compact` has no blanks. `pretty` puts each item and each field on a line of its own, indented by
  two spaces per level; an empty array or object stays on its line.
-/
namespace TreeSql.Json

def quoted (escaped : List Char) : List Char := '"' :: escaped ++ ['"']

/-- Texts with a separator between them. -/
def joined (separator : List Char) (texts : List (List Char)) : List Char :=
  separator.intercalate texts

/-! ## Without blanks -/

mutual

def compact : Json → List Char
  | null => "null".toList
  | bool b => (if b then "true" else "false").toList
  | number token => token
  | string escaped => quoted escaped
  | array items => '[' :: joined [','] (compactItems items) ++ [']']
  | object fields => '\x7b' :: joined [','] (compactFields fields) ++ ['\x7d']
termination_by structural j => j

def compactItems : List Json → List (List Char)
  | [] => []
  | j :: js => compact j :: compactItems js
termination_by structural js => js

def compactFields : List (List Char × Json) → List (List Char)
  | [] => []
  | (name, j) :: fields => (quoted name ++ ':' :: compact j) :: compactFields fields
termination_by structural fields => fields

end

/-! ## On lines -/

/-- The start of a line at a level. -/
def newLine (level : Nat) : List Char := '\n' :: List.replicate (2 * level) ' '

/-- Texts on lines of their own between two marks that close at a level. -/
def block (opening closing : Char) (level : Nat) (texts : List (List Char)) : List Char :=
  match texts with
  | [] => [opening, closing]
  | texts =>
    opening :: newLine (level + 1) ++ joined (',' :: newLine (level + 1)) texts ++ newLine level ++
      [closing]

mutual

def prettyAt (level : Nat) : Json → List Char
  | null => "null".toList
  | bool b => (if b then "true" else "false").toList
  | number token => token
  | string escaped => quoted escaped
  | array items => block '[' ']' level (prettyItems (level + 1) items)
  | object fields => block '\x7b' '\x7d' level (prettyFields (level + 1) fields)
termination_by structural j => j

def prettyItems (level : Nat) : List Json → List (List Char)
  | [] => []
  | j :: js => prettyAt level j :: prettyItems level js
termination_by structural js => js

def prettyFields (level : Nat) : List (List Char × Json) → List (List Char)
  | [] => []
  | (name, j) :: fields =>
    (quoted name ++ ':' :: ' ' :: prettyAt level j) :: prettyFields level fields
termination_by structural fields => fields

end

def pretty (j : Json) : List Char := prettyAt 0 j

end TreeSql.Json
