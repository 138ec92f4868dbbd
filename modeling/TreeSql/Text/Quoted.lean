import TreeSql.Text.Digits
import TreeSql.Text.Unprinted

/-
  TreeSql.Text.Quoted — text in double quotes, as diagnostics show it.

  A quote and a backslash are escaped by a backslash; line feed, carriage return, tab and NUL have
  letters; a character that would not be seen is spelled as its code point in braces. A single
  quote stands for itself.
-/
namespace TreeSql.Text.Quoted

/-- The spelling of one character. -/
def spell (c : Char) : List Char :=
  if c = '"' then ['\\', '"']
  else if c = '\\' then ['\\', '\\']
  else if c = '\n' then ['\\', 'n']
  else if c = '\r' then ['\\', 'r']
  else if c = '\t' then ['\\', 't']
  else if c = '\x00' then ['\\', '0']
  else if isUnprinted c then '\\' :: 'u' :: '{' :: paddedHex 1 c.toNat ++ ['}']
  else [c]

/-- The text in quotes. -/
def encode (s : String) : String := String.ofList ('"' :: s.toList.flatMap spell ++ ['"'])

end TreeSql.Text.Quoted
