import TreeSql.Text.Blank
import TreeSql.Text.Digits

/-
  TreeSql.Value.Guid — 128-bit identifiers in their usual text forms.

  Written in lower case with hyphens; read in any case, bare or hyphenated, and the hyphenated
  form also in braces or after `urn:uuid:`.
-/
namespace TreeSql

structure Guid where
  value : BitVec 128
deriving DecidableEq

namespace Guid

/-- Digit groups of 8, 4, 4, 4 and 12 with hyphens between them. -/
def hyphenate (ds : List Char) : List Char :=
  ds.take 8 ++ '-' :: (ds.drop 8).take 4 ++ '-' :: (ds.drop 12).take 4 ++ '-' ::
    (ds.drop 16).take 4 ++ '-' :: ds.drop 20

def text (g : Guid) : String := String.ofList (hyphenate (Text.paddedHex 32 g.value.toNat))

/-- The identifier that 32 digits spell. -/
def ofDigits? (ds : List Char) : Option Guid :=
  if ds.length = 32 then (Text.hexDigitsValue? ds).map fun n => ⟨BitVec.ofNat 128 n⟩ else none

/-- The digits of a hyphenated form: 36 characters with hyphens at their places. -/
def dropHyphens? (s : List Char) : Option (List Char) :=
  if s.length = 36 ∧ s[8]? = some '-' ∧ s[13]? = some '-' ∧ s[18]? = some '-' ∧ s[23]? = some '-' then
    some (s.take 8 ++ (s.drop 9).take 4 ++ (s.drop 14).take 4 ++ (s.drop 19).take 4 ++ s.drop 24)
  else none

def ofHyphenated? (s : List Char) : Option Guid := (dropHyphens? s).bind ofDigits?

/-- The mark of the fourth form, in any case. -/
def urnMark : List Char := ['u', 'r', 'n', ':', 'u', 'u', 'i', 'd', ':']

/-- Reads any of the four forms; the length of the text, in bytes, tells them apart. -/
def ofText? (s : List Char) : Option Guid :=
  match Text.utf8Length s with
  | 32 => ofDigits? s
  | 36 => ofHyphenated? s
  | 38 =>
    match s with
    | '{' :: rest => if rest.getLast? = some '}' then ofHyphenated? rest.dropLast else none
    | _ => none
  | 45 => if (s.take 9).map Char.toLower = urnMark then ofHyphenated? (s.drop 9) else none
  | _ => none

end Guid

end TreeSql
