import TreeSql.Text.Digits

/-
  TreeSql.Json.Basic — JSON values, with scalars as they are written.

  Numbers and strings keep the characters of their tokens: what a number or an escape means is
  decided by whoever reads the value. Fields keep their order, and names may repeat. `escape` and
  `unescape?` convert between text and the characters between two quotes.
-/
namespace TreeSql

inductive Json where
  | null
  | bool (b : Bool)
  /-- The token of a number. -/
  | number (token : List Char)
  /-- What stands between the quotes. -/
  | string (escaped : List Char)
  | array (items : List Json)
  /-- Names are given as they stand between the quotes. -/
  | object (fields : List (List Char × Json))

namespace Json

/-! ## Escapes -/

/-- Characters with an escape of one letter. -/
def letterEscapes : List (Char × Char) :=
  [('"', '"'), ('\\', '\\'), ('\x08', 'b'), ('\x0c', 'f'), ('\n', 'n'), ('\r', 'r'), ('\t', 't')]

/-- A character between quotes: quotes, backslashes and control characters are escaped. -/
def escapeChar (c : Char) : List Char :=
  match letterEscapes.lookup c with
  | some letter => ['\\', letter]
  | none => if c.toNat < 32 then '\\' :: 'u' :: Text.paddedHex 4 c.toNat else [c]

def escape (s : List Char) : List Char := s.flatMap escapeChar

/-- The character that a letter after a backslash stands for. -/
def letter? : Char → Option Char
  | '"' => some '"'
  | '\\' => some '\\'
  | '/' => some '/'
  | 'b' => some '\x08'
  | 'f' => some '\x0c'
  | 'n' => some '\n'
  | 'r' => some '\r'
  | 't' => some '\t'
  | _ => none

/-- The character of a code point that is no surrogate. -/
def scalar? (n : Nat) : Option Char :=
  if n.isValidChar then some (Char.ofNat n) else none

/-- The character of a pair of surrogates. -/
def surrogatePair? (high low : Nat) : Option Char :=
  if 0xD800 ≤ high ∧ high < 0xDC00 ∧ 0xDC00 ≤ low ∧ low < 0xE000 then
    scalar? (0x10000 + (high - 0xD800) * 0x400 + (low - 0xDC00))
  else none

/-- The text that is written with escapes. Characters outside the basic plane may be escaped as two
    surrogates; a surrogate that stands alone is not text. -/
def unescape? : List Char → Option (List Char)
  | [] => some []
  | '\\' :: 'u' :: a :: b :: c :: d :: rest => do
    let unit ← Text.hexDigitsValue? [a, b, c, d]
    match scalar? unit with
    | some char => return char :: (← unescape? rest)
    | none =>
      match rest with
      | '\\' :: 'u' :: e :: f :: g :: h :: rest => do
        let char ← surrogatePair? unit (← Text.hexDigitsValue? [e, f, g, h])
        return char :: (← unescape? rest)
      | _ => none
  | '\\' :: letter :: rest => do return (← letter? letter) :: (← unescape? rest)
  | ['\\'] => none
  | c :: rest => (unescape? rest).map (c :: ·)

/-! ## Values of other types -/

def ofString (s : String) : Json := string (escape s.toList)

def ofNat (n : Nat) : Json := number (Text.digits n)

def ofInt (i : Int) : Json := number (Text.integer i).toList

def ofOption {α : Type} (f : α → Json) : Option α → Json
  | none => null
  | some a => f a

/-- An object whose names need no escapes. -/
def record (fields : List (String × Json)) : Json := object (fields.map fun f => (f.1.toList, f.2))

/-- A value under the name of its variant. -/
def variant (name : String) (content : Json) : Json := record [(name, content)]

/-- The text of a string. -/
def string? : Json → Option String
  | string escaped => (unescape? escaped).map String.ofList
  | _ => none

def items? : Json → Option (List Json)
  | array items => some items
  | _ => none

/-- The first field of a name that needs no escapes. -/
def field? (j : Json) (name : String) : Option Json :=
  match j with
  | object fields => fields.lookup name.toList
  | _ => none

end Json

end TreeSql
