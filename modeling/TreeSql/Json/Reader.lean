import TreeSql.Json.Basic
import TreeSql.Text.Blank

/-
  TreeSql.Json.Reader — reading JSON text.

  Blanks are space, tab, carriage return and line feed. Numbers have no leading zeros, strings no
  control characters. Values may nest to any depth, and nothing may follow a value but blanks.
  Each reader gives what it read and the rest of the text.
-/
namespace TreeSql.Json

/-! ## Scalars -/

/-- One or more digits, and the rest. -/
def splitDigits? (s : List Char) : Option (List Char × List Char) :=
  match Text.leadingDigits s with
  | [] => none
  | ds => some (ds, Text.afterDigits s)

/-- The digits before the point: a zero stands alone. -/
def readWhole? : List Char → Option (List Char × List Char)
  | '0' :: rest => if (Text.leadingDigits rest).isEmpty then some (['0'], rest) else none
  | s => splitDigits? s

/-- A point with digits, or nothing. -/
def readFraction? : List Char → Option (List Char × List Char)
  | '.' :: rest => (splitDigits? rest).map fun (ds, rest) => ('.' :: ds, rest)
  | s => some ([], s)

/-- The digits of an exponent with an optional sign. -/
def readExponentDigits? : List Char → Option (List Char × List Char)
  | '+' :: rest => (splitDigits? rest).map fun (ds, rest) => ('+' :: ds, rest)
  | '-' :: rest => (splitDigits? rest).map fun (ds, rest) => ('-' :: ds, rest)
  | s => splitDigits? s

/-- An exponent, or nothing. -/
def readExponent? : List Char → Option (List Char × List Char)
  | 'e' :: rest => (readExponentDigits? rest).map fun (ds, rest) => ('e' :: ds, rest)
  | 'E' :: rest => (readExponentDigits? rest).map fun (ds, rest) => ('E' :: ds, rest)
  | s => some ([], s)

/-- A number without a sign. -/
def readUnsigned? (s : List Char) : Option (List Char × List Char) := do
  let (whole, s) ← readWhole? s
  let (fraction, s) ← readFraction? s
  let (exponent, s) ← readExponent? s
  return (whole ++ fraction ++ exponent, s)

def readNumber? : List Char → Option (List Char × List Char)
  | '-' :: rest => (readUnsigned? rest).map fun (token, rest) => ('-' :: token, rest)
  | s => readUnsigned? s

/-- The characters up to the closing quote, escapes as they are written. -/
def readQuoted? : List Char → Option (List Char × List Char)
  | '"' :: rest => some ([], rest)
  | '\\' :: 'u' :: a :: b :: c :: d :: rest => do
    let _ ← Text.hexDigitsValue? [a, b, c, d]
    let (escaped, rest) ← readQuoted? rest
    return ('\\' :: 'u' :: a :: b :: c :: d :: escaped, rest)
  | '\\' :: letter :: rest => do
    let _ ← letter? letter
    let (escaped, rest) ← readQuoted? rest
    return ('\\' :: letter :: escaped, rest)
  | c :: rest =>
    if c.toNat < 32 then none
    else (readQuoted? rest).map fun (escaped, rest) => (c :: escaped, rest)
  | [] => none

/-! ## Values -/

mutual

/-- A value after blanks. -/
def readValue? : (fuel : Nat) → List Char → Option (Json × List Char)
  | 0, _ => none
  | fuel + 1, s =>
    match Text.skipTokenBlanks s with
    | 'n' :: 'u' :: 'l' :: 'l' :: rest => some (null, rest)
    | 't' :: 'r' :: 'u' :: 'e' :: rest => some (bool true, rest)
    | 'f' :: 'a' :: 'l' :: 's' :: 'e' :: rest => some (bool false, rest)
    | '"' :: rest => (readQuoted? rest).map fun (escaped, rest) => (string escaped, rest)
    | '[' :: rest =>
      match Text.skipTokenBlanks rest with
      | ']' :: rest => some (array [], rest)
      | rest => (readItems? fuel rest).map fun (items, rest) => (array items, rest)
    | '\x7b' :: rest =>
      match Text.skipTokenBlanks rest with
      | '\x7d' :: rest => some (object [], rest)
      | rest => (readFields? fuel rest).map fun (fields, rest) => (object fields, rest)
    | s => (readNumber? s).map fun (token, rest) => (number token, rest)

/-- The items of an array from the next one on, and its end. -/
def readItems? : (fuel : Nat) → List Char → Option (List Json × List Char)
  | 0, _ => none
  | fuel + 1, s => do
    let (item, rest) ← readValue? fuel s
    match Text.skipTokenBlanks rest with
    | ']' :: rest => return ([item], rest)
    | ',' :: rest => do
      let (items, rest) ← readItems? fuel rest
      return (item :: items, rest)
    | _ => none

/-- The fields of an object from the next one on, and its end. -/
def readFields? : (fuel : Nat) → List Char → Option (List (List Char × Json) × List Char)
  | 0, _ => none
  | fuel + 1, s => do
    match Text.skipTokenBlanks s with
    | '"' :: rest => do
      let (name, rest) ← readQuoted? rest
      match Text.skipTokenBlanks rest with
      | ':' :: rest => do
        let (value, rest) ← readValue? fuel rest
        match Text.skipTokenBlanks rest with
        | '\x7d' :: rest => return ([(name, value)], rest)
        | ',' :: rest => do
          let (fields, rest) ← readFields? fuel rest
          return ((name, value) :: fields, rest)
        | _ => none
      | _ => none
    | _ => none

end

/-- The value that a text holds. Every reader takes at least one character from the text or hands it
    on to one that does, so twice the length is enough fuel. -/
def ofText? (s : List Char) : Option Json := do
  let (value, rest) ← readValue? (2 * s.length + 2) s
  if (Text.skipTokenBlanks rest).isEmpty then return value else none

end TreeSql.Json
