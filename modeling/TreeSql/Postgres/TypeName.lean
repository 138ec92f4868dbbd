import TreeSql.Error
import TreeSql.Text.Blank
import TreeSql.Text.Digits

/-
  TreeSql.Postgres.TypeName — the grammar of type names with arguments.

  A type name is one or more words, then at most one list of numbers in parentheses, then further
  words: `timestamp(3) with time zone`. Blanks may stand before every word, number and mark. Words
  are letters, digits and underscores of ASCII; numbers are below `2 ^ 32`.
-/
namespace TreeSql.Postgres.TypeName

def isWordChar (c : Char) : Bool :=
  ('a' ≤ c && c ≤ 'z') || ('A' ≤ c && c ≤ 'Z') || ('0' ≤ c && c ≤ '9') || c == '_'

/-- A word after blanks, and the rest. -/
def readWord? (s : List Char) : Option (List Char × List Char) :=
  let s := Text.skipTokenBlanks s
  let word := s.takeWhile isWordChar
  if word.isEmpty then none else some (word, s.dropWhile isWordChar)

/-- As many words as there are, at most `fuel`, and the rest. -/
def readWords : (fuel : Nat) → List Char → List (List Char) × List Char
  | 0, s => ([], s)
  | fuel + 1, s =>
    match readWord? s with
    | none => ([], s)
    | some (word, rest) =>
      let (words, rest) := readWords fuel rest
      (word :: words, rest)

/-- A number after blanks, and the rest. -/
def readNumber? (s : List Char) : Option (UInt32 × List Char) :=
  let s := Text.skipTokenBlanks s
  let ds := Text.leadingDigits s
  let n := Text.digitsValue ds
  if ds.isEmpty || UInt32.size ≤ n then none else some (UInt32.ofNat n, Text.afterDigits s)

/-- A mark after blanks: the rest. -/
def readMark? (mark : Char) (s : List Char) : Option (List Char) :=
  match Text.skipTokenBlanks s with
  | c :: rest => if c = mark then some rest else none
  | [] => none

/-- Numbers, each after a comma, at most `fuel`, and the rest. A comma without a number after it is
    left in the rest. -/
def readMoreNumbers : (fuel : Nat) → List Char → List UInt32 × List Char
  | 0, s => ([], s)
  | fuel + 1, s =>
    match (readMark? ',' s).bind readNumber? with
    | none => ([], s)
    | some (n, rest) =>
      let (ns, rest) := readMoreNumbers fuel rest
      (n :: ns, rest)

/-- One or more numbers in parentheses, and the rest. -/
def readArgs? (s : List Char) : Option (List UInt32 × List Char) := do
  let s ← readMark? '(' s
  let (n, s) ← readNumber? s
  let (ns, s) := readMoreNumbers s.length s
  let s ← readMark? ')' s
  some (n :: ns, s)

/-- ASCII letters in lower case. -/
def lower (s : List Char) : List Char := s.map Char.toLower

/-- The words of a name, in lower case and with single spaces, and its arguments. -/
def parse (s : String) : Except Error (String × List UInt32) :=
  let input := s.toList
  let (front, rest) := readWords input.length input
  if front.isEmpty then .error (.typeNameExpected s)
  else
    let (args, rest) := (readArgs? rest).getD ([], rest)
    let (back, rest) := readWords rest.length rest
    if (Text.trim rest).isEmpty then
      .ok (" ".intercalate ((front ++ back).map fun w => String.ofList (lower w)), args)
    else
      .error (.trailingInput (Text.utf8Length input - Text.utf8Length rest)
        (String.ofList (Text.trim rest)))

/-- A type name without the blanks around it, if it follows the grammar; the type need not be
    known. -/
def check (s : String) : Except Error String := do
  let _ ← parse s
  return String.ofList (Text.trim s.toList)

end TreeSql.Postgres.TypeName
