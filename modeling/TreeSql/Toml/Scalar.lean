import TreeSql.Number.Binary
import TreeSql.Text.Digits
import TreeSql.Value.Timestamp

/-
  TreeSql.Toml.Scalar — strings, numbers, dates and keys of TOML.

  Each reader takes its token from the head of the text and gives the rest. Whether the rest may
  follow is for the caller to say.
-/
namespace TreeSql.Toml

/-! ## Characters and blanks -/

/-- A tab or any character that is not a control character. -/
def isPlain (c : Char) : Bool := c == '\t' || (32 ≤ c.toNat && c.toNat != 127)

def isBlank (c : Char) : Bool := c == ' ' || c == '\t'

def skipBlanks (s : List Char) : List Char := s.dropWhile isBlank

/-- The text after a line end. -/
def newLine? : List Char → Option (List Char)
  | '\n' :: rest => some rest
  | '\r' :: '\n' :: rest => some rest
  | _ => none

/-- The text after a comment, if one begins here. -/
def skipComment : List Char → List Char
  | '#' :: rest => rest.dropWhile isPlain
  | s => s

/-- The rest after blanks, an optional comment and the end of the line. -/
def endLine? (s : List Char) : Option (List Char) :=
  match skipComment (skipBlanks s) with
  | [] => some []
  | rest => newLine? rest

/-! ## Strings -/

/-- The character that a letter after a backslash stands for. -/
def letter? : Char → Option Char
  | 'b' => some '\x08'
  | 't' => some '\t'
  | 'n' => some '\n'
  | 'f' => some '\x0c'
  | 'r' => some '\r'
  | '"' => some '"'
  | '\\' => some '\\'
  | _ => none

/-- The character of a code point in hexadecimal. -/
def codePoint? (ds : List Char) : Option Char := do
  let n ← Text.hexDigitsValue? ds
  if n.isValidChar then some (Char.ofNat n) else none

/-- Puts a character before what a reader gives. -/
def before (c : Char) (read : Option (List Char × List Char)) : Option (List Char × List Char) :=
  read.map fun (cs, rest) => (c :: cs, rest)

/-- A string on one line, after the opening quote. -/
def readBasic? : List Char → Option (List Char × List Char)
  | '"' :: rest => some ([], rest)
  | '\\' :: 'u' :: a :: b :: c :: d :: rest => do
    before (← codePoint? [a, b, c, d]) (readBasic? rest)
  | '\\' :: 'U' :: a :: b :: c :: d :: e :: f :: g :: h :: rest => do
    before (← codePoint? [a, b, c, d, e, f, g, h]) (readBasic? rest)
  | '\\' :: c :: rest => do before (← letter? c) (readBasic? rest)
  | c :: rest => if isPlain c && c != '\\' then before c (readBasic? rest) else none
  | [] => none

/-- A string over several lines, after the opening quotes. After a backslash at the end of a line,
    blanks and line ends are skipped (`skipping`). Up to two quotes may stand before the closing
    ones. -/
def readLines? : (skipping : Bool) → List Char → Option (List Char × List Char)
  | _, '"' :: '"' :: '"' :: '"' :: '"' :: rest => some (['"', '"'], rest)
  | _, '"' :: '"' :: '"' :: '"' :: rest => some (['"'], rest)
  | _, '"' :: '"' :: '"' :: rest => some ([], rest)
  | _, '\\' :: 'u' :: a :: b :: c :: d :: rest => do
    before (← codePoint? [a, b, c, d]) (readLines? false rest)
  | _, '\\' :: 'U' :: a :: b :: c :: d :: e :: f :: g :: h :: rest => do
    before (← codePoint? [a, b, c, d, e, f, g, h]) (readLines? false rest)
  | _, '\\' :: c :: rest =>
    match letter? c with
    | some letter => before letter (readLines? false rest)
    | none => if (newLine? (skipBlanks (c :: rest))).isSome then readLines? true rest else none
  | skipping, '\r' :: '\n' :: rest =>
    if skipping then readLines? true rest else before '\n' (readLines? false rest)
  | skipping, c :: rest =>
    if skipping && (isBlank c || c == '\n') then readLines? true rest
    else if (isPlain c && c != '\\') || c == '\n' then before c (readLines? false rest)
    else none
  | _, [] => none

/-- A string without escapes on one line, after the opening quote. -/
def readLiteral? : List Char → Option (List Char × List Char)
  | '\'' :: rest => some ([], rest)
  | c :: rest => if isPlain c then before c (readLiteral? rest) else none
  | [] => none

/-- A string without escapes over several lines, after the opening quotes. -/
def readLiteralLines? : List Char → Option (List Char × List Char)
  | '\'' :: '\'' :: '\'' :: '\'' :: '\'' :: rest => some (['\'', '\''], rest)
  | '\'' :: '\'' :: '\'' :: '\'' :: rest => some (['\''], rest)
  | '\'' :: '\'' :: '\'' :: rest => some ([], rest)
  | '\r' :: '\n' :: rest => before '\n' (readLiteralLines? rest)
  | c :: rest => if isPlain c || c == '\n' then before c (readLiteralLines? rest) else none
  | [] => none

/-- The text without a line end at its head. -/
def skipFirstLineEnd (s : List Char) : List Char := (newLine? s).getD s

/-- A string of any of the four forms. -/
def readString? : List Char → Option (List Char × List Char)
  | '"' :: '"' :: '"' :: rest => readLines? false (skipFirstLineEnd rest)
  | '"' :: rest => readBasic? rest
  | '\'' :: '\'' :: '\'' :: rest => readLiteralLines? (skipFirstLineEnd rest)
  | '\'' :: rest => readLiteral? rest
  | _ => none

/-! ## Keys -/

def isKeyChar (c : Char) : Bool := c.isAlphanum || c == '-' || c == '_'

/-- One part of a key. -/
def readKeyPart? : List Char → Option (String × List Char)
  | '"' :: rest => (readBasic? rest).map fun (cs, rest) => (String.ofList cs, rest)
  | '\'' :: rest => (readLiteral? rest).map fun (cs, rest) => (String.ofList cs, rest)
  | s =>
    match s.takeWhile isKeyChar with
    | [] => none
    | cs => some (String.ofList cs, s.dropWhile isKeyChar)

/-- A key: parts with points between them. The rest has no blanks at its head. -/
def readKey? : (fuel : Nat) → List Char → Option (List String × List Char)
  | 0, _ => none
  | fuel + 1, s => do
    let (part, rest) ← readKeyPart? (skipBlanks s)
    match skipBlanks rest with
    | '.' :: rest => do
      let (parts, rest) ← readKey? fuel rest
      return (part :: parts, rest)
    | rest => return ([part], rest)

/-- The most parts that a key may have. -/
def maxKeyParts : Nat := 79

/-! ## Numbers -/

/-- The digits that follow a digit, each with an underscore before it or without one. -/
def readMoreDigits? (isDigit : Char → Bool) : List Char → Option (List Char × List Char)
  | '_' :: c :: rest => if isDigit c then before c (readMoreDigits? isDigit rest) else none
  | ['_'] => none
  | c :: rest =>
    if isDigit c then before c (readMoreDigits? isDigit rest) else some ([], c :: rest)
  | [] => some ([], [])

/-- One or more digits, without the underscores between them. -/
def readDigits? (isDigit : Char → Bool) : List Char → Option (List Char × List Char)
  | c :: rest => if isDigit c then before c (readMoreDigits? isDigit rest) else none
  | [] => none

/-- Digits without a zero at their head, unless it is the only one. -/
def readWhole? : List Char → Option (List Char × List Char)
  | '0' :: rest => some (['0'], rest)
  | s => readDigits? Char.isDigit s

/-- A sign, or none, and the rest. -/
def splitSign : List Char → Bool × List Char
  | '-' :: rest => (true, rest)
  | '+' :: rest => (false, rest)
  | s => (false, s)

/-- A point with digits, or nothing. -/
def readFraction? : List Char → Option (List Char × List Char)
  | '.' :: rest => readDigits? Char.isDigit rest
  | s => some ([], s)

/-- The value of an exponent, if there is one. -/
def readExponent? (s : List Char) : Option (Option Int × List Char) :=
  match s with
  | c :: rest =>
    if c == 'e' || c == 'E' then
      let (negative, rest) := splitSign rest
      (readDigits? Char.isDigit rest).map fun (ds, rest) =>
        (some (if negative then -(Text.digitsValue ds : Int) else Text.digitsValue ds), rest)
    else some (none, s)
  | [] => some (none, s)

/-- What a number is. -/
inductive Numeral where
  | integer (i : Int)
  | float

/-- An integer of 64 bits. -/
def integer? (i : Int) : Option Numeral :=
  if Int64.minValue.toInt ≤ i ∧ i ≤ Int64.maxValue.toInt then some (.integer i) else none

/-- A number in base ten. A float above all doubles is refused. -/
def readDecimal? (s : List Char) : Option (Numeral × List Char) := do
  let (negative, s) := splitSign s
  let (whole, s) ← readWhole? s
  let (fraction, s) ← readFraction? s
  let (exponent, s) ← readExponent? s
  match fraction, exponent with
  | [], none =>
    let n : Int := Text.digitsValue whole
    return (← integer? (if negative then -n else n), s)
  | fraction, exponent =>
    let x : Number.Double := .ofScientific .double negative (Text.digitsValue (whole ++ fraction))
      (exponent.getD 0 - fraction.length)
    if x.isInfinite && !negative then none else return (.float, s)

/-- An integer in base two, eight or sixteen. -/
def readInBase? (base : Nat) (s : List Char) : Option (Numeral × List Char) := do
  let isDigit := fun c => (Text.hexValue? c).any (· < base)
  let (ds, rest) ← readDigits? isDigit s
  let n := ds.foldl (fun n c => base * n + (Text.hexValue? c).getD 0) 0
  return (← integer? n, rest)

/-- Infinity or not a number, with an optional sign. -/
def readSpecial? (s : List Char) : Option (Numeral × List Char) :=
  match (splitSign s).2 with
  | 'i' :: 'n' :: 'f' :: rest => some (.float, rest)
  | 'n' :: 'a' :: 'n' :: rest => some (.float, rest)
  | _ => none

def readNumber? : List Char → Option (Numeral × List Char)
  | '0' :: 'x' :: rest => readInBase? 16 rest
  | '0' :: 'o' :: rest => readInBase? 8 rest
  | '0' :: 'b' :: rest => readInBase? 2 rest
  | s => readSpecial? s <|> readDecimal? s

/-! ## Dates and times -/

/-- A number of two digits, up to a bound. -/
def readTwo? (high : Nat) : List Char → Option (Nat × List Char)
  | a :: b :: rest =>
    if a.isDigit && b.isDigit && Text.digitsValue [a, b] ≤ high then
      some (Text.digitsValue [a, b], rest)
    else none
  | _ => none

/-- The text after a mark. -/
def readMark? (mark : Char) : List Char → Option (List Char)
  | c :: rest => if c == mark then some rest else none
  | [] => none

/-- The rest after a date. -/
def skipDate? (s : List Char) : Option (List Char) := do
  let year := s.take 4
  if year.length != 4 || !year.all Char.isDigit then none
  let (month, s) ← readTwo? 12 (← readMark? '-' (s.drop 4))
  let (day, s) ← readTwo? 31 (← readMark? '-' s)
  if 1 ≤ month ∧ 1 ≤ day ∧ day ≤ daysInMonth (Text.digitsValue year) month then some s else none

/-- The rest after a fraction of a second, if there is one. -/
def skipSecondFraction (s : List Char) : List Char :=
  match s with
  | '.' :: d :: rest => if d.isDigit then Text.afterDigits rest else s
  | s => s

/-- The rest after a time of day. -/
def skipTime? (s : List Char) : Option (List Char) := do
  let (_, s) ← readTwo? 23 s
  let (_, s) ← readTwo? 59 (← readMark? ':' s)
  let (_, s) ← readTwo? 60 (← readMark? ':' s)
  return skipSecondFraction s

/-- The rest after an offset from UTC, if there is one. -/
def skipOffset (s : List Char) : List Char :=
  match s with
  | c :: rest =>
    if c == 'Z' || c == 'z' then rest
    else if c == '+' || c == '-' then
      ((do
        let (_, s) ← readTwo? 23 rest
        let (_, s) ← readTwo? 59 (← readMark? ':' s)
        return s : Option (List Char))).getD s
    else s
  | [] => []

/-- The rest after a date, a time, or both. -/
def skipDateTime? (s : List Char) : Option (List Char) :=
  match skipDate? s with
  | none => skipTime? s
  | some rest =>
    match rest with
    | c :: time =>
      if c == 'T' || c == 't' || c == ' ' then
        match skipTime? time with
        | some rest => some (skipOffset rest)
        | none => some rest
      else some rest
    | [] => some []

end TreeSql.Toml
