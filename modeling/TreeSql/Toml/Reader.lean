import TreeSql.Toml.Scalar
import TreeSql.Toml.Table

/-
  TreeSql.Toml.Reader — TOML documents.

  A document is a list of lines: definitions of keys, headers, comments and blank lines. Arrays may
  go over several lines, tables in braces may not. `ofText?` gives the entries of the whole
  document, or none where the text is no TOML or defines something twice.
-/
namespace TreeSql.Toml

/-- How deep arrays and tables in braces may nest. -/
def maxNesting : Nat := 79

/-- A key, which may not have too many parts. -/
def readPath? (s : List Char) : Option (List String × List Char) := do
  let (path, rest) ← readKey? s.length s
  if path.length ≤ maxKeyParts then return (path, rest) else none

/-- Skips blanks, line ends and comments between the items of an array. A comment needs the end of
    its line. -/
def skipSpace? : (fuel : Nat) → List Char → Option (List Char)
  | 0, s => some s
  | fuel + 1, s =>
    match skipBlanks s with
    | '#' :: rest => do skipSpace? fuel (← newLine? (rest.dropWhile isPlain))
    | '\n' :: rest => skipSpace? fuel rest
    | '\r' :: rest => do skipSpace? fuel (← newLine? ('\r' :: rest))
    | rest => some rest

/-! ## Values -/

/-- A value without parts. -/
def readScalar? (s : List Char) : Option (Item × List Char) :=
  match s with
  | '"' :: _ | '\'' :: _ => (readString? s).map fun (cs, rest) => (.text (String.ofList cs), rest)
  | 't' :: 'r' :: 'u' :: 'e' :: rest => some (.boolean true, rest)
  | 'f' :: 'a' :: 'l' :: 's' :: 'e' :: rest => some (.boolean false, rest)
  | s =>
    match skipDateTime? s with
    | some rest => some (.other, rest)
    | none => (readNumber? s).map fun (n, rest) =>
      (match n with
        | .integer i => .integer i
        | .float => .other, rest)

mutual

/-- A value, which may have parts down to the given nesting. -/
def readValue? : (nesting fuel : Nat) → List Char → Option (Item × List Char)
  | _, 0, _ => none
  | nesting + 1, fuel + 1, '[' :: rest => do
    let rest ← skipSpace? rest.length rest
    match rest with
    | ']' :: rest => return (.other, rest)
    | rest => return (.other, ← skipItems? nesting fuel rest)
  | nesting + 1, fuel + 1, '\x7b' :: rest => do
    match skipBlanks rest with
    | '\x7d' :: rest => return (.table .inline [], rest)
    | rest => do
      let (entries, rest) ← readPairs? nesting fuel [] rest
      return (.table .inline entries, rest)
  | _, _ + 1, s => readScalar? s

/-- The rest after the items of an array and its end. A comma may stand after the last item. -/
def skipItems? : (nesting fuel : Nat) → List Char → Option (List Char)
  | _, 0, _ => none
  | nesting, fuel + 1, s => do
    let (_, rest) ← readValue? nesting fuel s
    match ← skipSpace? rest.length rest with
    | ']' :: rest => return rest
    | ',' :: rest =>
      match ← skipSpace? rest.length rest with
      | ']' :: rest => return rest
      | rest => skipItems? nesting fuel rest
    | _ => none

/-- The entries of a table in braces, after those that were read already, and its end. -/
def readPairs? : (nesting fuel : Nat) → Entries → List Char → Option (Entries × List Char)
  | _, 0, _, _ => none
  | nesting, fuel + 1, entries, s => do
    let (path, rest) ← readPath? s
    let (item, rest) ← readValue? nesting fuel (skipBlanks (← readMark? '=' rest))
    let entries ← entries.defineAt path item .inline
    match skipBlanks rest with
    | '\x7d' :: rest => return (entries, rest)
    | ',' :: rest => readPairs? nesting fuel entries rest
    | _ => none

end

/-! ## Documents -/

/-- The entries so far and the header that the next definitions stand under. -/
structure Document where
  entries : Entries := []
  header : List String := []

/-- A definition: a key, an equals sign and a value on one line. -/
def readDefinition? (d : Document) (s : List Char) : Option (Document × List Char) := do
  let (path, rest) ← readPath? s
  let value := skipBlanks (← readMark? '=' rest)
  let (item, rest) ← readValue? maxNesting (2 * s.length + 2) value
  return ({ d with entries := ← d.entries.defineUnder d.header path item }, ← endLine? rest)

/-- A header, after its opening bracket. -/
def readHeader? (d : Document) (s : List Char) : Option (Document × List Char) := do
  let (path, rest) ← readPath? s
  let rest ← readMark? ']' rest
  return ({ entries := ← d.entries.openTable path, header := path }, ← endLine? rest)

/-- A header in double brackets, after the opening ones. -/
def readNextHeader? (d : Document) (s : List Char) : Option (Document × List Char) := do
  let (path, rest) ← readPath? s
  let rest ← readMark? ']' (← readMark? ']' rest)
  return ({ entries := ← d.entries.openNext path, header := path }, ← endLine? rest)

/-- Reads lines to the end of the text. -/
def readDocument? : (fuel : Nat) → Document → List Char → Option Entries
  | 0, _, _ => none
  | fuel + 1, d, s =>
    match skipBlanks s with
    | [] => some d.entries
    | '#' :: rest => do readDocument? fuel d (← endLine? ('#' :: rest))
    | '\n' :: rest => readDocument? fuel d rest
    | '\r' :: rest => do readDocument? fuel d (← newLine? ('\r' :: rest))
    | '[' :: '[' :: rest => do
      let (d, rest) ← readNextHeader? d rest
      readDocument? fuel d rest
    | '[' :: rest => do
      let (d, rest) ← readHeader? d rest
      readDocument? fuel d rest
    | s => do
      let (d, rest) ← readDefinition? d s
      readDocument? fuel d rest

/-- The text without a byte order mark at its head. -/
def skipMark : List Char → List Char
  | '\ufeff' :: rest => rest
  | s => s

/-- The entries of a document. Every line takes at least one character. -/
def ofText? (s : List Char) : Option Entries := readDocument? (s.length + 1) {} (skipMark s)

end TreeSql.Toml
