/-
  TreeSql.Text.Blank — the two classes of white space that readers of this library skip, and
  trimming by the wider one.

  `isBlank` is Unicode's White_Space property; it is what surrounds a whole text (a type name,
  a server version, a date). `isTokenBlank` is the four characters that may stand between the
  tokens inside a text.
-/
namespace TreeSql.Text

/-- Unicode's White_Space property. -/
def isBlank (c : Char) : Bool :=
  let n := c.toNat
  (9 ≤ n && n ≤ 13) || n == 0x20 || n == 0x85 || n == 0xA0 || n == 0x1680 ||
    (0x2000 ≤ n && n ≤ 0x200A) || n == 0x2028 || n == 0x2029 || n == 0x202F || n == 0x205F ||
    n == 0x3000

/-- Space, tab, carriage return and line feed. -/
def isTokenBlank (c : Char) : Bool :=
  c == ' ' || c == '\t' || c == '\r' || c == '\n'

theorem isBlank_of_isTokenBlank {c : Char} (h : isTokenBlank c = true) : isBlank c = true := by
  simp only [isTokenBlank, Bool.or_eq_true, beq_iff_eq] at h
  rcases h with ((rfl | rfl) | rfl) | rfl <;> decide

/-! ## Trimming -/

/-- The text from its first character that is not blank. -/
def trimStart (s : List Char) : List Char := s.dropWhile isBlank

/-- The text up to its last character that is not blank. -/
def trimEnd (s : List Char) : List Char := (s.reverse.dropWhile isBlank).reverse

/-- The text without blanks at either end. -/
def trim (s : List Char) : List Char := trimEnd (trimStart s)

/-- The text after its leading token blanks. -/
def skipTokenBlanks (s : List Char) : List Char := s.dropWhile isTokenBlank

/-- Length in bytes of the UTF-8 form; positions in error messages count these. -/
def utf8Length (s : List Char) : Nat := s.foldl (fun n c => n + c.utf8Size) 0

end TreeSql.Text
