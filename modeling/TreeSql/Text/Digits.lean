/-
  TreeSql.Text.Digits — decimal and hexadecimal digits as characters.

  `numeral` writes a natural number and `digitsValue` reads a run of digits; both work in base
  ten, most significant digit first. `padded` writes at least a given number of digits.
-/
namespace TreeSql.Text

/-- The number that a run of decimal digits spells. -/
def digitsValue (ds : List Char) : Nat :=
  ds.foldl (fun n c => 10 * n + (c.toNat - '0'.toNat)) 0

/-- The decimal digits of a number, without leading zeros; `0` is one digit. -/
def digits (n : Nat) : List Char := Nat.toDigits 10 n

/-- The decimal digits of a number, with zeros in front up to the given width. -/
def padded (width n : Nat) : List Char :=
  List.replicate (width - (digits n).length) '0' ++ digits n

/-- The decimal text of a natural number. -/
def numeral (n : Nat) : String := String.ofList (digits n)

/-- The decimal text of an integer: a minus sign in front of a negative one. -/
def integer (i : Int) : String :=
  if i < 0 then "-" ++ numeral i.natAbs else numeral i.natAbs

/-- `padded` as a string. -/
def paddedNumeral (width n : Nat) : String := String.ofList (padded width n)

/-- The digits at the head of a text. -/
def leadingDigits (s : List Char) : List Char := s.takeWhile Char.isDigit

/-- The text after the digits at its head. -/
def afterDigits (s : List Char) : List Char := s.dropWhile Char.isDigit

/-! ## Hexadecimal -/

/-- The value of a hexadecimal digit of either case. -/
def hexValue? (c : Char) : Option Nat :=
  if '0' ≤ c ∧ c ≤ '9' then some (c.toNat - '0'.toNat)
  else if 'a' ≤ c ∧ c ≤ 'f' then some (c.toNat - 'a'.toNat + 10)
  else if 'A' ≤ c ∧ c ≤ 'F' then some (c.toNat - 'A'.toNat + 10)
  else none

/-- The number that hexadecimal digits spell, if all of them are digits. -/
def hexDigitsValue? (ds : List Char) : Option Nat :=
  ds.foldlM (fun n c => (hexValue? c).map (16 * n + ·)) 0

/-- The lower-case hexadecimal digits of a number, with zeros in front up to the given width. -/
def paddedHex (width n : Nat) : List Char :=
  let ds := Nat.toDigits 16 n
  List.replicate (width - ds.length) '0' ++ ds

end TreeSql.Text
