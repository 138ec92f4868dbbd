import TreeSql.Number.Power
import TreeSql.Text.Digits

/-
  TreeSql.Number.Decimal — decimal numbers with a 96-bit coefficient and up to 28 places.

  The number of places is part of the value (`1.50` is not written `1.5`). `numEq` compares numbers
  without looking at places, and the two zeros are equal. `ofText?` reads plain decimals and
  decimals with an exponent.

  A zero that is spelled out has no sign. What does not fit is rounded at the first digit that is
  left out, a half away from zero; nothing after that digit counts. An underscore right after the
  last place stands for a zero in its stead if the coefficient is short, and for nothing otherwise.
  A negative number that an exponent shifts out of sight stays a negative zero.
-/
namespace TreeSql.Number

/-- All coefficients are below it. -/
def coefficientLimit : Nat := twoTo 96

def maxPlaces : Nat := 28

/-- `± coefficient / 10 ^ places`. -/
structure Decimal where
  negative : Bool
  coefficient : Nat
  places : Nat
  coefficient_lt : coefficient < coefficientLimit
  places_le : places ≤ maxPlaces
deriving DecidableEq

namespace Decimal

/-- The decimal with these parts, if they fit. -/
def make? (negative : Bool) (coefficient places : Nat) : Option Decimal :=
  if h : coefficient < coefficientLimit ∧ places ≤ maxPlaces then
    some ⟨negative, coefficient, places, h.1, h.2⟩
  else none

/-- An integer as a decimal without places. -/
def ofInt? (i : Int) : Option Decimal := make? (decide (i < 0)) i.natAbs 0

def isZero (x : Decimal) : Bool := x.coefficient == 0

/-- Numeric equality, whatever the places. The two zeros are equal. -/
def numEq (x y : Decimal) : Bool :=
  (x.negative == y.negative || x.isZero) &&
    x.coefficient * tenTo y.places == y.coefficient * tenTo x.places

/-- Digits with a point before the last `places` of them. -/
def text (x : Decimal) : String :=
  let ds := Text.padded (x.places + 1) x.coefficient
  let whole := ds.take (ds.length - x.places)
  let fraction := ds.drop (ds.length - x.places)
  String.ofList ((if x.negative then ['-'] else []) ++ whole ++
    (if fraction.isEmpty then [] else '.' :: fraction))

/-! ## Plain decimals -/

/-- A coefficient after the first digit that is left out: from five on it grows by one. One that
    grows too large gives up a place. -/
def roundBy? (digit coefficient places : Nat) : Option (Nat × Nat) :=
  if digit < 5 then some (coefficient, places)
  else if coefficient + 1 < coefficientLimit then some (coefficient + 1, places)
  else match places with
    | 0 => none
    | p + 1 => some ((coefficient + 5) / 10, p)

/-- Coefficients below it are short: they can take another digit within 64 bits, with room to spare. -/
def shortLimit : Nat := UInt64.size / 10 - (UInt8.size - 1)

/-- Whether all places are taken and the coefficient was short before the last one. -/
def endsShort (coefficient places : Nat) : Bool := places == maxPlaces && coefficient / 10 < shortLimit

/-- Whether a text has only digits and underscores. -/
def isDigits (s : List Char) : Bool := s.all fun c => c.isDigit || c == '_'

/-- Reads digits, at most one point, and underscores after the first digit. `pointed` says that the
    point has been read, `started` that a digit has. Once the fraction does not fit any more, the
    next digit rounds and the rest is only checked. -/
def readPlain? : (pointed started : Bool) → (coefficient places : Nat) → List Char → Option (Nat × Nat)
  | _, started, coefficient, places, [] => if started then some (coefficient, places) else none
  | pointed, started, coefficient, places, c :: rest =>
    if c.isDigit then
      let digit := c.toNat - '0'.toNat
      let next := 10 * coefficient + digit
      if next < coefficientLimit && (!pointed || places < maxPlaces) then
        readPlain? pointed true next (if pointed then places + 1 else places) rest
      else if pointed && isDigits rest then roundBy? digit coefficient places
      else none
    else if c == '.' && !pointed then readPlain? true started coefficient places rest
    else if c == '_' && started then
      if !endsShort coefficient places then readPlain? pointed started coefficient places rest
      else if isDigits rest then roundBy? 0 coefficient places
      else none
    else none

/-- The sign at the head of a text and the text after it. -/
def splitSign : List Char → Bool × List Char
  | '-' :: rest => (true, rest)
  | '+' :: rest => (false, rest)
  | s => (false, s)

/-- A decimal without an exponent. -/
def ofPlain? (s : List Char) : Option Decimal := do
  let (negative, s) := splitSign s
  let (coefficient, places) ← readPlain? false false 0 0 s
  make? (negative && coefficient != 0) coefficient places

/-! ## Exponents -/

/-- A coefficient without its last digits, rounded by the first of them. -/
def dropDigits (coefficient : Nat) : (count : Nat) → Nat
  | 0 => coefficient
  | count + 1 =>
    let kept := coefficient / tenTo count
    kept / 10 + (if kept % 10 < 5 then 0 else 1)

/-- A decimal divided by a power of ten. Digits beyond the last place are rounded away. -/
def shiftDown? (x : Decimal) (power : Nat) : Option Decimal :=
  if maxPlaces < power then none
  else if x.places + power ≤ maxPlaces then make? x.negative x.coefficient (x.places + power)
  else make? x.negative (dropDigits x.coefficient (x.places + power - maxPlaces)) maxPlaces

/-- A decimal times a power of ten, which uses up the places first. -/
def shiftUp? (x : Decimal) (power : Nat) : Option Decimal :=
  if power ≤ x.places then make? x.negative x.coefficient (x.places - power)
  else if maxPlaces < power then none
  else make? x.negative (x.coefficient * tenTo (power - x.places)) 0

/-- A natural number below `2 ^ 32`, with an optional plus sign. -/
def readExponent? (s : List Char) : Option Nat :=
  let ds := match s with
    | '+' :: rest => rest
    | s => s
  if ds.isEmpty || !ds.all Char.isDigit then none
  else
    let n := Text.digitsValue ds
    if n < UInt32.size then some n else none

/-- A decimal with an exponent after `e` or `E`. -/
def ofScientific? (s : List Char) : Option Decimal := do
  let notMark := fun c => c != 'e' && c != 'E'
  let base ← ofPlain? (s.takeWhile notMark)
  match s.dropWhile notMark with
  | [] => none
  | _ :: '-' :: exponent => base.shiftDown? (← readExponent? exponent)
  | _ :: exponent => base.shiftUp? (← readExponent? exponent)

/-- Reads a decimal with or without an exponent. -/
def ofText? (s : List Char) : Option Decimal := ofPlain? s <|> ofScientific? s

end Decimal

end TreeSql.Number
