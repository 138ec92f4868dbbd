import TreeSql.Json.Basic
import TreeSql.Number.Shortest

/-
  TreeSql.Json.Float — floating-point numbers in JSON.

  Reading scales a significand of 64 bits by powers of ten in floating-point arithmetic. Each step
  rounds, so the result can be a neighbour of the double that is nearest to the number. Digits beyond
  the significand do not count: in the whole part they only raise the exponent.

  Writing takes the shortest digits that determine the number, a tie between two to the even one.
  Numbers far from one have an exponent, all others a point.
-/
namespace TreeSql.Json

open Number (tenTo BinaryFormat)

/-! ## Significand and exponent -/

/-- Appends digits to a significand as long as it stays below `2 ^ 64`, and says how many were
    taken. -/
def appendDigits (significand : Nat) : List Char → Nat × Nat
  | [] => (significand, 0)
  | c :: rest =>
    let next := 10 * significand + (c.toNat - '0'.toNat)
    if next < UInt64.size then
      let (result, taken) := appendDigits next rest
      (result, taken + 1)
    else (significand, 0)

/-- The exponent after the digits of a token; zero where there is none. -/
def writtenExponent : List Char → Int
  | [] => 0
  | _ :: '-' :: ds => -(Text.digitsValue ds : Int)
  | _ :: '+' :: ds => Text.digitsValue ds
  | _ :: ds => Text.digitsValue ds

/-- Significand and decimal exponent of a token without a sign. -/
def scientific (token : List Char) : Nat × Int :=
  let whole := Text.leadingDigits token
  let (significand, taken) := appendDigits 0 whole
  let (fraction, rest) := match Text.afterDigits token with
    | '.' :: rest => (Text.leadingDigits rest, Text.afterDigits rest)
    | rest => ([], rest)
  let (significand, places) := appendDigits significand fraction
  (significand, (whole.length - taken : Nat) - (places : Int) + writtenExponent rest)

/-! ## Scaling -/

/-- The largest power of ten that is used in one step. -/
def maxPower : Nat := 308

/-- The code of the double nearest to a power of ten. -/
def powerCode (power : Nat) : Nat := BinaryFormat.double.nearest (tenTo power) 1

/-- The code of a magnitude times a power of ten, unless it is beyond all doubles. -/
def scaleUp? (code power : Nat) : Option Nat :=
  if maxPower < power then (if code = 0 then some 0 else none)
  else
    let result := BinaryFormat.double.product code (powerCode power)
    if result < BinaryFormat.double.infinityCode then some result else none

/-- The code of a magnitude divided by a power of ten. Two steps reach below all doubles. -/
def scaleDown (code power : Nat) : Nat :=
  if power ≤ maxPower then BinaryFormat.double.quotient code (powerCode power)
  else if power ≤ 2 * maxPower then
    BinaryFormat.double.quotient (BinaryFormat.double.quotient code (powerCode maxPower))
      (powerCode (power - maxPower))
  else 0

/-- The code of a token without a sign. -/
def magnitudeCode? (token : List Char) : Option Nat :=
  let (significand, exponent) := scientific token
  let code := BinaryFormat.double.nearest significand 1
  if exponent < 0 then some (scaleDown code exponent.natAbs) else scaleUp? code exponent.natAbs

/-- The double of a token; a token beyond all doubles is refused. -/
def double? : List Char → Option Number.Double
  | '-' :: token => (magnitudeCode? token).map (⟨true, ·⟩)
  | token => (magnitudeCode? token).map (⟨false, ·⟩)

/-! ## Writing -/

/-- The least and the greatest exponent of a first digit that is written without an exponent. -/
def pointRange (f : BinaryFormat) : Int × Int :=
  if f.fractionBits ≤ BinaryFormat.single.fractionBits then (-6, 12) else (-5, 15)

/-- Digits with a point after the first, and an exponent. -/
def withExponent (ds : List Char) (exponent : Int) : List Char :=
  ds.take 1 ++ (if ds.length ≤ 1 then [] else '.' :: ds.drop 1) ++ 'e' :: (Text.integer exponent).toList

/-- `digits * 10 ^ exponent` with a point, or with an exponent if its first digit is out of range. -/
def magnitudeToken (range : Int × Int) (digits : Nat) (exponent : Int) : List Char :=
  let ds := Text.digits digits
  let first := exponent + (ds.length - 1 : Nat)
  if range.1 ≤ first ∧ first ≤ range.2 then
    let token := Number.positional digits exponent
    if token.contains '.' then token else token ++ ['.', '0']
  else withExponent (Number.dropTrailingZeros ds) first

/-- A number that is finite; null in place of any other. -/
def ofFloat {f : BinaryFormat} (x : Number.Binary f) : Json :=
  if x.isNaN || x.isInfinite then .null
  else
    let (digits, exponent) := if x.isZero then (0, 0) else f.shortest .even x.code
    .number ((if x.negative then ['-'] else []) ++ magnitudeToken (pointRange f) digits exponent)

end TreeSql.Json
