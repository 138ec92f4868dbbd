import TreeSql.Number.Binary
import TreeSql.Text.Digits

/-
  TreeSql.Number.Shortest — the decimal text of a binary floating-point number.

  `shortest` is the decimal with the fewest digits among those that read back as the given
  magnitude, and of these the nearest to it. Two of them can be equally near; a `Tie` says which
  one counts. `Binary.text` takes the larger and writes it without an exponent.

  A decimal reads back exactly when it lies between the midpoints to the two neighbours; a
  midpoint itself belongs to the number with the even significand. On each grid of decimals with
  a given digit count only the two neighbours of the number can be the nearest, so these are
  tried, coarsest grid first.
-/
namespace TreeSql.Number

/-- The choice between two equally near decimals. -/
inductive Tie where
  | larger
  | even

/-- The real interval that rounds to a finite magnitude, with the magnitude itself, over one
    denominator. -/
structure ReadBack where
  low : Nat
  value : Nat
  high : Nat
  denominator : Nat
  /-- Whether the two ends belong to it. -/
  closed : Bool

/-- The interval of a positive finite code. Below a power of two the neighbour is half as far. -/
def BinaryFormat.readBack (f : BinaryFormat) (code : Nat) : ReadBack :=
  let (m, e) := f.decode code
  let narrow := m = twoTo f.fractionBits ∧ f.minExponent < e
  let low := if narrow then 4 * m - 1 else 4 * m - 2
  let up := fun n => (scaleRatio n 1 (e - 2)).1
  { low := up low, value := up (4 * m), high := up (4 * m + 2),
    denominator := (scaleRatio 1 1 (e - 2)).2, closed := m % 2 = 0 }

namespace ReadBack

/-- `digits * 10 ^ exponent` as a multiple of `1 / denominator`, times a power of ten, with that
    power. -/
def scaled (r : ReadBack) (digits : Nat) (exponent : Int) : Nat × Nat :=
  if exponent < 0 then (digits * r.denominator, tenTo exponent.natAbs)
  else (digits * tenTo exponent.natAbs * r.denominator, 1)

/-- Whether `digits * 10 ^ exponent` reads back. -/
def holds (r : ReadBack) (digits : Nat) (exponent : Int) : Bool :=
  let (x, s) := r.scaled digits exponent
  if r.closed then r.low * s ≤ x && x ≤ r.high * s else r.low * s < x && x < r.high * s

/-- The largest multiple of `10 ^ exponent` that is not above the value. -/
def floorAt (r : ReadBack) (exponent : Int) : Nat :=
  if exponent < 0 then r.value * tenTo exponent.natAbs / r.denominator
  else r.value / (r.denominator * tenTo exponent.natAbs)

/-- The number `k` with `10 ^ (k - 1) ≤ value < 10 ^ k`. -/
def magnitude (r : ReadBack) : Int :=
  if r.denominator ≤ r.value then (Text.digits (r.value / r.denominator)).length
  else
    let d := (Text.digits (r.denominator / r.value)).length
    if r.denominator ≤ r.value * tenTo (d - 1) then 2 - d else 1 - d

/-- Whether the upper neighbour is nearer to the value than the lower one, or wins the tie. -/
def prefersUpper (r : ReadBack) (tie : Tie) (lower : Nat) (exponent : Int) : Bool :=
  let (middle, s) := r.scaled (2 * lower + 1) exponent
  let value := 2 * r.value * s
  middle < value || (middle == value && match tie with
    | .larger => true
    | .even => lower % 2 == 1)

/-- The decimal on the grid of `10 ^ exponent` that reads back, nearest first. -/
def onGrid? (r : ReadBack) (tie : Tie) (exponent : Int) : Option Nat :=
  let lower := r.floorAt exponent
  match r.holds lower exponent, r.holds (lower + 1) exponent with
  | true, true => some (if r.prefersUpper tie lower exponent then lower + 1 else lower)
  | true, false => some lower
  | false, true => some (lower + 1)
  | false, false => none

/-- The first grid with a decimal that reads back, among `fuel` grids from `exponent` down; each is
    ten times finer than the one before. -/
def search (r : ReadBack) (tie : Tie) : Nat → Int → Nat × Int
  | 0, exponent => (r.floorAt exponent, exponent)
  | fuel + 1, exponent =>
    match r.onGrid? tie exponent with
    | some digits => (digits, exponent)
    | none => r.search tie fuel (exponent - 1)

end ReadBack

/-- Digits and exponent of the shortest decimal of a positive finite code. Seventeen digits always
    suffice for the formats of this library. -/
def BinaryFormat.shortest (f : BinaryFormat) (tie : Tie) (code : Nat) : Nat × Int :=
  let r := f.readBack code
  r.search tie 17 (r.magnitude - 1)

/-! ## Positional text -/

/-- Digits without the zeros at their end. -/
def dropTrailingZeros (ds : List Char) : List Char :=
  (ds.reverse.dropWhile (· == '0')).reverse

/-- `digits * 10 ^ exponent` without an exponent and without zeros after the last place. -/
def positional (digits : Nat) (exponent : Int) : List Char :=
  if exponent < 0 then
    let places := exponent.natAbs
    let ds := Text.padded (places + 1) digits
    let whole := ds.take (ds.length - places)
    match dropTrailingZeros (ds.drop (ds.length - places)) with
    | [] => whole
    | fraction => whole ++ '.' :: fraction
  else Text.digits (digits * tenTo exponent.natAbs)

/-- The text of a number: the shortest digits that read back, in positional form. -/
def Binary.text {f : BinaryFormat} (x : Binary f) : String :=
  if x.isNaN then "NaN"
  else
    let sign := if x.negative then "-" else ""
    if x.isInfinite then sign ++ "inf"
    else if x.isZero then sign ++ "0"
    else
      let (digits, exponent) := f.shortest .larger x.code
      sign ++ String.ofList (positional digits exponent)

end TreeSql.Number
