import TreeSql.Number.Power

/-
  TreeSql.Number.Binary — binary floating-point numbers in exact integer arithmetic.

  A `BinaryFormat` is a width of fraction and exponent; `single` and `double` are the two of the
  value model. A number of a format is a sign and a code: the codes below `infinityCode` are the
  finite magnitudes in increasing order, `infinityCode` is infinity, and all codes above it are
  not numbers. `decode` gives the significand and exponent behind a code, `nearest` the code
  of the magnitude nearest to a ratio (ties to the even code), `product` and `quotient` those
  nearest to the exact results, and `ofScientific` the number nearest to a decimal one.
-/
namespace TreeSql.Number

/-- The widths, in bits, of the fraction and of the exponent. -/
structure BinaryFormat where
  fractionBits : Nat
  exponentBits : Nat

namespace BinaryFormat

def single : BinaryFormat := ⟨23, 8⟩

def double : BinaryFormat := ⟨52, 11⟩

/-- The exponent of the last bit of the smallest magnitudes. -/
def minExponent (f : BinaryFormat) : Int :=
  2 - (twoTo (f.exponentBits - 1) : Int) - (f.fractionBits : Int)

/-- The code of infinity: one more than the code of the largest finite magnitude. -/
def infinityCode (f : BinaryFormat) : Nat := (twoTo f.exponentBits - 1) * twoTo f.fractionBits

/-- Significand and exponent of a finite code. -/
def decode (f : BinaryFormat) (code : Nat) : Nat × Int :=
  let e := code / twoTo f.fractionBits
  let fraction := code % twoTo f.fractionBits
  if e = 0 then (fraction, f.minExponent)
  else (fraction + twoTo f.fractionBits, f.minExponent + (e - 1 : Nat))

end BinaryFormat

/-- The quotient rounded to the nearest natural number, a half to the even one. -/
def divNearest (n d : Nat) : Nat :=
  let q := n / d
  let r := n % d
  if 2 * r < d then q else if 2 * r > d then q + 1 else q + q % 2

/-- `n / d` scaled by a power of two, as a numerator and a denominator. -/
def scaleRatio (n d : Nat) (exponent : Int) : Nat × Nat :=
  if exponent < 0 then (n, d * twoTo exponent.natAbs) else (n * twoTo exponent.natAbs, d)

/-- The exponent `e` with `2 ^ e ≤ n / d < 2 ^ (e + 1)`, for positive `n` and `d`. -/
def ratioLog2 (n d : Nat) : Int :=
  let k : Int := (n.log2 : Int) - (d.log2 : Int)
  let (a, b) := scaleRatio n d (-k)
  if b ≤ a then k else k - 1

namespace BinaryFormat

/-- The code of the magnitude nearest to `n / d`; from halfway beyond the largest one on, infinity. -/
def nearest (f : BinaryFormat) (n d : Nat) : Nat :=
  if n = 0 then 0
  else
    let q := max (ratioLog2 n d - (f.fractionBits : Int)) f.minExponent
    let (a, b) := scaleRatio n d (-q)
    min ((q - f.minExponent).natAbs * twoTo f.fractionBits + divNearest a b) f.infinityCode

/-- The magnitude behind a finite code, as a numerator and a positive denominator. -/
def ratio (f : BinaryFormat) (code : Nat) : Nat × Nat :=
  let (m, e) := f.decode code
  scaleRatio m 1 e

/-- The code nearest to the product of two finite magnitudes. -/
def product (f : BinaryFormat) (x y : Nat) : Nat :=
  let (a, b) := f.ratio x
  let (c, d) := f.ratio y
  f.nearest (a * c) (b * d)

/-- The code nearest to the quotient of two finite magnitudes, the second of them positive. -/
def quotient (f : BinaryFormat) (x y : Nat) : Nat :=
  let (a, b) := f.ratio x
  let (c, d) := f.ratio y
  f.nearest (a * d) (b * c)

end BinaryFormat

/-- A number of a binary format. -/
structure Binary (f : BinaryFormat) where
  negative : Bool
  code : Nat
deriving DecidableEq

namespace Binary

variable {f : BinaryFormat}

def infinity (negative : Bool) : Binary f := ⟨negative, f.infinityCode⟩

def nan : Binary f := ⟨false, f.infinityCode + 1⟩

def isNaN (x : Binary f) : Bool := f.infinityCode < x.code

def isInfinite (x : Binary f) : Bool := x.code == f.infinityCode

def isZero (x : Binary f) : Bool := x.code == 0

/-- Numeric equality: no number equals one that is not a number, and the two zeros are equal. -/
def numEq (x y : Binary f) : Bool :=
  !x.isNaN && !y.isNaN && x.code == y.code && (x.negative == y.negative || x.isZero)

/-- The number nearest to `digits * 10 ^ exponent`. Far outside the range of the format the power is
    not computed: there the number is zero or infinite whatever the digits. -/
def ofScientific (f : BinaryFormat) (negative : Bool) (digits : Nat) (exponent : Int) : Binary f :=
  let width : Int := (Nat.toDigits 10 digits).length
  let limit : Int := twoTo f.exponentBits
  if digits = 0 then ⟨negative, 0⟩
  else if width + exponent > limit then infinity negative
  else if width + exponent < -(limit + (f.fractionBits : Int)) then ⟨negative, 0⟩
  else if exponent < 0 then ⟨negative, f.nearest digits (tenTo exponent.natAbs)⟩
  else ⟨negative, f.nearest (digits * tenTo exponent.natAbs) 1⟩

/-- The number nearest to an integer. -/
def ofInt (f : BinaryFormat) (i : Int) : Binary f := ⟨decide (i < 0), f.nearest i.natAbs 1⟩

/-- The number of another format nearest to a number; infinities and the sign stay. -/
def convert (g : BinaryFormat) (x : Binary f) : Binary g :=
  if x.isNaN then nan
  else if x.isInfinite then infinity x.negative
  else
    let (n, d) := f.ratio x.code
    ⟨x.negative, g.nearest n d⟩

end Binary

abbrev Single := Binary .single

abbrev Double := Binary .double

end TreeSql.Number
