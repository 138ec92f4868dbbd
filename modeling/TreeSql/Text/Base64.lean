/-
  TreeSql.Text.Base64 — bytes as base64 text with the standard alphabet and padding.

  Three bytes become four characters; a last group of one or two bytes is filled up with `=`.
-/
namespace TreeSql.Text.Base64

/-- The character for a six-bit number. -/
def symbol (n : Nat) : Char :=
  if n < 26 then Char.ofNat ('A'.toNat + n)
  else if n < 52 then Char.ofNat ('a'.toNat + (n - 26))
  else if n < 62 then Char.ofNat ('0'.toNat + (n - 52))
  else if n = 62 then '+' else '/'

/-- The four characters of a 24-bit group. -/
def group (n : Nat) : List Char :=
  [symbol (n / 262144 % 64), symbol (n / 4096 % 64), symbol (n / 64 % 64), symbol (n % 64)]

/-- The base64 text of a list of bytes. -/
def encode : List UInt8 → List Char
  | [] => []
  | [a] => (group (a.toNat * 65536)).take 2 ++ ['=', '=']
  | [a, b] => (group (a.toNat * 65536 + b.toNat * 256)).take 3 ++ ['=']
  | a :: b :: c :: rest => group (a.toNat * 65536 + b.toNat * 256 + c.toNat) ++ encode rest

end TreeSql.Text.Base64
