/-
  TreeSql.Number.Power — powers of two and of ten.

  All scaling in this library is by one of the two: binary formats scale by powers of two, decimal
  text by powers of ten.
-/
namespace TreeSql.Number

/-- Two to the given power. -/
def twoTo (n : Nat) : Nat := Nat.pow 2 n

/-- Ten to the given power. -/
def tenTo (n : Nat) : Nat := Nat.pow 10 n

theorem tenTo_pos (n : Nat) : 0 < tenTo n := Nat.pow_pos (by decide)

end TreeSql.Number
