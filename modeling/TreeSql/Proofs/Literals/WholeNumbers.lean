import TreeSql.Postgres.Literal
import TreeSql.Proofs.Text.Runs

/-
  TreeSql.Proofs.Literals.WholeNumbers — what the server makes of the literal of a whole number.

  `evaluate?` reads and evaluates expressions of digits, minus signs, parentheses and casts. Digits alone have the
  first type of `int4`, `int8` and `numeric` that holds them; the minus sign is not part of the number: it is applied
  to what stands after it, casts included, and keeps the type. A number that its type does not hold is an error.

  The text of a constant of an integer kind is read as `ofInt`, or as a cast of it (`read?_integer`,
  `read?_withCast`), and evaluates to the number. Its type is that of the kind with one exception, the least `int4`:
  the digits after its minus sign are an `int8` (`typed_literal`, `least_int32_is_int8`).
-/
namespace TreeSql.Postgres.Literal

/-! ## Types and values -/

inductive NumberType where
  | int2
  | int4
  | int8
  | numeric
deriving DecidableEq

namespace NumberType

def name : NumberType → String
  | int2 => "int2"
  | int4 => "int4"
  | int8 => "int8"
  | numeric => "numeric"

def ofName? (name : String) : Option NumberType := [int2, int4, int8, numeric].find? (·.name == name)

/-- The numbers of a type of fixed size are those from the negative of its bound up to the bound, which is left out. -/
def bound? : NumberType → Option Nat
  | int2 => some 32768
  | int4 => some 2147483648
  | int8 => some 9223372036854775808
  | numeric => none

/-- Whether the type has the number. -/
def holds (t : NumberType) (i : Int) : Bool := t.bound?.all fun bound => -bound ≤ i ∧ i < bound

/-- The type of digits without a cast. -/
def ofDigits (n : Nat) : NumberType :=
  if n ≤ 2147483647 then int4 else if n ≤ 9223372036854775807 then int8 else numeric

/-- The type that constants of an integer kind are to have. -/
def ofKind? : PrimitiveKind → Option NumberType
  | .byte | .sbyte | .int16 => some int2
  | .int32 => some int4
  | .int64 => some int8
  | _ => none

end NumberType

/-- A value with its type. -/
structure TypedNumber where
  value : Int
  type : NumberType
deriving DecidableEq

inductive NumberExpr where
  | digits (n : Nat)
  | negate (e : NumberExpr)
  | cast (e : NumberExpr) (type : NumberType)

namespace NumberExpr

/-- A number of a type, if the type has it. -/
def typed? (i : Int) (type : NumberType) : Option TypedNumber := if type.holds i then some ⟨i, type⟩ else none

def eval : NumberExpr → Option TypedNumber
  | digits n => some ⟨n, .ofDigits n⟩
  | negate e => e.eval.bind fun x => typed? (-x.value) x.type
  | cast e type => e.eval.bind fun x => typed? x.value type

/-- The minus signs in front of an operand. -/
def negated (e : NumberExpr) : Nat → NumberExpr
  | 0 => e
  | n + 1 => negate (e.negated n)

end NumberExpr

/-! ## Reading -/

inductive NumberToken where
  | digits (n : Nat)
  | minus
  | opening
  | closing
  | cast (type : NumberType)
deriving DecidableEq

/-- The tokens of a text. Two minus signs would begin a comment. -/
def numberTokens? : List Char → Option (List NumberToken)
  | [] => some []
  | c :: s =>
    if c.isDigit then
      (numberTokens? (Text.afterDigits s)).map (.digits (Text.digitsValue (c :: Text.leadingDigits s)) :: ·)
    else if c = '(' then (numberTokens? s).map (.opening :: ·)
    else if c = ')' then (numberTokens? s).map (.closing :: ·)
    else if c = '-' then if s.head? = some '-' then none else (numberTokens? s).map (.minus :: ·)
    else if c = ':' ∧ s.head? = some ':' then do
      let type ← NumberType.ofName? (String.ofList (s.tail.takeWhile Char.isAlphanum))
      let ts ← numberTokens? (s.tail.dropWhile Char.isAlphanum)
      return .cast type :: ts
    else none
termination_by s => s.length
decreasing_by
  · have := (List.dropWhile_sublist Char.isDigit (l := s)).length_le
    simp only [Text.afterDigits, List.length_cons]
    omega
  · simp
  · simp
  · simp
  · have := (List.dropWhile_sublist Char.isAlphanum (l := s.tail)).length_le
    simp only [List.length_tail, List.length_cons] at this ⊢
    omega

/-- What has been read of an expression. -/
structure NumberReading where
  /-- The last operand with its casts, if it is complete. -/
  operand : Option NumberExpr := none
  /-- The minus signs in front of it. -/
  signs : Nat := 0
  /-- The minus signs in front of each open parenthesis, the innermost first. -/
  outer : List Nat := []

namespace NumberReading

/-- Reads a token. A cast is part of the operand, and minus signs wait until its end. -/
def step (r : NumberReading) : NumberToken → Option NumberReading
  | .digits n => if r.operand.isNone then some { r with operand := some (.digits n) } else none
  | .minus => if r.operand.isNone then some { r with signs := r.signs + 1 } else none
  | .opening => if r.operand.isNone then some { signs := 0, outer := r.signs :: r.outer } else none
  | .closing =>
    match r.operand, r.outer with
    | some e, signs :: outer => some { operand := some (e.negated r.signs), signs, outer }
    | _, _ => none
  | .cast type => r.operand.map fun e => { r with operand := some (.cast e type) }

/-- The expression, if nothing is missing from it. -/
def finish? (r : NumberReading) : Option NumberExpr :=
  if r.outer.isEmpty then r.operand.map (·.negated r.signs) else none

end NumberReading

/-- The expression that a text means. -/
def readNumber? (text : String) : Option NumberExpr := do
  let ts ← numberTokens? text.toList
  let r ← ts.foldlM NumberReading.step {}
  r.finish?

/-- The value of a text. -/
def evaluate? (text : String) : Option TypedNumber := (readNumber? text).bind NumberExpr.eval

/-- A cast is applied before the minus sign in front of it. -/
example : evaluate? "-32768::int2" = none ∧ evaluate? "(-32768)::int2" = some ⟨-32768, .int2⟩ := by
  decide +kernel

/-! ## The tokens of a number -/

section

variable {s : List Char}

theorem numberTokens?_opening : numberTokens? ('(' :: s) = (numberTokens? s).map (.opening :: ·) := by
  rw [numberTokens?]
  simp

theorem numberTokens?_closing : numberTokens? (')' :: s) = (numberTokens? s).map (.closing :: ·) := by
  rw [numberTokens?]
  simp

theorem numberTokens?_minus (hs : s.head? ≠ some '-') :
    numberTokens? ('-' :: s) = (numberTokens? s).map (.minus :: ·) := by
  rw [numberTokens?]
  simp [hs]

theorem numberTokens?_cast (type : NumberType) : numberTokens? ("::" ++ type.name).toList = some [.cast type] := by
  cases type <;> decide +kernel

theorem numberTokens?_digits (n : Nat) (hs : Text.NoDigit s) :
    numberTokens? (Text.digits n ++ s) = (numberTokens? s).map (.digits n :: ·) := by
  have hvalue := Text.digitsValue_digits n
  have hdigit : ∀ c ∈ Text.digits n, c.isDigit = true := fun c => Text.isDigit_of_mem_digits
  cases hds : Text.digits n with
  | nil => exact absurd hds (Text.digits_ne_nil n)
  | cons c ds =>
    rw [hds] at hvalue hdigit
    have hrest : ∀ d ∈ ds, d.isDigit = true := fun d hd => hdigit d (.tail _ hd)
    rw [List.cons_append, numberTokens?, if_pos (hdigit c (.head _)), Text.leadingDigits_append hrest hs,
      Text.afterDigits_append hrest hs, hvalue]

/-- The tokens of a number without a cast. -/
def intTokens (i : Int) : List NumberToken := if i < 0 then [.minus, .digits i.natAbs] else [.digits i.natAbs]

theorem numberTokens?_integer (i : Int) (hs : Text.NoDigit s) :
    numberTokens? ((Text.integer i).toList ++ s) = (numberTokens? s).map (intTokens i ++ ·) := by
  rw [Text.toList_integer, intTokens]
  by_cases hi : i < 0
  · have hminus : (Text.digits i.natAbs ++ s).head? ≠ some '-' :=
      Text.head?_append_ne (Text.digits_ne_nil _) (fun _ => Text.isDigit_of_mem_digits) rfl
    rw [if_pos hi, if_pos hi, List.cons_append, numberTokens?_minus hminus, numberTokens?_digits _ hs, Option.map_map]
    rfl
  · rw [if_neg hi, if_neg hi, numberTokens?_digits _ hs]
    rfl

end

/-! ## Numbers read back -/

/-- The number as an expression without a cast. -/
def ofInt (i : Int) : NumberExpr := if i < 0 then .negate (.digits i.natAbs) else .digits i.natAbs

theorem readNumber?_integer (i : Int) : readNumber? (Text.integer i) = some (ofInt i) := by
  have htokens := numberTokens?_integer i (s := []) fun c hc => by cases hc
  rw [List.append_nil, numberTokens?, Option.map_some, List.append_nil] at htokens
  rw [readNumber?, htokens, intTokens, ofInt]
  split
  · rfl
  · rfl

theorem readNumber?_withCast (i : Int) (type : NumberType) :
    readNumber? (integer i type.name) = some (.cast (ofInt i) type) := by
  have hcast := numberTokens?_cast type
  rw [String.toList_append] at hcast
  have hmark : Text.NoDigit ("::".toList ++ type.name.toList) := by
    intro c hc
    cases hc
    rfl
  have hclosing : Text.NoDigit (')' :: ("::".toList ++ type.name.toList)) := by
    intro c hc
    cases hc
    rfl
  unfold readNumber? integer withCast ofInt
  by_cases hi : i < 0
  · have htext : ("(" ++ Text.integer i ++ ")" ++ "::" ++ type.name).toList =
        '(' :: ((Text.integer i).toList ++ ')' :: ("::".toList ++ type.name.toList)) := by simp
    simp only [hi, decide_true, if_true, htext, numberTokens?_opening, numberTokens?_integer i hclosing,
      numberTokens?_closing, hcast, intTokens]
    rfl
  · have htext : (Text.integer i ++ "::" ++ type.name).toList =
        (Text.integer i).toList ++ ("::".toList ++ type.name.toList) := by simp
    simp only [hi, decide_false, Bool.false_eq_true, if_false, htext, numberTokens?_integer i hmark, hcast, intTokens]
    rfl

/-! ## Values -/

theorem eval_ofInt (i : Int) : (ofInt i).eval = some ⟨i, .ofDigits i.natAbs⟩ := by
  unfold ofInt
  by_cases hi : i < 0
  · have hvalue : -(i.natAbs : Int) = i := by omega
    have hholds : (NumberType.ofDigits i.natAbs).holds i = true := by
      unfold NumberType.ofDigits
      split
      · simp [NumberType.holds, NumberType.bound?]
        omega
      · split
        · simp [NumberType.holds, NumberType.bound?]
          omega
        · rfl
    rw [if_pos hi, NumberExpr.eval, NumberExpr.eval, Option.bind_some, hvalue, NumberExpr.typed?, if_pos hholds]
  · have hvalue : (i.natAbs : Int) = i := by omega
    rw [if_neg hi, NumberExpr.eval, hvalue]

theorem evaluate?_integer (i : Int) : evaluate? (Text.integer i) = some ⟨i, .ofDigits i.natAbs⟩ := by
  rw [evaluate?, readNumber?_integer, Option.bind_some, eval_ofInt]

/-- A number with a cast has the type of the cast, if that has the number. -/
theorem evaluate?_withCast {i : Int} {type : NumberType} (h : type.holds i = true) :
    evaluate? (integer i type.name) = some ⟨i, type⟩ := by
  rw [evaluate?, readNumber?_withCast, Option.bind_some, NumberExpr.eval, eval_ofInt, Option.bind_some,
    NumberExpr.typed?, if_pos h]

theorem holds_of_le {i : Int} {type : NumberType} {bound : Nat} (hbound : type.bound? = some bound)
    (hlow : -bound ≤ i) (hhigh : i < bound) : type.holds i = true := by
  simp [NumberType.holds, hbound, hlow, hhigh]

/-- The digits of a 32-bit number are an `int4`, unless it is the least. -/
theorem ofDigits_int32 (n : Int32) :
    NumberType.ofDigits n.toInt.natAbs = if n = Int32.minValue then .int8 else .int4 := by
  have hlow := n.le_toInt
  have hhigh := n.toInt_lt
  by_cases hn : n = Int32.minValue
  · subst hn
    rfl
  · have hne : n.toInt ≠ -2147483648 := fun h => hn (Int32.toInt_inj.mp h)
    rw [if_neg hn, NumberType.ofDigits, if_pos (by omega)]

/-- A constant of another integer kind than `int4` is written with a cast to its type, which has it. -/
theorem ofValue_withCast {v : Value} {i : Int} {type : NumberType} (hv : v.int? = some i)
    (htype : NumberType.ofKind? v.kind = some type) (hcast : ∀ n, v ≠ .int32 n) :
    ofValue v = integer i type.name ∧ type.holds i = true := by
  cases v with
  | byte n =>
    obtain rfl := Option.some.inj hv
    obtain rfl := Option.some.inj htype
    have := n.toNat_lt
    exact ⟨rfl, holds_of_le rfl (by omega) (by omega)⟩
  | sbyte n =>
    obtain rfl := Option.some.inj hv
    obtain rfl := Option.some.inj htype
    have := n.le_toInt
    have := n.toInt_lt
    exact ⟨rfl, holds_of_le rfl (by omega) (by omega)⟩
  | int16 n =>
    obtain rfl := Option.some.inj hv
    obtain rfl := Option.some.inj htype
    exact ⟨rfl, holds_of_le rfl n.le_toInt n.toInt_lt⟩
  | int32 n => exact absurd rfl (hcast n)
  | int64 n =>
    obtain rfl := Option.some.inj hv
    obtain rfl := Option.some.inj htype
    exact ⟨rfl, holds_of_le rfl n.le_toInt n.toInt_lt⟩
  | _ => cases hv

/-- The literal of a constant of an integer kind is the number with the type of the kind, but for the least `int4`,
    which is an `int8`. -/
theorem typed_literal {v : Value} {i : Int} {type : NumberType} (hv : v.int? = some i)
    (htype : NumberType.ofKind? v.kind = some type) :
    evaluate? (ofValue v) = some ⟨i, if v = .int32 Int32.minValue then .int8 else type⟩ := by
  by_cases hcast : ∀ n, v ≠ .int32 n
  · obtain ⟨htext, hholds⟩ := ofValue_withCast hv htype hcast
    rw [if_neg (hcast _), htext, evaluate?_withCast hholds]
  · obtain ⟨n, hn⟩ := not_forall.mp hcast
    obtain rfl := not_not.mp hn
    obtain rfl := Option.some.inj hv
    obtain rfl := Option.some.inj htype
    have hvalue := evaluate?_integer n.toInt
    rw [ofDigits_int32] at hvalue
    simp only [Value.int32.injEq]
    exact hvalue

theorem typed_literal_least_int64 : (Value.int64 Int64.minValue).int? = some (-9223372036854775808) ∧
    NumberType.ofKind? (Value.int64 Int64.minValue).kind = some .int8 ∧
    evaluate? (ofValue (.int64 Int64.minValue)) = some ⟨-9223372036854775808, .int8⟩ := by
  have hv : (Value.int64 Int64.minValue).int? = some (-9223372036854775808) := rfl
  have htype : NumberType.ofKind? (Value.int64 Int64.minValue).kind = some .int8 := rfl
  exact ⟨hv, htype, typed_literal hv htype⟩

/-- The least 32-bit number is written without a cast, and without its sign it is too large for its type. -/
theorem least_int32_is_int8 : ofValue (.int32 Int32.minValue) = "-2147483648" ∧
    evaluate? (ofValue (.int32 Int32.minValue)) = some ⟨-2147483648, .int8⟩ ∧
    evaluate? (ofValue (.int32 Int32.minValue)) ≠ some ⟨-2147483648, .int4⟩ := by
  have hvalue : evaluate? (Text.integer Int32.minValue.toInt) = some ⟨-2147483648, .int8⟩ :=
    evaluate?_integer Int32.minValue.toInt
  refine ⟨by decide +kernel, hvalue, ?_⟩
  show evaluate? (Text.integer Int32.minValue.toInt) ≠ _
  rw [hvalue]
  decide

end TreeSql.Postgres.Literal
