import TreeSql.Compile.Tree
import TreeSql.Proofs.Canonical.Moments
import TreeSql.Proofs.Canonical.Substrings
import TreeSql.Proofs.Compile.Levels
import TreeSql.Proofs.Literals.WholeNumbers

/-
  TreeSql.Proofs.Canonical.Evaluation — what the server makes of the expressions for canonical functions.

  `evaluate` gives the value of an SQL expression, or the fault that ends the statement. It knows the functions and
  operators that texts are searched and cut with and times are counted with; columns, parameters and all else have
  the value that the surroundings give them. Whole numbers and fractions are exact, and only the cast to `int4` has a
  range.

  An expression is taken apart into an `Operation` and its operands (`operation?`), since the words and literals among
  its fragments say which operation it is. One lemma for each building block says what it evaluates to.

  A canonical function of two arguments is compiled to its expression on what the arguments are compiled to
  (`gives_binary`), in whatever state they leave behind. `Arguments.Yields` puts both together.
-/
namespace TreeSql

namespace Server

open Sql

/-! ## Values -/

inductive Datum where
  | bool (b : Bool)
  | integer (n : Int)
  | numeric (q : ℚ)
  | text (s : List Char)
  | moment (t : Moment)
  | span (i : Span)

inductive Fault where
  | integerOutOfRange
  | negativeLength
  | divisionByZero
  /-- Any other one. -/
  | other (message : String)
deriving DecidableEq

/-- A whole number as an `int4`. -/
def int4 (n : Int) : Except Fault Datum :=
  if Postgres.Literal.NumberType.int4.holds n then .ok (.integer n) else .error .integerOutOfRange

inductive Operation where
  | operator (op : BinaryOp)
  | position
  | charLength
  | substr
  | dateTrunc (unit : Truncation)
  /-- The days of an interval. -/
  | dayPart
  /-- The seconds of an interval. -/
  | epoch
  | age
  | round
  | toInt4
deriving DecidableEq

/-- What an operation gives for values of the types that it is for. -/
def Operation.apply : Operation → List Datum → Option (Except Fault Datum)
  | .operator .add, [.integer x, .integer y] => some (.ok (.integer (x + y)))
  | .operator .sub, [.integer x, .integer y] => some (.ok (.integer (x - y)))
  | .operator .sub, [.moment x, .moment y] => some (.ok (.span (x.sub y)))
  | .operator .div, [.integer x, .integer y] =>
    some (if y = 0 then .error .divisionByZero else .ok (.integer (x.tdiv y)))
  | .operator .div, [.numeric x, .numeric y] =>
    some (if y = 0 then .error .divisionByZero else .ok (.numeric (x / y)))
  | .operator .greaterThan, [.integer x, .integer y] => some (.ok (.bool (decide (y < x))))
  | .operator .equals, [.integer x, .integer y] => some (.ok (.bool (decide (x = y))))
  | .position, [.text needle, .text s] => some (.ok (.integer (Server.position needle s)))
  | .charLength, [.text s] => some (.ok (.integer s.length))
  | .substr, [.text s, .integer start] => some (.ok (.text (substringFrom s start)))
  | .substr, [.text s, .integer start, .integer length] =>
    some (match substring? s start length with
      | some part => .ok (.text part)
      | none => .error .negativeLength)
  | .dateTrunc unit, [.moment t] => some (.ok (.moment (t.truncate unit)))
  | .dayPart, [.span i] => some (.ok (.numeric i.days))
  | .epoch, [.span i] => some (.ok (.numeric i.seconds))
  | .age, [.moment x, .moment y] => some (.ok (.span (x.age y)))
  | .round, [.numeric q] => some (.ok (.numeric (nearest q)))
  | .toInt4, [.numeric q] => some (int4 (nearest q))
  | .toInt4, [.integer n] => some (int4 n)
  | _, _ => none

namespace Operation

theorem apply_div (x y : Int) : (operator .div).apply [.integer x, .integer y] =
    some (if y = 0 then .error .divisionByZero else .ok (.integer (x.tdiv y))) := rfl

theorem apply_substr (s : List Char) (start : Int) :
    substr.apply [.text s, .integer start] = some (.ok (.text (substringFrom s start))) := rfl

theorem apply_substr_length (s : List Char) (start length : Int) :
    substr.apply [.text s, .integer start, .integer length] =
      some (match substring? s start length with
        | some part => .ok (.text part)
        | none => .error .negativeLength) := rfl

end Operation

/-- The units that a time is cut to, as they are written. -/
def truncations : List (String × Truncation) :=
  [("'year'", .year), ("'month'", .month), ("'day'", .clock 86400000000), ("'hour'", .clock 3600000000),
    ("'minute'", .clock 60000000), ("'second'", .clock 1000000), ("'milliseconds'", .clock 1000),
    ("'microseconds'", .clock 1)]

/-- The value of digits with a point among them. -/
def pointed? (s : List Char) : Option ℚ :=
  match Text.afterDigits s with
  | '.' :: fraction =>
    let whole := Text.leadingDigits s
    if !whole.isEmpty && fraction.all Char.isDigit then
      some (Text.digitsValue (whole ++ fraction) / (Number.tenTo fraction.length : Nat))
    else none
  | _ => none

end Server

namespace Sql.SqlExpr

open Server

/-- The operation that an expression is for, with its operands. -/
def operation? : SqlExpr → Option (Operation × List SqlExpr)
  | binary op l r => some (.operator op, [l, r])
  | seq [call name args, verbatim "::int4"] => some (.toInt4, [call name args])
  | call "position" [seq [needle, verbatim " in ", text]] => some (.position, [needle, text])
  | call "char_length" [text] => some (.charLength, [text])
  | call "substr" (text :: start :: length) => some (.substr, text :: start :: length)
  | call "date_trunc" [verbatim unit, time] => (truncations.lookup unit).map fun unit => (.dateTrunc unit, [time])
  | call "date_part" [verbatim "'day'", span] => some (.dayPart, [span])
  | call "extract" [seq [verbatim "epoch from ", span]] => some (.epoch, [span])
  | call "age" [finish, start] => some (.age, [finish, start])
  | call "round" [number] => some (.round, [number])
  | _ => none

/-- The value of a literal. -/
def literal? : SqlExpr → Option Datum
  | constant (.string s) => some (.text s.toList)
  | constant v => v.int?.map .integer
  | verbatim text => (pointed? text.toList).map .numeric
  | _ => none

/-- Operands are parts of the expression. -/
theorem sizeOf_operand {e x : SqlExpr} {f : Operation} {xs : List SqlExpr} (h : e.operation? = some (f, xs))
    (hx : x ∈ xs) : sizeOf x < sizeOf e := by
  have hlt := List.sizeOf_lt_of_mem hx
  unfold operation? at h
  split at h
  case h_1 =>
    cases h
    simp only [binary.sizeOf_spec]
    rcases List.mem_pair.mp hx with rfl | rfl <;> omega
  case h_6 =>
    obtain ⟨_, -, h⟩ := Option.map_eq_some_iff.mp h
    cases h
    simp at hlt ⊢
    omega
  all_goals
    cases h
  all_goals
    simp at hlt ⊢
    omega

end Sql.SqlExpr

namespace Server

open Sql SqlExpr Compile

/-! ## Evaluation -/

/-- What the surroundings give for an expression that is not known. -/
abbrev Surroundings := SqlExpr → Except Fault Datum

/-- The value of an expression. An operation on values that it is not known for is left to the surroundings too. -/
def evaluate (env : Surroundings) (e : SqlExpr) : Except Fault Datum :=
  match _h : e.operation? with
  | some (f, operands) => do
    let values ← operands.attach.mapM fun ⟨x, _⟩ => evaluate env x
    (f.apply values).getD (env e)
  | none => e.literal?.elim (env e) .ok
termination_by sizeOf e
decreasing_by exact sizeOf_operand _h ‹_›

variable {env : Surroundings} {e : SqlExpr}

theorem evaluate_operation {f : Operation} {operands : List SqlExpr} (h : e.operation? = some (f, operands)) :
    evaluate env e = operands.mapM (evaluate env) >>= fun values => (f.apply values).getD (env e) := by
  rw [evaluate]
  split
  · next f' operands' h' =>
    obtain ⟨rfl, rfl⟩ : f = f' ∧ operands = operands' := by simpa using h.symm.trans h'
    simp
  · next h' =>
    rw [h] at h'
    cases h'

theorem evaluate_atom (h : e.operation? = none) : evaluate env e = e.literal?.elim (env e) .ok := by
  rw [evaluate]
  split
  · next h' =>
    rw [h] at h'
    cases h'
  · rfl

theorem evaluate_literal {x : Datum} (h : e.operation? = none) (hx : e.literal? = some x) :
    evaluate env e = .ok x := by
  rw [evaluate_atom h, hx, Option.elim_some]

theorem evaluate_unknown (h : e.operation? = none) (hx : e.literal? = none) : evaluate env e = env e := by
  rw [evaluate_atom h, hx, Option.elim_none]

theorem evaluate_apply {f : Operation} {operands : List SqlExpr} {values : List Datum} {r : Except Fault Datum}
    (h : e.operation? = some (f, operands)) (hvalues : operands.mapM (evaluate env) = .ok values)
    (hr : f.apply values = some r) : evaluate env e = r := by
  rw [evaluate_operation h, hvalues]
  show (f.apply values).getD (env e) = r
  rw [hr, Option.getD_some]

section

variable {a b : SqlExpr} {x y : Datum}

theorem mapM_one (ha : evaluate env a = .ok x) : [a].mapM (evaluate env) = .ok [x] := by
  simp [ha]

theorem mapM_two (ha : evaluate env a = .ok x) (hb : evaluate env b = .ok y) :
    [a, b].mapM (evaluate env) = .ok [x, y] := by
  simp [ha, hb]
  rfl

theorem evaluate_binary (op : BinaryOp) {r : Except Fault Datum} (ha : evaluate env a = .ok x)
    (hb : evaluate env b = .ok y) (hr : (Operation.operator op).apply [x, y] = some r) :
    evaluate env (.binary op a b) = r :=
  evaluate_apply rfl (mapM_two ha hb) hr

/-- The fault of a left operand is that of the expression. -/
theorem evaluate_binary_fault {op : BinaryOp} {fault : Fault} (ha : evaluate env a = .error fault) :
    evaluate env (.binary op a b) = .error fault := by
  have hoperands : [a, b].mapM (evaluate env) = .error fault := by
    simp [ha]
    rfl
  rw [evaluate_operation (e := .binary op a b) rfl, hoperands]
  rfl

end

/-! ## Building blocks -/

theorem evaluate_int {n : Int32} {k : Int} (hn : n.toInt = k) : evaluate env (int n) = .ok (.integer k) := by
  subst hn
  exact evaluate_literal rfl rfl

theorem evaluate_secondsPerMonth : evaluate env (.verbatim secondsPerMonth) = .ok (.numeric 2629800) := by
  refine evaluate_literal rfl ?_
  have hdigits : pointed? secondsPerMonth.toList = some (((26298000 : Nat) : ℚ) / ((10 : Nat) : ℚ)) := rfl
  rw [literal?, hdigits]
  norm_num

section

variable {a b : SqlExpr}

theorem evaluate_position {needle text : List Char} (ha : evaluate env a = .ok (.text needle))
    (hb : evaluate env b = .ok (.text text)) :
    evaluate env (Compile.position a b) = .ok (.integer (position needle text)) :=
  evaluate_apply rfl (mapM_two ha hb) rfl

theorem evaluate_dateTrunc {name : String} {unit : Truncation} {t : Moment}
    (hunit : truncations.lookup ("'" ++ name ++ "'") = some unit) (ha : evaluate env a = .ok (.moment t)) :
    evaluate env (dateTrunc name a) = .ok (.moment (t.truncate unit)) := by
  have hoperation : (dateTrunc name a).operation? = some (.dateTrunc unit, [a]) := by
    show (truncations.lookup ("'" ++ name ++ "'")).map _ = _
    rw [hunit]
    rfl
  exact evaluate_apply hoperation (mapM_one ha) rfl

theorem evaluate_spanBetween {name : String} {unit : Truncation} {start finish : Moment}
    (hunit : truncations.lookup ("'" ++ name ++ "'") = some unit) (ha : evaluate env a = .ok (.moment start))
    (hb : evaluate env b = .ok (.moment finish)) :
    evaluate env (spanBetween name a b) = .ok (.span ((finish.truncate unit).sub (start.truncate unit))) :=
  evaluate_binary .sub (evaluate_dateTrunc hunit hb) (evaluate_dateTrunc hunit ha) rfl

theorem evaluate_secondsOf {i : Span} (ha : evaluate env a = .ok (.span i)) :
    evaluate env (secondsOf a) = .ok (.numeric i.seconds) :=
  evaluate_apply rfl (mapM_one ha) rfl

theorem evaluate_toInt4 {name : String} {args : List SqlExpr} {q : ℚ}
    (h : evaluate env (.call name args) = .ok (.numeric q)) :
    evaluate env (toInt4 (.call name args)) = int4 (nearest q) :=
  evaluate_apply rfl (mapM_one h) rfl

end

/-! ## Functions of two arguments -/

/-- A function of two arguments is compiled to its expression on what they are compiled to, one after the other. -/
theorem gives_binary {f : FunctionRef} (hspace : f.isCanonical = true) {g : BinaryFunction}
    (hname : CanonicalFunction.ofName? f.name = some (.binary g)) {x y : Expr} {c : Context} {s u t : State}
    {a b : SqlExpr} (hx : Gives (value x) c s a u) (hy : Gives (value y) c u b t) (type : DataType) :
    Gives (value (.call f [x, y] type)) c s (g.sql a b) t := by
  have hsize : (Expr.call f [x, y] type).size = x.size + y.size + 1 := rfl
  have hlevels : levels (.call f [x, y] type) = 2 * (x.size + y.size + 1) + 1 := by rw [levels, hsize]
  have hvalue : value (.call f [x, y] type) =
      callValue (partsTo (2 * (x.size + y.size + 1))).value f [x, y] type := by
    rw [value, hlevels]
    rfl
  -- one level below the call there are levels enough for either argument
  have hx' := hx.deeper (m := 2 * (x.size + y.size + 1)) (by rw [levels]; omega)
  have hy' := hy.deeper (m := 2 * (x.size + y.size + 1)) (by rw [levels]; omega)
  have hcanonical (v : Expr → CompileM SqlExpr) :
      canonicalValue v f.name [x, y] type = do return g.sql (← v x) (← v y) := by
    unfold canonicalValue
    rw [hname]
  rw [hvalue, callValue, if_pos hspace, hcanonical]
  exact gives_bind.mpr ⟨a, u, hx', gives_bind.mpr ⟨b, t, hy', gives_pure.mpr ⟨rfl, rfl⟩⟩⟩

/-- Two arguments and what they are compiled to, the second after the first. -/
structure Arguments (c : Context) (s t : State) where
  first : Expr
  second : Expr
  left : SqlExpr
  right : SqlExpr
  between : State
  gives_left : Gives (value first) c s left between
  gives_right : Gives (value second) c between right t

/-- The canonical function of this name is compiled on these arguments, and the server gives the result for it. -/
def Arguments.Yields {c : Context} {s t : State} (args : Arguments c s t) (env : Surroundings) (function : String)
    (result : Except Fault Datum) : Prop :=
  ∃ e : SqlExpr, (∀ (f : FunctionRef) (type : DataType), f.isCanonical = true → f.name = function →
      Gives (value (.call f [args.first, args.second] type)) c s e t) ∧
    evaluate env e = result

namespace Arguments

variable {c : Context} {s t : State} {args : Arguments c s t} {function : String}

theorem yields {g : BinaryFunction} (hname : CanonicalFunction.ofName? function = some (.binary g))
    {result : Except Fault Datum} (h : evaluate env (g.sql args.left args.right) = result) :
    args.Yields env function result :=
  ⟨_, fun _ type hspace hfunction => gives_binary hspace (hfunction ▸ hname) args.gives_left args.gives_right type, h⟩

/-- There is one result. -/
theorem Yields.unique {result result' : Except Fault Datum} (h : args.Yields env function result)
    (h' : args.Yields env function result') : result = result' := by
  obtain ⟨e, hgives, rfl⟩ := h
  obtain ⟨e', hgives', rfl⟩ := h'
  have hrun := hgives (.canonical function) .boolean rfl rfl
  have hsame := hrun.symm.trans (hgives' (.canonical function) .boolean rfl rfl)
  rw [(Prod.mk.inj (Except.ok.inj hsame)).1]

/-- Two parameters. -/
def ofParameters (c : Context) (s : State) (x y : String) (type : DataType) : Arguments c s s where
  first := .paramRef x type
  second := .paramRef y type
  left := .verbatim ("@" ++ x)
  right := .verbatim ("@" ++ y)
  between := s
  gives_left := rfl
  gives_right := rfl

end Arguments

/-- Values for parameters, and for nothing else. -/
def Surroundings.ofParameters (values : List (String × Datum)) : Surroundings
  | .verbatim text =>
    match values.find? fun x => text == "@" ++ x.1 with
    | some x => .ok x.2
    | none => .error (.other "no such parameter")
  | _ => .error (.other "no parameter")

end Server

end TreeSql
