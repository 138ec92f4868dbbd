import TreeSql.Proofs.Canonical.Evaluation

/-
  TreeSql.Proofs.Canonical.Strings — searching and cutting strings.

  There is one function of the server for searching. That a string contains another one, or begins with it, is said by
  the position that it is found at; and `IndexOf` takes the string that it looks for first, where the others take it
  second. There is one for cutting as well, and the last characters are those from a position on, which lies before the
  string where fewer are there.

  `string_functions`: the expressions for these functions have the values that their names promise, for all strings and
  all lengths.
-/
namespace TreeSql.Server

open Sql SqlExpr Compile

variable {env : Surroundings} {a b : SqlExpr} {p q : List Char}

/-! ## Searching -/

theorem evaluate_contains (ha : evaluate env a = .ok (.text p)) (hb : evaluate env b = .ok (.text q)) :
    evaluate env (BinaryFunction.contains.sql a b) = .ok (.bool (decide (q <:+: p))) := by
  have hzero : evaluate env (int 0) = .ok (.integer 0) := evaluate_int rfl
  have hposition := evaluate_binary .greaterThan (evaluate_position hb ha) hzero rfl
  have hoccurs : (0 : Int) < position q p ↔ q <:+: p := by
    rw [← position_pos_iff]
    exact Int.natCast_pos
  simp only [hoccurs] at hposition
  exact hposition

theorem evaluate_startsWith (ha : evaluate env a = .ok (.text p)) (hb : evaluate env b = .ok (.text q)) :
    evaluate env (BinaryFunction.startsWith.sql a b) = .ok (.bool (decide (q <+: p))) := by
  have hone : evaluate env (int 1) = .ok (.integer 1) := evaluate_int rfl
  have hposition := evaluate_binary .equals (evaluate_position hb ha) hone rfl
  have hbegins : (position q p : Int) = 1 ↔ q <+: p := by
    rw [← position_eq_one_iff]
    exact Nat.cast_eq_one
  simp only [hbegins] at hposition
  exact hposition

theorem evaluate_indexOf (ha : evaluate env a = .ok (.text p)) (hb : evaluate env b = .ok (.text q)) :
    evaluate env (BinaryFunction.indexOf.sql a b) = .ok (.integer (position p q)) := evaluate_position ha hb

/-! ## Cutting -/

theorem evaluate_left {n : Nat} (ha : evaluate env a = .ok (.text p)) (hb : evaluate env b = .ok (.integer n)) :
    evaluate env (BinaryFunction.left.sql a b) = .ok (.text (p.take n)) := by
  have hone : evaluate env (int 1) = .ok (.integer 1) := evaluate_int rfl
  have hoperands : [a, int 1, b].mapM (evaluate env) = .ok [.text p, .integer 1, .integer n] := by
    simp [ha, hb, hone]
    rfl
  refine evaluate_apply (f := .substr) rfl hoperands ?_
  rw [Operation.apply_substr_length, substring?_one]

theorem evaluate_right {n : Nat} (ha : evaluate env a = .ok (.text p)) (hb : evaluate env b = .ok (.integer n)) :
    evaluate env (BinaryFunction.right.sql a b) = .ok (.text (p.rtake n)) := by
  have hlength : evaluate env (.call "char_length" [a]) = .ok (.integer p.length) :=
    evaluate_apply rfl (mapM_one ha) rfl
  have hone : evaluate env (int 1) = .ok (.integer 1) := evaluate_int rfl
  have hplus := evaluate_binary .add hlength hone rfl
  have hstart := evaluate_binary .sub hplus hb rfl
  refine evaluate_apply (f := .substr) rfl (mapM_two ha hstart) ?_
  rw [Operation.apply_substr, substringFrom_length_sub]

/-! ## String functions -/

/-- The functions that search a string or take characters from its ends have the values that are asked for. Positions
    count from one, and where fewer characters are there than asked for, all of them are taken. -/
theorem string_functions {c : Context} {s t : State} (args : Arguments c s t) (env : Surroundings) {p : List Char}
    (hp : evaluate env args.left = .ok (.text p)) :
    (∀ q, evaluate env args.right = .ok (.text q) →
      args.Yields env "Contains" (.ok (.bool (decide (q <:+: p)))) ∧
      args.Yields env "StartsWith" (.ok (.bool (decide (q <+: p)))) ∧
      ∃ i : Nat, args.Yields env "IndexOf" (.ok (.integer i)) ∧
        ((i = 0 ∧ ¬p <:+: q) ∨ ∃ count, i = count + 1 ∧ FirstAfter p q count)) ∧
    ∀ n : Nat, evaluate env args.right = .ok (.integer n) →
      (∃ part, part <+: p ∧ part.length = min n p.length ∧ args.Yields env "Left" (.ok (.text part))) ∧
      ∃ part, part <:+ p ∧ part.length = min n p.length ∧ args.Yields env "Right" (.ok (.text part)) := by
  constructor
  · intro q hq
    refine ⟨Arguments.yields rfl (evaluate_contains hp hq), Arguments.yields rfl (evaluate_startsWith hp hq),
      position p q, Arguments.yields rfl (evaluate_indexOf hp hq), position_cases p q⟩
  · intro n hn
    have hlength : (p.rtake n).length = min n p.length := by
      rw [List.rtake, List.length_drop]
      omega
    exact ⟨⟨p.take n, List.take_prefix n p, List.length_take, Arguments.yields rfl (evaluate_left hp hn)⟩,
      ⟨p.rtake n, List.drop_suffix _ p, hlength, Arguments.yields rfl (evaluate_right hp hn)⟩⟩

/-- `ana` inside `banana`, and one character more than it has. -/
theorem string_functions_banana :
    let c : Context := { mode := .query, liftConstants := false }
    let env : Surroundings := fun _ => .error (.other "unknown")
    let literals (x y : Value) : Arguments c {} {} :=
      ⟨.constant x, .constant y, .constant x, .constant y, {}, rfl, rfl⟩
    let searched := literals (.string "banana") (.string "ana")
    let cut := literals (.string "banana") (.int32 7)
    evaluate env searched.left = .ok (.text "banana".toList) ∧ evaluate env searched.right = .ok (.text "ana".toList) ∧
      evaluate env cut.left = .ok (.text "banana".toList) ∧ evaluate env cut.right = .ok (.integer (7 : Nat)) ∧
      searched.Yields env "Contains" (.ok (.bool true)) ∧ searched.Yields env "StartsWith" (.ok (.bool false)) ∧
      ∃ part, part <:+ "banana".toList ∧ part.length = 6 ∧ cut.Yields env "Right" (.ok (.text part)) := by
  intro c env literals searched cut
  have htext : evaluate env (.constant (.string "banana")) = .ok (.text "banana".toList) := evaluate_literal rfl rfl
  have hpart : evaluate env searched.right = .ok (.text "ana".toList) := evaluate_literal rfl rfl
  have hlength : evaluate env cut.right = .ok (.integer (7 : Nat)) := evaluate_literal rfl rfl
  obtain ⟨hcontains, hstarts, -⟩ := (string_functions searched env htext).1 _ hpart
  exact ⟨htext, hpart, htext, hlength, hcontains, hstarts, ((string_functions cut env htext).2 7 hlength).2⟩

end TreeSql.Server
