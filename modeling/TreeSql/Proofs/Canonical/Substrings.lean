import Mathlib.Data.List.DropRight
import Mathlib.Data.List.Infix

/-
  TreeSql.Proofs.Canonical.Substrings — positions and parts of texts, as the server counts them.

  Characters are counted from one. `position` looks for the first occurrence of a text in another and is zero where
  there is none; an empty text occurs before everything. Its values are told apart by `position_cases`, and from these
  cases follows what is asked of it: whether there is an occurrence (`position_pos_iff`), and whether the text begins
  with one (`position_eq_one_iff`).

  `substringFrom` and `substring?` take the characters from a position on. The position may lie outside the text on
  both sides: what is not there is left out, and what lies before the text counts for the length.
-/
namespace TreeSql.Server

/-! ## Occurrences -/

/-- The needle occurs after so many characters of the text, and not after fewer. -/
def FirstAfter (needle text : List Char) (count : Nat) : Prop :=
  needle <+: text.drop count ∧ ∀ k < count, ¬needle <+: text.drop k

/-- `position(needle in text)`. -/
def position (needle : List Char) : List Char → Nat
  | [] => if needle.isEmpty then 1 else 0
  | c :: text =>
    if needle.isPrefixOf (c :: text) then 1
    else
      match position needle text with
      | 0 => 0
      | n + 1 => n + 2

variable {needle text : List Char} {count : Nat}

theorem FirstAfter.isInfix (h : FirstAfter needle text count) : needle <:+: text :=
  h.1.isInfix.trans (text.drop_suffix count).isInfix

/-- A needle that is not at the head occurs first where it occurs first in the rest. -/
theorem FirstAfter.cons {c : Char} (hhead : ¬needle <+: c :: text) (h : FirstAfter needle text count) :
    FirstAfter needle (c :: text) (count + 1) := by
  refine ⟨h.1, fun k hk => ?_⟩
  cases k with
  | zero => exact hhead
  | succ k => exact h.2 k (by omega)

/-- The position is zero and there is no occurrence, or it is one more than the characters before the first one. -/
theorem position_cases (needle text : List Char) :
    (position needle text = 0 ∧ ¬needle <:+: text) ∨
      ∃ count, position needle text = count + 1 ∧ FirstAfter needle text count := by
  induction text with
  | nil =>
    by_cases hneedle : needle = []
    · subst hneedle
      exact .inr ⟨0, rfl, List.prefix_rfl, fun k hk => by omega⟩
    · refine .inl ⟨by simp [position, hneedle], fun h => hneedle ?_⟩
      exact List.infix_nil.mp h
  | cons c text ih =>
    by_cases hhead : needle <+: c :: text
    · refine .inr ⟨0, ?_, hhead, fun k hk => by omega⟩
      rw [position, if_pos (List.isPrefixOf_iff_prefix.mpr hhead)]
    · have hstep : position needle (c :: text) =
          match position needle text with
          | 0 => 0
          | n + 1 => n + 2 := by
        rw [position, if_neg (by simpa using hhead)]
      rcases ih with ⟨hzero, hnone⟩ | ⟨count, hcount, hfirst⟩
      · refine .inl ⟨by rw [hstep, hzero], fun h => ?_⟩
        rcases List.infix_cons_iff.mp h with h | h
        · exact hhead h
        · exact hnone h
      · exact .inr ⟨count + 1, by rw [hstep, hcount], hfirst.cons hhead⟩

theorem position_pos_iff : 0 < position needle text ↔ needle <:+: text := by
  rcases position_cases needle text with ⟨hzero, hnone⟩ | ⟨count, hcount, hfirst⟩
  · simp [hzero, hnone]
  · simp [hcount, hfirst.isInfix]

theorem position_eq_one_iff : position needle text = 1 ↔ needle <+: text := by
  rcases position_cases needle text with ⟨hzero, hnone⟩ | ⟨count, hcount, hfirst⟩
  · rw [hzero]
    exact iff_of_false (by omega) fun h => hnone h.isInfix
  · rw [hcount]
    constructor
    · intro h
      obtain rfl : count = 0 := by omega
      exact hfirst.1
    · intro h
      -- an occurrence at the head leaves nothing before the first one
      by_cases hpos : 0 < count
      · exact absurd h (hfirst.2 0 hpos)
      · omega

example : position "ana".toList "banana".toList = 2 := by decide

/-! ## Parts -/

/-- `substr(text, start)`: all characters from a position on. -/
def substringFrom (text : List Char) (start : Int) : List Char := text.drop (start - 1).toNat

/-- `substr(text, start, length)`: the characters from a position on, up to so many places later. A negative length is
    refused. -/
def substring? (text : List Char) (start length : Int) : Option (List Char) :=
  if length < 0 then none else some (substringFrom (text.take (start + length - 1).toNat) start)

theorem substring?_one (text : List Char) (n : Nat) : substring? text 1 n = some (text.take n) := by
  have hlength : ¬(n : Int) < 0 := by omega
  have hplaces : ((1 : Int) + n - 1).toNat = n := by omega
  rw [substring?, if_neg hlength, hplaces]
  rfl

/-- As many characters as are left after so many at the end are counted off. The position may lie before the text. -/
theorem substringFrom_length_sub (text : List Char) (n : Nat) :
    substringFrom text (text.length + 1 - n) = text.rtake n := by
  have hplaces : ((text.length : Int) + 1 - n - 1).toNat = text.length - n := by omega
  rw [substringFrom, hplaces, List.rtake]

end TreeSql.Server
