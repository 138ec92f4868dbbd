import Mathlib.Data.List.Infix
import TreeSql.Postgres.Quote

/-
  TreeSql.Proofs.Quoting.Patterns — which texts match a pattern, and that an escaped text in a pattern matches itself.

  A pattern is taken apart into items (`readPattern?`): a wildcard, or a character that stands for itself, as every
  character does after the escape character. `Matches` says which texts the items match, and `like?` evaluates
  `text LIKE pattern`; it has no value if the escape character is the last of the pattern.

  Items in a row match a text if it can be cut where the items are cut (`matches_append`). So an escaped text matches
  itself between whatever stands before and after it, and what is left is to see what a run of any characters adds on
  either side (`like_literalPattern`).
-/
namespace TreeSql.Quoting

open Postgres

/-! ## Patterns -/

inductive PatternItem where
  | char (c : Char)
  /-- Any one character. -/
  | anyChar
  /-- Any characters, or none. -/
  | anyRun
deriving DecidableEq

/-- What a character means that is not escaped. -/
def PatternItem.ofChar (c : Char) : PatternItem :=
  if c = '%' then anyRun else if c = '_' then anyChar else char c

/-- The items of a pattern, unless it ends in the middle of an escape. -/
def readPattern? : List Char → Option (List PatternItem)
  | [] => some []
  | c :: s =>
    if c = Quote.patternEscape then
      match s with
      | [] => none
      | d :: s => (readPattern? s).map (.char d :: ·)
    else (readPattern? s).map (.ofChar c :: ·)

/-- The items match the whole text. -/
inductive Matches : List PatternItem → List Char → Prop
  | nil : Matches [] []
  | char {c : Char} {items : List PatternItem} {t : List Char} : Matches items t → Matches (.char c :: items) (c :: t)
  | anyChar {c : Char} {items : List PatternItem} {t : List Char} :
    Matches items t → Matches (.anyChar :: items) (c :: t)
  | anyRun {run t : List Char} {items : List PatternItem} :
    Matches items t → Matches (.anyRun :: items) (run ++ t)

/-- The search for a match: what a run leaves may be any end of the text. -/
def isMatch : List PatternItem → List Char → Bool
  | [], t => t.isEmpty
  | .char c :: items, t => t.head? == some c && isMatch items t.tail
  | .anyChar :: items, t => !t.isEmpty && isMatch items t.tail
  | .anyRun :: items, t => t.tails.any (isMatch items)

theorem isMatch_iff (items : List PatternItem) (t : List Char) : isMatch items t = true ↔ Matches items t := by
  induction items generalizing t with
  | nil =>
    rw [isMatch, List.isEmpty_iff]
    constructor
    · rintro rfl
      exact .nil
    · intro h
      cases h
      rfl
  | cons item items ih =>
    cases item with
    | char c =>
      rw [isMatch, Bool.and_eq_true, beq_iff_eq, ih]
      constructor
      · rintro ⟨hhead, htail⟩
        obtain ⟨s, rfl⟩ := List.head?_eq_some_iff.mp hhead
        exact .char htail
      · intro h
        cases h with
        | char h => exact ⟨rfl, h⟩
    | anyChar =>
      rw [isMatch, Bool.and_eq_true, Bool.not_eq_true', List.isEmpty_eq_false_iff_exists_mem, ih]
      constructor
      · rintro ⟨⟨c, hc⟩, htail⟩
        obtain ⟨d, s, rfl⟩ := List.exists_cons_of_ne_nil (List.ne_nil_of_mem hc)
        exact .anyChar htail
      · intro h
        cases h with
        | anyChar h => exact ⟨⟨_, .head _⟩, h⟩
    | anyRun =>
      rw [isMatch, List.any_eq_true]
      constructor
      · rintro ⟨rest, hrest, h⟩
        obtain ⟨run, rfl⟩ := (List.mem_tails _ _).mp hrest
        exact .anyRun ((ih rest).mp h)
      · intro h
        cases h with
        | anyRun h => exact ⟨_, (List.mem_tails _ _).mpr (List.suffix_append _ _), (ih _).mpr h⟩

instance (items : List PatternItem) (t : List Char) : Decidable (Matches items t) :=
  decidable_of_iff _ (isMatch_iff items t)

/-- The value of `text LIKE pattern`. -/
def like? (text pattern : String) : Option Bool :=
  (readPattern? pattern.toList).map fun items => decide (Matches items text.toList)

example : like? "50%" "5_\\%" = some true ∧ like? "50 %" "5_\\%" = some false ∧ like? "50%" "%\\" = none := by
  decide +kernel

/-! ## Items in a row -/

theorem readPattern?_escape (d : Char) (s : List Char) :
    readPattern? (Quote.patternEscape :: d :: s) = (readPattern? s).map (.char d :: ·) := by
  rw [readPattern?.eq_def]
  exact if_pos rfl

theorem readPattern?_unescaped {c : Char} (hc : c ≠ Quote.patternEscape) (s : List Char) :
    readPattern? (c :: s) = (readPattern? s).map (.ofChar c :: ·) := by
  rw [readPattern?.eq_def]
  exact if_neg hc

/-- A pattern that is read to its end is read in the same way with more after it. -/
theorem readPattern?_append {p : List Char} {items : List PatternItem} (h : readPattern? p = some items)
    (q : List Char) : readPattern? (p ++ q) = (readPattern? q).map (items ++ ·) := by
  fun_induction readPattern? p generalizing items with
  | case1 =>
    obtain rfl := Option.some.inj h
    simp
  | case2 => cases h
  | case3 d s ih =>
    obtain ⟨rest, hrest, rfl⟩ := Option.map_eq_some_iff.mp h
    rw [List.cons_append, List.cons_append, readPattern?_escape, ih hrest, Option.map_map]
    rfl
  | case4 c s hc ih =>
    obtain ⟨rest, hrest, rfl⟩ := Option.map_eq_some_iff.mp h
    rw [List.cons_append, readPattern?_unescaped hc, ih hrest, Option.map_map]
    rfl

theorem matches_nil {t : List Char} : Matches [] t ↔ t = [] := by
  constructor
  · intro h
    cases h
    rfl
  · rintro rfl
    exact .nil

theorem matches_anyRun (t : List Char) : Matches [.anyRun] t := by
  rw [← List.append_nil t]
  exact .anyRun .nil

theorem matches_append {items items' : List PatternItem} {t : List Char} :
    Matches (items ++ items') t ↔ ∃ u v, t = u ++ v ∧ Matches items u ∧ Matches items' v := by
  constructor
  · intro h
    induction items generalizing t with
    | nil => exact ⟨[], t, rfl, .nil, h⟩
    | cons item items ih =>
      cases h with
      | char h =>
        obtain ⟨u, v, rfl, hu, hv⟩ := ih h
        exact ⟨_, v, rfl, .char hu, hv⟩
      | anyChar h =>
        obtain ⟨u, v, rfl, hu, hv⟩ := ih h
        exact ⟨_, v, rfl, .anyChar hu, hv⟩
      | anyRun h =>
        obtain ⟨u, v, rfl, hu, hv⟩ := ih h
        exact ⟨_, v, (List.append_assoc ..).symm, .anyRun hu, hv⟩
  · rintro ⟨u, v, rfl, hu, hv⟩
    induction hu with
    | nil => exact hv
    | char _ ih => exact .char ih
    | anyChar _ ih => exact .anyChar ih
    | anyRun _ ih =>
      rw [List.append_assoc]
      exact .anyRun ih

theorem matches_chars {s t : List Char} : Matches (s.map .char) t ↔ t = s := by
  constructor
  · intro h
    induction s generalizing t with
    | nil => exact matches_nil.mp h
    | cons c s ih =>
      cases h with
      | char h => rw [ih h]
  · rintro rfl
    induction t with
    | nil => exact .nil
    | cons c t ih => exact .char ih

/-! ## Escaped texts -/

/-- Every character of an escaped text is read as itself. -/
theorem readPattern?_literalPattern (s : String) :
    readPattern? (Quote.literalPattern s).toList = some (s.toList.map .char) := by
  rw [Quote.literalPattern, String.toList_ofList]
  induction s.toList with
  | nil => rfl
  | cons c cs ih =>
    rw [List.flatMap_cons]
    split
    · rw [List.cons_append, List.cons_append, List.nil_append, readPattern?_escape, ih]
      rfl
    · next hplain =>
      rw [not_or, not_or] at hplain
      obtain ⟨hpercent, hunderscore, hescape⟩ := hplain
      have hitem : PatternItem.ofChar c = .char c := by
        rw [PatternItem.ofChar, if_neg hpercent, if_neg hunderscore]
      rw [List.cons_append, List.nil_append, readPattern?_unescaped hescape, ih, hitem]
      rfl

/-- A pattern around an escaped text matches that text between what the two parts of the pattern match. -/
theorem like?_around {front back : String} {items items' : List PatternItem}
    (hfront : readPattern? front.toList = some items) (hback : readPattern? back.toList = some items') (s t : String)
    {P : Prop} [Decidable P]
    (hP : (∃ u v, t.toList = u ++ (s.toList ++ v) ∧ Matches items u ∧ Matches items' v) ↔ P) :
    like? t (front ++ Quote.literalPattern s ++ back) = some (decide P) := by
  have hread : readPattern? (front ++ Quote.literalPattern s ++ back).toList =
      some (items ++ (s.toList.map .char ++ items')) := by
    rw [String.toList_append, String.toList_append, List.append_assoc, readPattern?_append hfront,
      readPattern?_append (readPattern?_literalPattern s), hback]
    rfl
  have hmatches : Matches (items ++ (s.toList.map .char ++ items')) t.toList ↔ P := by
    rw [← hP, matches_append]
    constructor
    · rintro ⟨u, w, ht, hu, hw⟩
      obtain ⟨s', v, rfl, hs, hv⟩ := matches_append.mp hw
      rw [matches_chars.mp hs] at ht
      exact ⟨u, v, ht, hu, hv⟩
    · rintro ⟨u, v, ht, hu, hv⟩
      exact ⟨u, _, ht, hu, matches_append.mpr ⟨_, v, rfl, matches_chars.mpr rfl, hv⟩⟩
  rw [like?, hread, Option.map_some, decide_eq_decide.mpr hmatches]

/-- An escaped text matches itself only; with a run of any characters after it the texts that begin with it, with one
    before it those that end with it, and with both those that have it in them. -/
theorem like_literalPattern (s t : String) :
    like? t (Quote.literalPattern s) = some (decide (t = s)) ∧
      like? t (Quote.literalPattern s ++ "%") = some (decide (s.toList <+: t.toList)) ∧
      like? t ("%" ++ Quote.literalPattern s) = some (decide (s.toList <:+ t.toList)) ∧
      like? t ("%" ++ Quote.literalPattern s ++ "%") = some (decide (s.toList <:+: t.toList)) := by
  have hnone : readPattern? "".toList = some [] := rfl
  have hrun : readPattern? "%".toList = some [.anyRun] := rfl
  have hself : (∃ u v, t.toList = u ++ (s.toList ++ v) ∧ Matches [] u ∧ Matches [] v) ↔ t = s := by
    simp [matches_nil, String.toList_inj]
  have hbegins : (∃ u v, t.toList = u ++ (s.toList ++ v) ∧ Matches [] u ∧ Matches [.anyRun] v) ↔
      s.toList <+: t.toList := by
    simp [matches_nil, matches_anyRun, List.IsPrefix, eq_comm]
  have hends : (∃ u v, t.toList = u ++ (s.toList ++ v) ∧ Matches [.anyRun] u ∧ Matches [] v) ↔
      s.toList <:+ t.toList := by
    simp [matches_nil, matches_anyRun, List.IsSuffix, eq_comm]
  have hwithin : (∃ u v, t.toList = u ++ (s.toList ++ v) ∧ Matches [.anyRun] u ∧ Matches [.anyRun] v) ↔
      s.toList <:+: t.toList := by
    simp [matches_anyRun, List.IsInfix, eq_comm]
  refine ⟨?_, ?_, ?_, like?_around hrun hrun s t hwithin⟩
  · simpa using like?_around hnone hnone s t hself
  · simpa using like?_around hnone hrun s t hbegins
  · simpa using like?_around hrun hnone s t hends

end TreeSql.Quoting
