import TreeSql.Proofs.Quoting.Lexer
import TreeSql.Sql.Render

/-
  TreeSql.Proofs.Joins.Words — the words of an SQL text.

  A text is cut at its spaces, but at none in quotes or parentheses. So a quoted name is one word
  (`words?_identifier`), and all that stands in parentheses is one (`words?_inParens`). The characters are read as
  `scan` reads them: exactly the closed texts have words (`words?_isSome_iff`). With spaces between them the words
  are the text again (`intercalate_words`).
-/
namespace TreeSql.Quoting

open Sql Postgres

/-! ## Cutting -/

/-- Whether a character is a space between words. -/
def isGap (p : Place) (c : Char) : Bool := c == ' ' && p.depth == 0 && p.mode.isOutside

/-- The words of a text, the first of which has begun before it. -/
def cut (p : Place) (begun : List Char) : List Char → Option (List (List Char))
  | [] => if p.mode.isOutside && p.depth == 0 then some [begun] else none
  | c :: s =>
    if isGap p c then (cut ⟨.between, 0⟩ [] s).map (begun :: ·)
    else (step p c).bind fun q => cut q (begun ++ [c]) s

/-- The words of a text that is closed. -/
def words? (text : String) : Option (List String) :=
  (cut ⟨.between, 0⟩ [] text.toList).map (·.map String.ofList)

example : words? "\"a b\" AS f(1, 'x y')" = some ["\"a b\"", "AS", "f(1, 'x y')"] := by decide

variable {p q : Place} {c : Char} {begun s s' : List Char} {ws : List (List Char)}

theorem step_of_isGap (h : isGap p c = true) : step p c = some ⟨.between, 0⟩ := by
  obtain ⟨m, d⟩ := p
  simp only [isGap, Bool.and_eq_true, beq_iff_eq] at h
  obtain ⟨⟨rfl, rfl⟩, hm⟩ := h
  cases m <;> first | rfl | cases hm

/-- How a text is cut, character by character. -/
inductive Cuts : Place → List Char → List Char → List (List Char) → Prop
  | last {p : Place} {begun : List Char} (hend : isGap p ' ' = true) : Cuts p begun [] [begun]
  | gap {p : Place} {begun s : List Char} {ws : List (List Char)} (hgap : isGap p ' ' = true)
      (h : Cuts ⟨.between, 0⟩ [] s ws) : Cuts p begun (' ' :: s) (begun :: ws)
  | char {p q : Place} {c : Char} {begun s : List Char} {ws : List (List Char)} (hgap : isGap p c = false)
      (hstep : step p c = some q) (h : Cuts q (begun ++ [c]) s ws) : Cuts p begun (c :: s) ws

theorem cuts_of_cut (h : cut p begun s = some ws) : Cuts p begun s ws := by
  induction s generalizing p begun ws with
  | nil =>
    rw [cut] at h
    split at h
    · rename_i hend
      obtain rfl := Option.some.inj h
      exact .last (by simpa [isGap, and_comm] using hend)
    · cases h
  | cons c s ih =>
    rw [cut] at h
    split at h
    · rename_i hgap
      obtain ⟨ws, hws, rfl⟩ := Option.map_eq_some_iff.mp h
      obtain rfl : c = ' ' := by
        simp only [isGap, Bool.and_eq_true, beq_iff_eq] at hgap
        exact hgap.1.1
      exact .gap hgap (ih hws)
    · rename_i hgap
      obtain ⟨q, hstep, hrest⟩ := Option.bind_eq_some_iff.mp h
      exact .char (Bool.eq_false_iff.mpr hgap) hstep (ih hrest)

/-- After the words of a text and a space, cutting begins anew. -/
theorem Cuts.append (h : Cuts p begun s ws) :
    cut p begun (s ++ ' ' :: s') = (cut ⟨.between, 0⟩ [] s').map (ws ++ ·) := by
  induction h with
  | last hend =>
    rw [List.nil_append, cut, if_pos hend]
    rfl
  | gap hgap _ ih =>
    rw [List.cons_append, cut, if_pos hgap, ih, Option.map_map]
    rfl
  | char hgap hstep _ ih =>
    rw [List.cons_append, cut, if_neg (Bool.eq_false_iff.mp hgap), hstep, Option.bind_some, ih]

theorem Cuts.ne_nil (h : Cuts p begun s ws) : ws ≠ [] := by
  induction h with
  | last => exact List.cons_ne_nil _ _
  | gap => exact List.cons_ne_nil _ _
  | char _ _ _ ih => exact ih

theorem Cuts.intercalate (h : Cuts p begun s ws) : [' '].intercalate ws = begun ++ s := by
  induction h with
  | last => rw [List.intercalate_singleton, List.append_nil]
  | @gap p begun s ws _ h ih =>
    cases ws with
    | nil => exact absurd rfl h.ne_nil
    | cons w ws => rw [List.intercalate_cons_cons, ih, List.nil_append, List.append_assoc, List.singleton_append]
  | char _ _ _ ih => rw [ih, List.append_assoc, List.singleton_append]

theorem cut_isSome_iff :
    (cut p begun s).isSome = true ↔ ∃ m : Mode, m.isOutside = true ∧ scan p s = some ⟨m, 0⟩ := by
  induction s generalizing p begun with
  | nil =>
    obtain ⟨m, d⟩ := p
    constructor
    · intro h
      have hend : m.isOutside = true ∧ d = 0 := by simpa [cut] using h
      obtain ⟨hm, rfl⟩ := hend
      exact ⟨m, hm, rfl⟩
    · rintro ⟨m', hm, hscan⟩
      obtain ⟨rfl, rfl⟩ : m = m' ∧ d = 0 := by simpa [scan] using hscan
      simp [cut, hm]
  | cons c s ih =>
    rw [cut, scan_cons]
    split
    · rename_i hgap
      rw [step_of_isGap hgap, Option.bind_some, Option.isSome_map, ih]
    · cases step p c with
      | none => simp
      | some q => exact ih

/-! ## Words in one piece -/

/-- Reads a character that is not between words. -/
def within (p : Place) (c : Char) : Option Place := if isGap p c then none else step p c

/-- Reads a text that is a part of a word. -/
def scanWithin (p : Place) (s : List Char) : Option Place := s.foldlM within p

theorem scanWithin_cons (p : Place) (c : Char) (s : List Char) :
    scanWithin p (c :: s) = (within p c).bind (scanWithin · s) :=
  List.foldlM_cons

theorem scanWithin_append (p : Place) (s s' : List Char) :
    scanWithin p (s ++ s') = (scanWithin p s).bind (scanWithin · s') :=
  List.foldlM_append

theorem cut_within (h : scanWithin p s = some q) : cut p begun (s ++ s') = cut q (begun ++ s) s' := by
  induction s generalizing p begun with
  | nil =>
    obtain rfl := Option.some.inj h
    rw [List.nil_append, List.append_nil]
  | cons c s ih =>
    rw [scanWithin_cons] at h
    obtain ⟨r, hstep, hrest⟩ := Option.bind_eq_some_iff.mp h
    unfold within at hstep
    split at hstep
    · cases hstep
    · rename_i hgap
      rw [List.cons_append, cut, if_neg hgap, hstep, Option.bind_some, ih hrest, List.append_assoc,
        List.singleton_append]

theorem words?_of_within {text : String} {m : Mode} (h : scanWithin ⟨.between, 0⟩ text.toList = some ⟨m, 0⟩)
    (hm : m.isOutside = true) : words? text = some [text] := by
  have hcut : cut ⟨.between, 0⟩ [] (text.toList ++ []) = cut ⟨m, 0⟩ ([] ++ text.toList) [] := cut_within h
  rw [List.append_nil, List.nil_append] at hcut
  rw [words?, hcut, cut, if_pos (by simp [hm])]
  simp

/-- Nothing in parentheses is between words. -/
theorem scanWithin_under (h : scan p s = some q) : scanWithin (p.under 1) s = some (q.under 1) := by
  induction s generalizing p with
  | nil =>
    obtain rfl := Option.some.inj h
    rfl
  | cons c s ih =>
    rw [scan_cons] at h
    obtain ⟨r, hstep, hrest⟩ := Option.bind_eq_some_iff.mp h
    have hwithin : within (p.under 1) c = some (r.under 1) := by
      have hgap : isGap (p.under 1) c = false := by simp [isGap, Place.under]
      rw [within, hgap, if_neg Bool.false_ne_true]
      exact step_under hstep 1
    rw [scanWithin_cons, hwithin, Option.bind_some, ih hrest]

theorem words?_inParens {text : String} (h : Closed text) : words? (inParens text) = some [inParens text] := by
  obtain ⟨m, hm, hscan⟩ := h
  have hopen : within ⟨.between, 0⟩ '(' = some ⟨.between, 1⟩ := rfl
  have hbody : scanWithin ⟨.between, 1⟩ text.toList = some ⟨m, 1⟩ := scanWithin_under hscan
  have hclose : scanWithin ⟨m, 1⟩ [')'] = some ⟨.between, 0⟩ := by cases m <;> first | rfl | cases hm
  have htext : (inParens text).toList = '(' :: (text.toList ++ [')']) := by simp [inParens]
  refine words?_of_within (m := .between) ?_ rfl
  rw [htext, scanWithin_cons, hopen, Option.bind_some, scanWithin_append, hbody, Option.bind_some, hclose]

theorem scanWithin_inName (cs : List Char) : scanWithin ⟨.inName, 0⟩ (Quote.doubleQuotes cs) = some ⟨.inName, 0⟩ := by
  induction cs with
  | nil => rfl
  | cons c cs ih =>
    rw [Quote.doubleQuotes, List.flatMap_cons, scanWithin_append]
    by_cases hc : c = '"'
    · rw [if_pos hc]
      exact ih
    · have hstep : within ⟨.inName, 0⟩ c = some ⟨.inName, 0⟩ := by simp [within, isGap, Mode.isOutside, step, hc]
      rw [if_neg hc, scanWithin_cons, hstep]
      exact ih

theorem words?_identifier (name : String) : words? (Quote.identifier name) = some [Quote.identifier name] := by
  have hopen : within ⟨.between, 0⟩ '"' = some ⟨.inName, 0⟩ := rfl
  have hclose : scanWithin ⟨.inName, 0⟩ ['"'] = some ⟨.afterName, 0⟩ := rfl
  refine words?_of_within (m := .afterName) ?_ rfl
  rw [Quote.identifier, String.toList_ofList, List.cons_append, scanWithin_cons, hopen, Option.bind_some,
    scanWithin_append, scanWithin_inName, Option.bind_some, hclose]

/-! ## Texts -/

variable {text text' : String} {words words' : List String}

theorem words?_isSome_iff : (words? text).isSome = true ↔ Closed text := by
  rw [words?, Option.isSome_map, cut_isSome_iff, Closed]

theorem closed_of_words? (h : words? text = some words) : Closed text :=
  words?_isSome_iff.mp (by rw [h, Option.isSome_some])

theorem intercalate_words (h : words? text = some words) : " ".intercalate words = text := by
  obtain ⟨ws, hws, rfl⟩ := Option.map_eq_some_iff.mp h
  rw [← String.toList_inj, String.toList_intercalate, List.map_map]
  have hchars : List.map (String.toList ∘ String.ofList) ws = ws := by simp
  rw [hchars]
  exact (cuts_of_cut hws).intercalate

/-- The words of two texts with a space between them. -/
theorem words?_append (h : words? text = some words) (h' : words? text' = some words') :
    words? (text ++ " " ++ text') = some (words ++ words') := by
  obtain ⟨ws, hws, rfl⟩ := Option.map_eq_some_iff.mp h
  obtain ⟨ws', hws', rfl⟩ := Option.map_eq_some_iff.mp h'
  have htext : (text ++ " " ++ text').toList = text.toList ++ ' ' :: text'.toList := by simp
  rw [words?, htext, (cuts_of_cut hws).append, hws']
  simp

end TreeSql.Quoting
