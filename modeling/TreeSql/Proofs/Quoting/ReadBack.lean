import TreeSql.Postgres.Quote
import TreeSql.Text.Digits

/-
  TreeSql.Proofs.Quoting.ReadBack — quoted names and strings read back as what they were written for.

  `readString?` reads an `E''` literal at the head of a text as the server does, and `readIdentifier?` a name in
  double quotes. Both read up to the first quote that is not doubled (`readBody?`); in a string a backslash begins
  an escape. They give what is quoted, and the text after the token.

  A name and a string are written character by character, and what is written for a character is read as that
  character whatever follows (`readBody?_flatMap`). So the token ends where it was written to end, unless the text
  after it begins with one more quote (`readBody?_closing_iff`). `read_quoted` puts this together.
-/
namespace TreeSql.Quoting

open Postgres

/-! ## Escapes -/

/-- The escapes of control characters. -/
def letterEscapes : List (Char × Char) :=
  [('b', '\x08'), ('f', '\x0c'), ('n', '\n'), ('r', '\r'), ('t', '\t')]

/-- A character by its number in a base: between `least` and `most` digits, and a number below the limit, but not
    zero. -/
def readNumbered? (base least most limit : Nat) (s : List Char) : Option (Char × List Char) :=
  let ds := (s.take most).takeWhile fun c => (Text.hexValue? c).any (· < base)
  let n := ds.foldl (fun n c => base * n + (Text.hexValue? c).getD 0) 0
  if least ≤ ds.length ∧ 0 < n ∧ n < limit ∧ n.isValidChar then some (Char.ofNat n, s.drop ds.length) else none

/-- Reads what stands after a backslash: a letter for a control character, the number of a character, or the character
    itself. A byte by its number has to be a whole character, and surrogates are refused. -/
def readEscape? : List Char → Option (Char × List Char)
  | [] => none
  | c :: s =>
    match letterEscapes.lookup c with
    | some d => some (d, s)
    | none =>
      if c = 'u' then readNumbered? 16 4 4 0x110000 s
      else if c = 'U' then readNumbered? 16 8 8 0x110000 s
      else if c = 'x' ∧ (s.head?.bind Text.hexValue?).isSome then readNumbered? 16 1 2 128 s
      else if (Text.hexValue? c).any (· < 8) then readNumbered? 8 1 3 128 (c :: s)
      else some (c, s)

theorem length_readNumbered? {base least most limit : Nat} {s r : List Char} {d : Char}
    (h : readNumbered? base least most limit s = some (d, r)) : r.length + least ≤ s.length := by
  unfold readNumbered? at h
  dsimp only at h
  split at h
  · next hleast =>
    obtain ⟨-, rfl⟩ := Prod.mk.inj (Option.some.inj h)
    have hmost := (List.takeWhile_sublist (fun c => (Text.hexValue? c).any (· < base)) (l := s.take most)).length_le
    rw [List.length_take] at hmost
    rw [List.length_drop]
    omega
  · cases h

theorem length_readEscape? {s r : List Char} {d : Char} (h : readEscape? s = some (d, r)) : r.length < s.length := by
  cases s with
  | nil => cases h
  | cons c s =>
    rw [List.length_cons]
    simp only [readEscape?] at h
    split at h
    · cases h
      omega
    · split at h
      · have := length_readNumbered? h
        omega
      split at h
      · have := length_readNumbered? h
        omega
      split at h
      · have := length_readNumbered? h
        omega
      split at h
      · have := length_readNumbered? h
        rw [List.length_cons] at this
        omega
      · cases h
        omega

/-! ## Tokens in quotes -/

/-- Reads up to the closing quote. A doubled quote stands for one, and a backslash begins an escape if there are any. -/
def readBody? (quote : Char) (escapes : Bool) : List Char → Option (List Char × List Char)
  | [] => none
  | c :: s =>
    if c = quote then
      match s with
      | d :: s => if d = quote then (readBody? quote escapes s).map (Prod.map (quote :: ·) id) else some ([], d :: s)
      | [] => some ([], [])
    else if escapes && c == '\\' then
      match _h : readEscape? s with
      | some (d, r) => (readBody? quote escapes r).map (Prod.map (d :: ·) id)
      | none => none
    else (readBody? quote escapes s).map (Prod.map (c :: ·) id)
termination_by s => s.length
decreasing_by
  · simp only [List.length_cons]
    omega
  · have := length_readEscape? _h
    simp only [List.length_cons]
    omega
  · simp only [List.length_cons]
    omega

/-- An `E''` literal at the head of a text, and the text after it. A literal on the next line, which the server would
    join to this one, is a token of its own here. -/
def readString? (text : String) : Option (String × String) :=
  match text.toList with
  | c :: '\'' :: s =>
    if c = 'E' ∨ c = 'e' then (readBody? '\'' true s).map (Prod.map String.ofList String.ofList) else none
  | _ => none

/-- A name in double quotes at the head of a text, and the text after it. -/
def readIdentifier? (text : String) : Option (String × String) :=
  match text.toList with
  | '"' :: s => (readBody? '"' false s).map (Prod.map String.ofList String.ofList)
  | _ => none

/-! ## What is written is read -/

section

variable {quote : Char} {escapes : Bool}

theorem readBody?_quote (rest : List Char) : readBody? quote escapes (quote :: quote :: rest) =
    (readBody? quote escapes rest).map (Prod.map (quote :: ·) id) := by
  rw [readBody?, if_pos rfl, if_pos rfl]

theorem readBody?_plain {c : Char} (hquote : c ≠ quote) (hescape : (escapes && c == '\\') = false) (rest : List Char) :
    readBody? quote escapes (c :: rest) = (readBody? quote escapes rest).map (Prod.map (c :: ·) id) := by
  rw [readBody?.eq_def]
  simp [hquote, hescape]

theorem readBody?_escape {c : Char} {s rest : List Char} (hquote : quote ≠ '\\') (h : readEscape? s = some (c, rest)) :
    readBody? quote true ('\\' :: s) = (readBody? quote true rest).map (Prod.map (c :: ·) id) := by
  rw [readBody?.eq_def]
  simp only [hquote.symm, if_false, beq_self_eq_true, Bool.and_self, if_true]
  split
  · next hread =>
    rw [h] at hread
    cases hread
    rfl
  · next hread =>
    rw [h] at hread
    cases hread

/-- A text of which each character is read from what is written for it. -/
theorem readBody?_flatMap {write : Char → List Char}
    (hwrite : ∀ c rest, readBody? quote escapes (write c ++ rest) =
      (readBody? quote escapes rest).map (Prod.map (c :: ·) id)) (s rest : List Char) :
    readBody? quote escapes (s.flatMap write ++ rest) =
      (readBody? quote escapes rest).map (Prod.map (s ++ ·) id) := by
  induction s with
  | nil =>
    have hid : Prod.map (([] : List Char) ++ ·) (id : List Char → List Char) = id := rfl
    rw [hid, Option.map_id]
    rfl
  | cons c s ih =>
    rw [List.flatMap_cons, List.append_assoc, hwrite, ih, Option.map_map]
    rfl

/-- The token ends at the quote, unless there is another quote after it. -/
theorem readBody?_closing_iff (s r : List Char) :
    (readBody? quote escapes (quote :: r)).map (Prod.map (s ++ ·) id) = some (s, r) ↔ r.head? ≠ some quote := by
  cases r with
  | nil => simp [readBody?]
  | cons d r =>
    by_cases hd : d = quote
    · -- the doubled quote would be part of what is read
      subst hd
      simp only [readBody?_quote, List.head?_cons, ne_eq, not_true_eq_false, iff_false, Option.map_map,
        Option.map_eq_some_iff, not_exists, not_and]
      intro p _ heq
      have hlength := congrArg (List.length ∘ Prod.fst) heq
      simp at hlength
    · rw [readBody?, if_pos rfl]
      simp [hd]

end

theorem readBody?_doubleQuotes (s rest : List Char) : readBody? '"' false (Quote.doubleQuotes s ++ rest) =
    (readBody? '"' false rest).map (Prod.map (s ++ ·) id) := by
  refine readBody?_flatMap (fun c rest => ?_) s rest
  by_cases hc : c = '"'
  · subst hc
    exact readBody?_quote rest
  · rw [if_neg hc]
    exact readBody?_plain hc rfl rest

theorem readBody?_escapeString (s rest : List Char) : readBody? '\'' true (Quote.escapeString s ++ rest) =
    (readBody? '\'' true rest).map (Prod.map (s ++ ·) id) := by
  refine readBody?_flatMap (fun c rest => ?_) s rest
  have hitself {c : Char} (hc : c = '\\' ∨ c = '\'') : readEscape? (c :: rest) = some (c, rest) := by
    rcases hc with rfl | rfl
    · rfl
    · rfl
  by_cases hbackslash : c = '\\'
  · subst hbackslash
    exact readBody?_escape (by decide) (hitself (.inl rfl))
  by_cases hquote : c = '\''
  · subst hquote
    exact readBody?_escape (by decide) (hitself (.inr rfl))
  · rw [if_neg hbackslash, if_neg hquote]
    exact readBody?_plain hquote (by simpa using hbackslash) rest

theorem map_ofList_eq_some {x : Option (List Char × List Char)} {s r : String} :
    x.map (Prod.map String.ofList String.ofList) = some (s, r) ↔ x = some (s.toList, r.toList) := by
  constructor
  · intro h
    obtain ⟨p, rfl, hp⟩ := Option.map_eq_some_iff.mp h
    obtain ⟨rfl, rfl⟩ := Prod.mk.inj hp
    simp
  · rintro rfl
    simp

theorem readString?_iff (s r : String) :
    readString? (Quote.string s ++ r) = some (s, r) ↔ r.toList.head? ≠ some '\'' := by
  have hread : readString? (Quote.string s ++ r) =
      (readBody? '\'' true (Quote.escapeString s.toList ++ '\'' :: r.toList)).map
        (Prod.map String.ofList String.ofList) := by
    simp [readString?, Quote.string]
  rw [hread, map_ofList_eq_some, readBody?_escapeString, readBody?_closing_iff]

theorem readIdentifier?_iff (s r : String) :
    readIdentifier? (Quote.identifier s ++ r) = some (s, r) ↔ r.toList.head? ≠ some '"' := by
  have hread : readIdentifier? (Quote.identifier s ++ r) =
      (readBody? '"' false (Quote.doubleQuotes s.toList ++ '"' :: r.toList)).map
        (Prod.map String.ofList String.ofList) := by
    simp [readIdentifier?, Quote.identifier]
  rw [hread, map_ofList_eq_some, readBody?_doubleQuotes, readBody?_closing_iff]

/-- The two ways to write a name agree. -/
theorem appendIdentifier_eq (out s : String) : Quote.appendIdentifier out s = out ++ Quote.identifier s := by
  have hbody (cs : List Char) (out : String) :
      (cs.foldl (fun out c => if c = '"' then (out.push '"').push c else out.push c) out).toList =
        out.toList ++ Quote.doubleQuotes cs := by
    induction cs generalizing out with
    | nil => simp [Quote.doubleQuotes]
    | cons c cs ih =>
      rw [List.foldl_cons, ih]
      by_cases hc : c = '"'
      · simp [hc, Quote.doubleQuotes]
      · simp [hc, Quote.doubleQuotes]
  apply String.toList_inj.mp
  rw [Quote.appendIdentifier, String.toList_push, hbody]
  simp [Quote.identifier]

/-- A string and a name are read back from what is written for them, with the text after it left over, exactly when that
    does not begin with one more quote; and names are written in one way. -/
theorem read_quoted (s r : String) :
    (readString? (Quote.string s ++ r) = some (s, r) ↔ r.toList.head? ≠ some '\'') ∧
      (readIdentifier? (Quote.identifier s ++ r) = some (s, r) ↔ r.toList.head? ≠ some '"') ∧
      ∀ out, Quote.appendIdentifier out s = out ++ Quote.identifier s :=
  ⟨readString?_iff s r, readIdentifier?_iff s r, fun out => appendIdentifier_eq out s⟩

/-- Escapes of the reader that writing does not use. -/
example : readString? "e'\\x41\\102\\u00e9\\t''\\q' OR" = some ("ABé\t'q", " OR") := by
  decide +kernel

end TreeSql.Quoting
