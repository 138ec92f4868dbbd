import TreeSql.Json.Reader
import TreeSql.Json.Written
import TreeSql.Proofs.Text.Runs

/-
  TreeSql.Proofs.Json.Text — JSON text reads back as the value that it was written for.

  The tokens of a value are its own (`Valid`): each number is one that the reader takes whole, and each
  string or name ends at the quote after it. The decimal digits of an integer are such a number, and every
  escaped text is such a string, which stands for the text again (`unescape?_escape`).

  A value that is valid is read from its text on lines, in front of anything that does not go on with a number
  (`Valid.read`). The reader needs no more fuel than there are characters, so the whole text gives the value
  (`ofText?_pretty`).
-/
namespace TreeSql.Json

/-! ## Strings -/

/-- Characters that end at the first quote after them. -/
def IsQuoted (escaped : List Char) : Prop := ∀ rest, readQuoted? (escaped ++ '"' :: rest) = some (escaped, rest)

/-- What the escape of a character may be: a letter after a backslash, four digits of a control character, or the
    character itself. -/
theorem escapeChar_cases (c : Char) :
    (∃ letter, escapeChar c = ['\\', letter] ∧ letter ≠ 'u' ∧ letter? letter = some c) ∨
      (∃ a b d e, escapeChar c = ['\\', 'u', a, b, d, e] ∧ Text.hexDigitsValue? [a, b, d, e] = some c.toNat ∧
        scalar? c.toNat = some c) ∨
      (escapeChar c = [c] ∧ c ≠ '"' ∧ c ≠ '\\' ∧ 32 ≤ c.toNat) := by
  have hletters : ∀ p ∈ letterEscapes, p.2 ≠ 'u' ∧ letter? p.2 = some p.1 := by decide
  have hcontrols : ∀ n < 32,
      (Text.paddedHex 4 n).length = 4 ∧ Text.hexDigitsValue? (Text.paddedHex 4 n) = some n := by decide
  unfold escapeChar
  split
  · next letter hlookup =>
    obtain ⟨as, bs, heq, -⟩ := List.lookup_eq_some_iff.mp hlookup
    obtain ⟨hne, hletter⟩ := hletters (c, letter) (heq ▸ List.mem_append_right _ List.mem_cons_self)
    exact .inl ⟨letter, rfl, hne, hletter⟩
  · next hlookup =>
    right
    split
    · next hcontrol =>
      left
      obtain ⟨hlength, hvalue⟩ := hcontrols _ hcontrol
      obtain ⟨a, b, d, e, hdigits⟩ := List.length_eq_four.mp hlength
      refine ⟨a, b, d, e, by rw [hdigits], hdigits ▸ hvalue, ?_⟩
      have hvalid : c.toNat.isValidChar := c.valid
      rw [scalar?, if_pos hvalid, Char.ofNat_toNat]
    · next hcontrol =>
      right
      refine ⟨rfl, ?_, ?_, Nat.le_of_not_lt hcontrol⟩
      · rintro rfl
        cases hlookup
      · rintro rfl
        cases hlookup

theorem readQuoted?_escapeChar (c : Char) (rest : List Char) :
    readQuoted? (escapeChar c ++ rest) = (readQuoted? rest).map fun p => (escapeChar c ++ p.1, p.2) := by
  rcases escapeChar_cases c with ⟨letter, heq, hne, hletter⟩ | ⟨a, b, d, e, heq, hvalue, -⟩ |
    ⟨heq, hquote, hslash, hle⟩
  · rw [heq]
    simp [readQuoted?, hne, hletter]
    cases readQuoted? rest <;> rfl
  · rw [heq]
    simp only [List.cons_append, List.nil_append, readQuoted?, hvalue]
    cases readQuoted? rest <;> rfl
  · rw [heq]
    simp [readQuoted?, hslash, hle]

theorem isQuoted_escape (s : List Char) : IsQuoted (escape s) := by
  intro rest
  induction s with
  | nil => rfl
  | cons c s ih =>
    rw [escape, List.flatMap_cons, List.append_assoc, readQuoted?_escapeChar]
    exact congrArg (Option.map _) ih

theorem unescape?_escapeChar (c : Char) (rest : List Char) :
    unescape? (escapeChar c ++ rest) = (unescape? rest).map (c :: ·) := by
  rcases escapeChar_cases c with ⟨letter, heq, hne, hletter⟩ | ⟨a, b, d, e, heq, hvalue, hscalar⟩ |
    ⟨heq, hquote, hslash, hle⟩
  · rw [heq]
    simp [unescape?, hne, hletter]
    cases unescape? rest <;> rfl
  · rw [heq]
    simp [unescape?, hvalue, hscalar]
    cases unescape? rest <;> rfl
  · rw [heq]
    simp [unescape?, hslash]

/-- An escaped text stands for the text. -/
theorem unescape?_escape (s : List Char) : unescape? (escape s) = some s := by
  induction s with
  | nil => rfl
  | cons c s ih =>
    rw [escape, List.flatMap_cons, unescape?_escapeChar]
    exact congrArg (Option.map _) ih

/-! ## Numbers -/

/-- A text that does not go on with the number before it. -/
def Ends (rest : List Char) : Prop := ∀ c ∈ rest.head?, c.isDigit = false ∧ c ∉ ['.', 'e', 'E']

/-- Characters that are read as a number. -/
structure IsNumber (token : List Char) : Prop where
  head : ∃ c s, token = c :: s ∧ (c = '-' ∨ c.isDigit = true)
  reads : ∀ {rest}, Ends rest → readNumber? (token ++ rest) = some (token, rest)

theorem Ends.noDigit {rest : List Char} (h : Ends rest) : Text.NoDigit rest := fun c hc => (h c hc).1

theorem readFraction?_of_ends {rest : List Char} (h : Ends rest) : readFraction? rest = some ([], rest) := by
  unfold readFraction?
  split
  · exact absurd (h '.' rfl).2 (by decide)
  · rfl

theorem readExponent?_of_ends {rest : List Char} (h : Ends rest) : readExponent? rest = some ([], rest) := by
  unfold readExponent?
  split
  · exact absurd (h 'e' rfl).2 (by decide)
  · exact absurd (h 'E' rfl).2 (by decide)
  · rfl

theorem readWhole?_digits (n : Nat) {rest : List Char} (h : Ends rest) :
    readWhole? (Text.digits n ++ rest) = some (Text.digits n, rest) := by
  by_cases hn : n = 0
  · subst hn
    show readWhole? ('0' :: rest) = some (['0'], rest)
    rw [readWhole?, Text.leadingDigits_of_noDigit h.noDigit]
    rfl
  · have hdigits : ∀ c ∈ Text.digits n, c.isDigit = true := fun c => Text.isDigit_of_mem_digits
    have hhead := Text.head?_digits hn
    have hrun : splitDigits? (Text.digits n ++ rest) = some (Text.digits n, rest) := by
      rw [splitDigits?, Text.leadingDigits_append hdigits h.noDigit, Text.afterDigits_append hdigits h.noDigit]
      split
      · next hnil => exact absurd hnil (Text.digits_ne_nil n)
      · rfl
    unfold readWhole?
    split
    · next heq =>
      obtain ⟨c, ds, hc⟩ := List.exists_cons_of_ne_nil (Text.digits_ne_nil n)
      rw [hc] at heq hhead
      exact absurd (congrArg some (List.cons.inj heq).1) hhead
    · exact hrun

theorem readUnsigned?_digits (n : Nat) {rest : List Char} (h : Ends rest) :
    readUnsigned? (Text.digits n ++ rest) = some (Text.digits n, rest) := by
  simp [readUnsigned?, readWhole?_digits n h, readFraction?_of_ends h, readExponent?_of_ends h]

theorem isNumber_digits (n : Nat) : IsNumber (Text.digits n) := by
  obtain ⟨c, ds, hc⟩ := List.exists_cons_of_ne_nil (Text.digits_ne_nil n)
  have hdigit : c.isDigit = true := Text.isDigit_of_mem_digits (hc ▸ List.mem_cons_self)
  refine ⟨⟨c, ds, hc, .inr hdigit⟩, fun {rest} h => ?_⟩
  unfold readNumber?
  split
  · next heq =>
    rw [hc] at heq
    obtain rfl := (List.cons.inj heq).1
    cases hdigit
  · exact readUnsigned?_digits n h

theorem isNumber_integer (i : Int) : IsNumber (Text.integer i).toList := by
  rw [Text.toList_integer]
  split
  · refine ⟨⟨'-', _, rfl, .inl rfl⟩, fun {rest} h => ?_⟩
    show readNumber? ('-' :: (Text.digits i.natAbs ++ rest)) = some ('-' :: Text.digits i.natAbs, rest)
    rw [readNumber?, readUnsigned?_digits _ h]
    rfl
  · exact isNumber_digits _

/-! ## Values -/

/-- The numbers and the strings of a value have the tokens of such. -/
inductive Valid : Json → Prop where
  | null : Valid null
  | bool (b : Bool) : Valid (bool b)
  | number {token : List Char} (h : IsNumber token) : Valid (number token)
  | string {escaped : List Char} (h : IsQuoted escaped) : Valid (string escaped)
  | array {items : List Json} (h : ∀ j ∈ items, Valid j) : Valid (array items)
  | object {fields : List (List Char × Json)} (hnames : ∀ f ∈ fields, IsQuoted f.1) (h : ∀ f ∈ fields, Valid f.2) :
    Valid (object fields)

/-! ### Blanks before a value -/

theorem readValue?_skip (fuel : Nat) (s : List Char) :
    readValue? fuel (Text.skipTokenBlanks s) = readValue? fuel s := by
  cases fuel with
  | zero => simp [readValue?]
  | succ fuel => rw [readValue?, readValue?, Text.skipTokenBlanks_idem]

theorem readItems?_skip (fuel : Nat) (s : List Char) :
    readItems? fuel (Text.skipTokenBlanks s) = readItems? fuel s := by
  cases fuel with
  | zero => simp [readItems?]
  | succ fuel => rw [readItems?, readItems?, readValue?_skip]

theorem readFields?_skip (fuel : Nat) (s : List Char) :
    readFields? fuel (Text.skipTokenBlanks s) = readFields? fuel s := by
  cases fuel with
  | zero => simp [readFields?]
  | succ fuel => rw [readFields?, readFields?, Text.skipTokenBlanks_idem]

theorem skip_newLine (level : Nat) (s : List Char) :
    Text.skipTokenBlanks (newLine level ++ s) = Text.skipTokenBlanks s := by
  refine Text.skipTokenBlanks_append fun c hc => ?_
  rcases List.mem_cons.mp hc with rfl | hc
  · rfl
  · rw [List.eq_of_mem_replicate hc]
    rfl

theorem readItems?_newLine (level fuel : Nat) (s : List Char) :
    readItems? fuel (newLine level ++ s) = readItems? fuel s := by
  rw [← readItems?_skip, skip_newLine, readItems?_skip]

theorem readFields?_newLine (level fuel : Nat) (s : List Char) :
    readFields? fuel (newLine level ++ s) = readFields? fuel s := by
  rw [← readFields?_skip, skip_newLine, readFields?_skip]

theorem ends_newLine (level : Nat) (s : List Char) : Ends (newLine level ++ s) := by
  rintro c ⟨⟩
  decide

/-! ### Reading what is written -/

/-- The text of a value at a level is read as the value. -/
def ReadAt (level : Nat) (j : Json) : Prop :=
  ∀ (fuel : Nat) (rest : List Char), Ends rest → (prettyAt level j).length < fuel →
    readValue? fuel (prettyAt level j ++ rest) = some (j, rest)

theorem ReadAt.of_succ {level : Nat} {j : Json} (h : ∀ (fuel : Nat) (rest : List Char), Ends rest →
    (prettyAt level j).length ≤ fuel → readValue? (fuel + 1) (prettyAt level j ++ rest) = some (j, rest)) :
    ReadAt level j := by
  intro fuel rest hrest hfuel
  obtain ⟨fuel, rfl⟩ := Nat.exists_eq_add_one_of_ne_zero (Nat.ne_of_gt (Nat.zero_lt_of_lt hfuel))
  exact h fuel rest hrest (Nat.le_of_lt_succ hfuel)

theorem readValue?_number (fuel : Nat) {token : List Char} (h : IsNumber token) {rest : List Char}
    (hrest : Ends rest) :
    readValue? (fuel + 1) (token ++ rest) = some (number token, rest) := by
  obtain ⟨c, s, htoken, hc⟩ := h.head
  have hread := h.reads hrest
  have hne {d : Char} (hd : d.isDigit = false) (hminus : '-' ≠ d) : c ≠ d := by
    rcases hc with rfl | hc
    · exact hminus
    · rintro rfl
      exact absurd hc (by simp [hd])
  have hblank : Text.isTokenBlank c = false := by
    simp [Text.isTokenBlank, hne (d := ' '), hne (d := '\t'), hne (d := '\r'), hne (d := '\n')]
  rw [htoken, List.cons_append] at hread ⊢
  rw [readValue?, Text.skipTokenBlanks_of_not_blank hblank]
  split
  -- Every other value starts with a character of its own.
  case h_7 => rw [hread]; rfl
  all_goals exact absurd (List.cons.inj ‹_›).1 (hne (by decide) (by decide))

theorem ends_comma (s : List Char) : Ends (',' :: s) := by
  rintro c ⟨⟩
  decide

/-- The items of an array that is not empty, up to its end. -/
theorem readItems?_joined (level close : Nat) {items : List Json} (hne : items ≠ [])
    (hitems : ∀ j ∈ items, ReadAt level j)
    (fuel : Nat) (hfuel : (joined (',' :: newLine level) (prettyItems level items)).length + 1 < fuel)
    (rest : List Char) :
    readItems? fuel (joined (',' :: newLine level) (prettyItems level items) ++ (newLine close ++ ']' :: rest)) =
      some (items, rest) := by
  induction items generalizing fuel with
  | nil => exact absurd rfl hne
  | cons j js ih =>
    obtain ⟨fuel, rfl⟩ := Nat.exists_eq_add_one_of_ne_zero (Nat.ne_of_gt (Nat.zero_lt_of_lt hfuel))
    rw [List.forall_mem_cons] at hitems
    cases js with
    | nil =>
      simp only [prettyItems, joined, List.intercalate_singleton] at hfuel ⊢
      rw [readItems?, hitems.1 _ _ (ends_newLine _ _) (Nat.lt_of_succ_lt_succ hfuel)]
      simp only [Option.bind_eq_bind, Option.bind_some, skip_newLine]
      rfl
    | cons j' js =>
      simp only [prettyItems, joined, List.intercalate_cons_cons, List.append_assoc, List.cons_append,
        List.length_append, List.length_cons] at hfuel ih ⊢
      have hrest := ih (List.cons_ne_nil _ _) hitems.2 fuel (by omega)
      rw [← readItems?_newLine level] at hrest
      rw [readItems?, hitems.1 _ _ (ends_comma _) (by omega)]
      simp only [Option.bind_eq_bind, Option.bind_some, Text.skipTokenBlanks_of_not_blank
        (show Text.isTokenBlank ',' = false from rfl),
        hrest]
      rfl

/-- The fields of an object that is not empty, up to its end. -/
theorem readFields?_joined (level close : Nat) {fields : List (List Char × Json)} (hne : fields ≠ [])
    (hnames : ∀ f ∈ fields, IsQuoted f.1) (hvalues : ∀ f ∈ fields, ReadAt level f.2)
    (fuel : Nat) (hfuel : (joined (',' :: newLine level) (prettyFields level fields)).length + 1 < fuel)
    (rest : List Char) :
    readFields? fuel (joined (',' :: newLine level) (prettyFields level fields) ++
      (newLine close ++ '\x7d' :: rest)) =
      some (fields, rest) := by
  induction fields generalizing fuel with
  | nil => exact absurd rfl hne
  | cons f fs ih =>
    obtain ⟨name, j⟩ := f
    obtain ⟨fuel, rfl⟩ := Nat.exists_eq_add_one_of_ne_zero (Nat.ne_of_gt (Nat.zero_lt_of_lt hfuel))
    rw [List.forall_mem_cons] at hnames hvalues
    have hquote (s : List Char) : Text.skipTokenBlanks ('"' :: s) = '"' :: s := Text.skipTokenBlanks_of_not_blank rfl
    have hcolon (s : List Char) : Text.skipTokenBlanks (':' :: s) = ':' :: s := Text.skipTokenBlanks_of_not_blank rfl
    have hcomma (s : List Char) : Text.skipTokenBlanks (',' :: s) = ',' :: s := Text.skipTokenBlanks_of_not_blank rfl
    have hvalue {rest : List Char} (hrest : Ends rest) (hfuel : (prettyAt level j).length < fuel) :
        readValue? fuel (' ' :: (prettyAt level j ++ rest)) = some (j, rest) := by
      rw [← readValue?_skip]
      show readValue? fuel (Text.skipTokenBlanks (prettyAt level j ++ rest)) = some (j, rest)
      rw [readValue?_skip]
      exact hvalues.1 _ _ hrest hfuel
    cases fs with
    | nil =>
      simp only [prettyFields, joined, List.intercalate_singleton, quoted, List.append_assoc, List.cons_append,
        List.nil_append, List.length_append, List.length_cons] at hfuel ⊢
      rw [readFields?, hquote]
      simp only [hnames.1 _, Option.bind_eq_bind, Option.bind_some, hcolon]
      rw [hvalue (ends_newLine _ _) (by omega)]
      simp only [Option.bind_some, skip_newLine]
      rfl
    | cons f' fs =>
      simp only [prettyFields, joined, List.intercalate_cons_cons, quoted, List.append_assoc, List.cons_append,
        List.nil_append, List.length_append, List.length_cons] at hfuel ih ⊢
      have hrest := ih (List.cons_ne_nil _ _) hnames.2 hvalues.2 fuel (by omega)
      rw [← readFields?_newLine level] at hrest
      rw [readFields?, hquote]
      simp only [hnames.1 _, Option.bind_eq_bind, Option.bind_some, hcolon]
      rw [hvalue (ends_comma _) (by omega)]
      simp only [Option.bind_some, hcomma, hrest]
      rfl

theorem readValue?_array (fuel : Nat) {s : List Char} {items : List Json} {rest : List Char}
    (h : readItems? fuel s = some (items, rest)) : readValue? (fuel + 1) ('[' :: s) = some (array items, rest) := by
  rw [← readItems?_skip] at h
  rw [readValue?, Text.skipTokenBlanks_of_not_blank rfl]
  simp only
  split
  · next hclose =>
    -- No item starts with a closing bracket.
    rw [hclose] at h
    cases fuel with
    | zero => simp [readItems?] at h
    | succ fuel =>
      cases fuel with
      | zero => simp [readItems?, readValue?] at h
      | succ fuel =>
        simp [readItems?, readValue?, Text.skipTokenBlanks, Text.isTokenBlank, readNumber?, readUnsigned?, readWhole?,
          splitDigits?, Text.leadingDigits] at h
  · rw [h]
    rfl

theorem readValue?_object (fuel : Nat) {s : List Char} {fields : List (List Char × Json)} {rest : List Char}
    (h : readFields? fuel s = some (fields, rest)) :
    readValue? (fuel + 1) ('\x7b' :: s) = some (object fields, rest) := by
  rw [← readFields?_skip] at h
  rw [readValue?, Text.skipTokenBlanks_of_not_blank rfl]
  simp only
  split
  · next hclose =>
    -- No field starts with a closing brace.
    rw [hclose] at h
    cases fuel with
    | zero => simp [readFields?] at h
    | succ fuel => simp [readFields?, Text.skipTokenBlanks, Text.isTokenBlank] at h
  · rw [h]
    rfl

/-- A valid value is read from its text on lines. -/
theorem Valid.read {j : Json} (h : j.Valid) (level : Nat) : ReadAt level j := by
  induction h generalizing level with
  | null =>
    refine .of_succ fun fuel rest _ _ => ?_
    show readValue? (fuel + 1) ('n' :: 'u' :: 'l' :: 'l' :: rest) = some (Json.null, rest)
    rw [readValue?]
    rfl
  | bool b =>
    refine .of_succ fun fuel rest _ _ => ?_
    cases b with
    | true =>
      show readValue? (fuel + 1) ('t' :: 'r' :: 'u' :: 'e' :: rest) = some (Json.bool true, rest)
      rw [readValue?]
      rfl
    | false =>
      show readValue? (fuel + 1) ('f' :: 'a' :: 'l' :: 's' :: 'e' :: rest) = some (Json.bool false, rest)
      rw [readValue?]
      rfl
  | number h => exact .of_succ fun fuel _ hrest _ => readValue?_number fuel h hrest
  | @string escaped h =>
    refine .of_succ fun fuel rest _ _ => ?_
    rw [prettyAt, quoted, List.cons_append, List.cons_append, List.append_assoc, readValue?,
      Text.skipTokenBlanks_of_not_blank rfl]
    show (readQuoted? (escaped ++ '"' :: rest)).map _ = some (Json.string escaped, rest)
    rw [h rest]
    rfl
  | @array items _ ih =>
    refine .of_succ fun fuel rest _ hfuel => ?_
    cases items with
    | nil =>
      show readValue? (fuel + 1) ('[' :: ']' :: rest) = some (Json.array [], rest)
      rw [readValue?]
      rfl
    | cons j js =>
      simp only [prettyAt, prettyItems, block, List.append_assoc, List.cons_append, List.nil_append, List.length_append,
        List.length_cons] at hfuel ⊢
      refine readValue?_array fuel ?_
      rw [readItems?_newLine]
      exact readItems?_joined (level + 1) level (List.cons_ne_nil j js) (fun j' hj => ih j' hj _) fuel
        (by simp only [prettyItems]; omega) rest
  | @object fields hnames _ ih =>
    refine .of_succ fun fuel rest _ hfuel => ?_
    cases fields with
    | nil =>
      show readValue? (fuel + 1) ('\x7b' :: '\x7d' :: rest) = some (Json.object [], rest)
      rw [readValue?]
      rfl
    | cons f fs =>
      obtain ⟨name, j⟩ := f
      have hjoined := readFields?_joined (level + 1) level (List.cons_ne_nil _ fs) hnames (fun f hf => ih f hf _) fuel
      simp only [prettyAt, prettyFields, block, List.append_assoc, List.cons_append, List.nil_append,
        List.length_append, List.length_cons] at hfuel hjoined ⊢
      refine readValue?_object fuel ?_
      rw [readFields?_newLine]
      exact hjoined (by omega) rest

/-- The whole text of a valid value gives the value. -/
theorem ofText?_pretty {j : Json} (h : j.Valid) : ofText? j.pretty = some j := by
  have hends : Ends [] := by
    rintro c ⟨⟩
  have hread := h.read 0 (2 * j.pretty.length + 2) [] hends (by rw [← pretty]; omega)
  rw [List.append_nil, ← pretty] at hread
  rw [ofText?, hread]
  rfl

end TreeSql.Json
