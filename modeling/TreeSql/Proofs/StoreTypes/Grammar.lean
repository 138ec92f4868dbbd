import TreeSql.Postgres.TypeName
import TreeSql.Postgres.Version
import TreeSql.Proofs.Text.Runs

/-
  TreeSql.Proofs.StoreTypes.Grammar — the texts that are type names.

  `Named` is the grammar as a relation: words, then perhaps arguments and further words, and at the end only white
  space. The rule of a word or a number has the text after it too, which cannot begin with one more character of the
  token. What counts as a blank between tokens is a parameter; the reader skips spaces, tabs, carriage returns and line
  feeds.

  A token and a number are what stands behind the blanks, whichever class these are of (`token_iff`, `number_iff`), and
  each part of the reader takes a text exactly when its rule does (`readWord?_iff` to `readArgs?_iff`). A part that
  may be absent is left out only where none can be read: nothing else starts as arguments do, so what fails inside
  them is left over and refused. Together: `parse_iff`.

  The white space around a checked name is dropped, and one pair of parentheses is all that is left beside words, blanks
  and commas (`OnePair`). So a parenthesis that is open in front of it is closed behind it (`OnePair.afterClosing?_eq`,
  `accepted_names`).
-/
namespace TreeSql.Postgres.TypeName

/-! ## The grammar -/

/-- Blanks, and after them characters of a class: one or more, and as many as there are. -/
inductive Token (blank p : Char → Bool) : List Char → List Char → List Char → Prop
  | intro {blanks token rest : List Char} (hblanks : ∀ c ∈ blanks, blank c = true) (hne : token ≠ [])
      (htoken : ∀ c ∈ token, p c = true) (hend : ∀ c ∈ rest.head?, p c = false) :
    Token blank p (blanks ++ (token ++ rest)) token rest

/-- Blanks, and after them a mark. -/
inductive Mark (blank : Char → Bool) (mark : Char) : List Char → List Char → Prop
  | intro {blanks : List Char} (hblanks : ∀ c ∈ blanks, blank c = true) (rest : List Char) :
    Mark blank mark (blanks ++ mark :: rest) rest

/-- The decimal digits of a number that 32 bits hold. -/
inductive Number (blank : Char → Bool) : List Char → UInt32 → List Char → Prop
  | intro {s ds rest : List Char} {n : UInt32} (h : Token blank Char.isDigit s ds rest)
      (hn : n.toNat = Text.digitsValue ds) : Number blank s n rest

/-- One thing after another, any number of times. -/
inductive Several {α : Type} (item : List Char → α → List Char → Prop) : List Char → List α → List Char → Prop
  | nil (s : List Char) : Several item s [] s
  | cons {s s' rest : List Char} {a : α} {as : List α} (h : item s a s') (hrest : Several item s' as rest) :
    Several item s (a :: as) rest

/-- Words, one after another. -/
abbrev Words (blank : Char → Bool) : List Char → List (List Char) → List Char → Prop :=
  Several (Token blank isWordChar)

/-- A comma and a number. -/
inductive NextNumber (blank : Char → Bool) : List Char → UInt32 → List Char → Prop
  | intro {s s' rest : List Char} {n : UInt32} (hcomma : Mark blank ',' s s') (hn : Number blank s' n rest) :
    NextNumber blank s n rest

/-- One or more numbers in parentheses, with commas between them. -/
inductive Arguments (blank : Char → Bool) : List Char → List UInt32 → List Char → Prop
  | intro {s s₁ s₂ s₃ rest : List Char} {n : UInt32} {ns : List UInt32} (hopen : Mark blank '(' s s₁)
      (hfirst : Number blank s₁ n s₂) (hmore : Several (NextNumber blank) s₂ ns s₃) (hclose : Mark blank ')' s₃ rest) :
    Arguments blank s (n :: ns) rest

/-- A type name: words, perhaps arguments and further words, and nothing else but white space. -/
inductive Named (blank : Char → Bool) : List Char → List (List Char) → List UInt32 → Prop
  | plain {s rest : List Char} {words : List (List Char)} (hwords : Words blank s words rest) (hne : words ≠ [])
      (hrest : ∀ c ∈ rest, Text.isBlank c = true) : Named blank s words []
  | withArguments {s s₁ s₂ rest : List Char} {front back : List (List Char)} {args : List UInt32}
      (hfront : Words blank s front s₁) (hne : front ≠ []) (hargs : Arguments blank s₁ args s₂)
      (hback : Words blank s₂ back rest) (hrest : ∀ c ∈ rest, Text.isBlank c = true) :
    Named blank s (front ++ back) args

/-! ## Tokens and marks -/

theorem not_isBlank_of_isWordChar {c : Char} (h : isWordChar c = true) : Text.isBlank c = false := by
  have hrange : ∀ a b : Char, a ≤ c → c ≤ b → a.toNat ≤ c.toNat ∧ c.toNat ≤ b.toNat := fun _ _ ha hb => ⟨ha, hb⟩
  simp only [isWordChar, Bool.or_eq_true, Bool.and_eq_true, decide_eq_true_eq, beq_iff_eq] at h
  have hcode : (97 ≤ c.toNat ∧ c.toNat ≤ 122 ∨ 65 ≤ c.toNat ∧ c.toNat ≤ 90) ∨ (48 ≤ c.toNat ∧ c.toNat ≤ 57) ∨
      c.toNat = 95 := by
    rcases h with ((h | h) | h) | rfl
    · exact .inl (.inl (hrange 'a' 'z' h.1 h.2))
    · exact .inl (.inr (hrange 'A' 'Z' h.1 h.2))
    · exact .inr (.inl (hrange '0' '9' h.1 h.2))
    · exact .inr (.inr rfl)
  simp [Text.isBlank]
  omega

theorem not_isTokenBlank_of_isWordChar {c : Char} (h : isWordChar c = true) : Text.isTokenBlank c = false :=
  Bool.eq_false_iff.mpr fun hc =>
    Bool.false_ne_true ((not_isBlank_of_isWordChar h).symm.trans (Text.isBlank_of_isTokenBlank hc))

theorem isWordChar_of_isDigit {c : Char} (h : c.isDigit = true) : isWordChar c = true := by
  simp only [Char.isDigit, Bool.and_eq_true, decide_eq_true_eq] at h
  have hrange : '0' ≤ c ∧ c ≤ '9' := h
  simp [isWordChar, hrange]

section

variable {blank p : Char → Bool} {s token rest : List Char} {n : UInt32}

/-- A token is what stands at the head of the text when its blanks are skipped. -/
theorem token_iff (hp : ∀ c, p c = true → blank c = false) :
    Token blank p s token rest ↔ token ≠ [] ∧ (s.dropWhile blank).takeWhile p = token ∧
      (s.dropWhile blank).dropWhile p = rest := by
  constructor
  · rintro ⟨hblanks, hne, htoken, hend⟩
    have hhead : ∀ c ∈ (token ++ rest).head?, blank c = false := by
      intro c hc
      rw [List.head?_append_of_ne_nil _ hne] at hc
      exact hp c (htoken c (List.mem_of_mem_head? hc))
    rw [Text.dropWhile_append_of_head hblanks hhead]
    exact ⟨hne, Text.takeWhile_append_of_head htoken hend, Text.dropWhile_append_of_head htoken hend⟩
  · rintro ⟨hne, rfl, rfl⟩
    have hend : ∀ c ∈ ((s.dropWhile blank).dropWhile p).head?, p c = false := by
      intro c hc
      have hhead := List.head?_dropWhile_not p (s.dropWhile blank)
      rw [hc] at hhead
      simpa using hhead
    have hblanks : ∀ c ∈ s.takeWhile blank, blank c = true := fun c => List.mem_takeWhile_imp
    have htoken := Token.intro hblanks hne (fun c => List.mem_takeWhile_imp) hend
    rwa [List.takeWhile_append_dropWhile, List.takeWhile_append_dropWhile] at htoken

/-- A number is what is read as one when the blanks are skipped, whichever they are. -/
theorem number_iff (hblank : ∀ c : Char, c.isDigit = true → blank c = false) :
    Number blank s n rest ↔ ServerVersion.readNumber? (s.dropWhile blank) = some (n, rest) := by
  have hnumber : Number blank s n rest ↔ ∃ ds, Token blank Char.isDigit s ds rest ∧ n.toNat = Text.digitsValue ds :=
    ⟨fun ⟨h, hn⟩ => ⟨_, h, hn⟩, fun ⟨_, h, hn⟩ => ⟨h, hn⟩⟩
  simp only [hnumber, token_iff hblank]
  rw [ServerVersion.readNumber?, Text.leadingDigits, Text.afterDigits]
  generalize (s.dropWhile blank).takeWhile Char.isDigit = ds
  generalize (s.dropWhile blank).dropWhile Char.isDigit = rest'
  constructor
  · rintro ⟨ds', ⟨hne, rfl, rfl⟩, hn⟩
    have hlt := hn ▸ n.toNat_lt
    rw [if_neg (by simp [hne, UInt32.size]; omega), ← hn, UInt32.ofNat_toNat]
  · intro h
    split at h
    · cases h
    · next hfits =>
      obtain ⟨rfl, rfl⟩ := Prod.mk.inj (Option.some.inj h)
      simp only [Bool.or_eq_true, List.isEmpty_iff, decide_eq_true_eq, not_or, not_le] at hfits
      exact ⟨ds, ⟨hfits.1, rfl, rfl⟩, UInt32.toNat_ofNat_of_lt hfits.2⟩

theorem number_digits (n : UInt32) (hs : Text.NoDigit s) : Number blank (Text.digits n.toNat ++ s) n s :=
  have htoken : Token blank Char.isDigit ([] ++ (Text.digits n.toNat ++ s)) (Text.digits n.toNat) s :=
    .intro (fun _ hc => by cases hc) (Text.digits_ne_nil _) (fun _ => Text.isDigit_of_mem_digits) hs
  ⟨htoken, (Text.digitsValue_digits _).symm⟩

/-- More blanks in front of a number. -/
theorem Number.behind {blanks : List Char} (hblanks : ∀ c ∈ blanks, blank c = true) (h : Number blank s n rest) :
    Number blank (blanks ++ s) n rest := by
  obtain ⟨⟨hown, hne, hdigits, hend⟩, hn⟩ := h
  rw [← List.append_assoc]
  exact ⟨.intro (List.forall_mem_append.mpr ⟨hblanks, hown⟩) hne hdigits hend, hn⟩

theorem Mark.skip {mark : Char} (hmark : Text.isTokenBlank mark = false) (h : Mark Text.isTokenBlank mark s rest) :
    Text.skipTokenBlanks s = mark :: rest := by
  obtain ⟨hblanks⟩ := h
  rw [Text.skipTokenBlanks_append hblanks]
  exact Text.skipTokenBlanks_of_not_blank hmark

theorem readMark?_iff {mark : Char} (hmark : Text.isTokenBlank mark = false) :
    readMark? mark s = some rest ↔ Mark Text.isTokenBlank mark s rest := by
  constructor
  · intro h
    unfold readMark? at h
    split at h
    · next c s' hs =>
      split at h
      · next hc =>
        obtain rfl := Option.some.inj h
        have hparts := List.takeWhile_append_dropWhile (p := Text.isTokenBlank) (l := s)
        rw [show s.dropWhile Text.isTokenBlank = mark :: s' from hs.trans (by rw [hc])] at hparts
        rw [← hparts]
        exact .intro (fun c => List.mem_takeWhile_imp) s'
      · cases h
    · cases h
  · intro h
    rw [readMark?, h.skip hmark]
    exact if_pos rfl

theorem readWord?_iff : readWord? s = some (token, rest) ↔ Token Text.isTokenBlank isWordChar s token rest := by
  rw [token_iff fun c => not_isTokenBlank_of_isWordChar, readWord?, Text.skipTokenBlanks]
  generalize (s.dropWhile Text.isTokenBlank).takeWhile isWordChar = word
  generalize (s.dropWhile Text.isTokenBlank).dropWhile isWordChar = rest'
  cases word with
  | nil =>
    constructor
    · intro h
      cases h
    · rintro ⟨hne, rfl, -⟩
      exact absurd rfl hne
  | cons c word =>
    constructor
    · intro h
      obtain ⟨rfl, rfl⟩ := Prod.mk.inj (Option.some.inj h)
      exact ⟨List.cons_ne_nil _ _, rfl, rfl⟩
    · rintro ⟨-, rfl, rfl⟩
      rfl

theorem readNumber?_iff : readNumber? s = some (n, rest) ↔ Number Text.isTokenBlank s n rest :=
  (number_iff fun _ hc => not_isTokenBlank_of_isWordChar (isWordChar_of_isDigit hc)).symm

end

/-! ## Repetition -/

/-- A loop that takes items while there are any takes as many as there are, if each takes something of the text. -/
theorem loop_iff {α : Type} {item : List Char → α → List Char → Prop} {read? : List Char → Option (α × List Char)}
    {loop : Nat → List Char → List α × List Char} (hzero : ∀ s, loop 0 s = ([], s))
    (hstop : ∀ {s}, read? s = none → ∀ n, loop (n + 1) s = ([], s))
    (hnext : ∀ {s a s'}, read? s = some (a, s') → ∀ n, loop (n + 1) s = (a :: (loop n s').1, (loop n s').2))
    (hread : ∀ {s a s'}, read? s = some (a, s') ↔ item s a s')
    (hshorter : ∀ {s a s'}, item s a s' → s'.length < s.length) {fuel : Nat} {s rest : List Char} {as : List α}
    (hfuel : s.length ≤ fuel) : loop fuel s = (as, rest) ↔ Several item s as rest ∧ read? rest = none := by
  constructor
  · intro h
    induction fuel generalizing s as with
    | zero =>
      rw [hzero] at h
      obtain ⟨rfl, rfl⟩ := Prod.mk.inj h
      refine ⟨.nil _, Option.eq_none_iff_forall_ne_some.mpr fun x hx => ?_⟩
      have := hshorter (hread.mp hx)
      omega
    | succ fuel ih =>
      cases hs : read? s with
      | none =>
        rw [hstop hs] at h
        obtain ⟨rfl, rfl⟩ := Prod.mk.inj h
        exact ⟨.nil _, hs⟩
      | some x =>
        have hitem := hread.mp hs
        have := hshorter hitem
        rw [hnext hs] at h
        obtain ⟨rfl, rfl⟩ := Prod.mk.inj h
        obtain ⟨hrest, hnone⟩ := ih (by omega) rfl
        exact ⟨.cons hitem hrest, hnone⟩
  · rintro ⟨h, hnone⟩
    induction h generalizing fuel with
    | nil =>
      cases fuel with
      | zero => exact hzero _
      | succ fuel => exact hstop hnone fuel
    | cons hitem _ ih =>
      have := hshorter hitem
      obtain ⟨n, rfl⟩ := Nat.exists_eq_add_one_of_ne_zero (n := fuel) (by omega)
      rw [hnext (hread.mpr hitem), ih (by omega) hnone]

section

variable {blank p : Char → Bool} {s token rest : List Char}

theorem Token.length_lt (h : Token blank p s token rest) : rest.length < s.length := by
  obtain ⟨-, hne, -, -⟩ := h
  have := List.length_pos_of_ne_nil hne
  simp only [List.length_append]
  omega

theorem Mark.length_lt {mark : Char} (h : Mark blank mark s rest) : rest.length < s.length := by
  obtain ⟨-⟩ := h
  simp only [List.length_append, List.length_cons]
  omega

theorem NextNumber.length_lt {n : UInt32} (h : NextNumber blank s n rest) : rest.length < s.length := by
  obtain ⟨hcomma, ⟨htoken, -⟩⟩ := h
  have := hcomma.length_lt
  have := htoken.length_lt
  omega

theorem readWords_iff {fuel : Nat} {words : List (List Char)} (hfuel : s.length ≤ fuel) :
    readWords fuel s = (words, rest) ↔ Words Text.isTokenBlank s words rest ∧ readWord? rest = none :=
  loop_iff (fun _ => rfl) (fun h n => by rw [readWords, h]) (fun h n => by rw [readWords, h]) readWord?_iff
    Token.length_lt hfuel

theorem readNextNumber?_iff {n : UInt32} : (readMark? ',' s).bind readNumber? = some (n, rest) ↔
    NextNumber Text.isTokenBlank s n rest := by
  rw [Option.bind_eq_some_iff]
  constructor
  · rintro ⟨s', hcomma, hn⟩
    exact ⟨(readMark?_iff rfl).mp hcomma, readNumber?_iff.mp hn⟩
  · rintro ⟨hcomma, hn⟩
    exact ⟨_, (readMark?_iff rfl).mpr hcomma, readNumber?_iff.mpr hn⟩

theorem readMoreNumbers_iff {fuel : Nat} {ns : List UInt32} (hfuel : s.length ≤ fuel) :
    readMoreNumbers fuel s = (ns, rest) ↔ Several (NextNumber Text.isTokenBlank) s ns rest ∧
      (readMark? ',' rest).bind readNumber? = none :=
  loop_iff (fun _ => rfl) (fun h n => by rw [readMoreNumbers, h]) (fun h n => by rw [readMoreNumbers, h])
    readNextNumber?_iff NextNumber.length_lt hfuel

/-- Where one mark stands there is no other one. -/
theorem Mark.readMark?_eq_none {mark other : Char} (hmark : Text.isTokenBlank mark = false) (hother : mark ≠ other)
    (h : Mark Text.isTokenBlank mark s rest) : readMark? other s = none := by
  rw [readMark?, h.skip hmark]
  exact if_neg hother

/-- Where a mark stands that is not part of words there is no word. -/
theorem Mark.readWord?_eq_none {mark : Char} (hmark : Text.isTokenBlank mark = false)
    (hword : isWordChar mark = false) (h : Mark Text.isTokenBlank mark s rest) : readWord? s = none := by
  rw [readWord?, h.skip hmark, List.takeWhile_cons_of_neg (by simp [hword])]
  rfl

theorem Arguments.opens {args : List UInt32} (h : Arguments blank s args rest) : ∃ s', Mark blank '(' s s' := by
  obtain ⟨hopen, -, -, -⟩ := h
  exact ⟨_, hopen⟩

theorem readArgs?_iff {args : List UInt32} :
    readArgs? s = some (args, rest) ↔ Arguments Text.isTokenBlank s args rest := by
  simp only [readArgs?, Option.bind_eq_bind, Option.bind_eq_some_iff]
  constructor
  · rintro ⟨s₁, hopen, ⟨n, s₂⟩, hfirst, s₄, hclose, h⟩
    obtain ⟨rfl, rfl⟩ := Prod.mk.inj (Option.some.inj h)
    exact ⟨(readMark?_iff rfl).mp hopen, readNumber?_iff.mp hfirst, ((readMoreNumbers_iff le_rfl).mp rfl).1,
      (readMark?_iff rfl).mp hclose⟩
  · rintro ⟨hopen, hfirst, hmore, hclose⟩
    have hlast := hclose.readMark?_eq_none rfl (show ')' ≠ ',' by decide)
    have hloop := (readMoreNumbers_iff le_rfl).mpr ⟨hmore, by rw [hlast]; rfl⟩
    exact ⟨_, (readMark?_iff rfl).mpr hopen, _, readNumber?_iff.mpr hfirst, _,
      by rw [hloop]; exact (readMark?_iff rfl).mpr hclose, by rw [hloop]⟩

end

/-! ## Type names -/

/-- The name that words spell. -/
def spelled (words : List (List Char)) : String := " ".intercalate (words.map fun w => String.ofList (lower w))

section

variable {rest : List Char} (hrest : ∀ c ∈ rest, Text.isBlank c = true)

include hrest

theorem readWord?_eq_none_of_blank : readWord? rest = none := by
  rw [Option.eq_none_iff_forall_ne_some]
  rintro ⟨token, s⟩ h
  obtain ⟨-, hne, hword, -⟩ := readWord?_iff.mp h
  obtain ⟨c, hc⟩ := List.exists_mem_of_ne_nil token hne
  have hblank := hrest c (by simp [hc])
  rw [not_isBlank_of_isWordChar (hword c hc)] at hblank
  cases hblank

theorem readArgs?_eq_none_of_blank : readArgs? rest = none := by
  rw [Option.eq_none_iff_forall_ne_some]
  rintro ⟨args, s⟩ h
  obtain ⟨_, ⟨-⟩⟩ := (readArgs?_iff.mp h).opens
  have hblank := hrest '(' (by simp)
  cases hblank

end

/-- What becomes of a text, by its parts. -/
theorem parse_eq {s : String} {front back : List (List Char)} {s₁ s₂ rest : List Char} {args : List UInt32}
    (hfront : readWords s.toList.length s.toList = (front, s₁)) (hargs : (readArgs? s₁).getD ([], s₁) = (args, s₂))
    (hback : readWords s₂.length s₂ = (back, rest)) :
    parse s = if front = [] then .error (.typeNameExpected s)
      else if Text.trim rest = [] then .ok (spelled (front ++ back), args)
      else .error (.trailingInput (Text.utf8Length s.toList - Text.utf8Length rest)
        (String.ofList (Text.trim rest))) := by
  simp only [parse, hfront, hargs, hback, List.isEmpty_iff]
  rfl

theorem named_of_parse {s name : String} {args : List UInt32} (h : parse s = .ok (name, args)) :
    ∃ words, Named Text.isTokenBlank s.toList words args ∧ name = spelled words := by
  obtain ⟨⟨front, s₁⟩, hfront⟩ : ∃ x, readWords s.toList.length s.toList = x := ⟨_, rfl⟩
  obtain ⟨⟨args', s₂⟩, hargs⟩ : ∃ x, (readArgs? s₁).getD ([], s₁) = x := ⟨_, rfl⟩
  obtain ⟨⟨back, rest⟩, hback⟩ : ∃ x, readWords s₂.length s₂ = x := ⟨_, rfl⟩
  rw [parse_eq hfront hargs hback] at h
  split at h
  · cases h
  next hne =>
  split at h
  case isFalse => cases h
  case isTrue hblank =>
  rw [Text.trim_eq_nil_iff] at hblank
  obtain ⟨rfl, rfl⟩ := Prod.mk.inj (Except.ok.inj h)
  obtain ⟨hfront, hnone⟩ := (readWords_iff le_rfl).mp hfront
  refine ⟨_, ?_, rfl⟩
  cases hread : readArgs? s₁ with
  | none =>
    -- the words have been read to their end, so that there are no more of them
    rw [hread] at hargs
    obtain ⟨rfl, rfl⟩ := Prod.mk.inj hargs
    rw [(readWords_iff le_rfl).mpr ⟨.nil _, hnone⟩] at hback
    obtain ⟨rfl, rfl⟩ := Prod.mk.inj hback
    rw [List.append_nil]
    exact .plain hfront hne hblank
  | some x =>
    rw [hread] at hargs
    obtain rfl : x = (args', s₂) := hargs
    exact .withArguments hfront hne (readArgs?_iff.mp hread) ((readWords_iff le_rfl).mp hback).1 hblank

theorem parse_of_named {s : String} {words : List (List Char)} {args : List UInt32}
    (h : Named Text.isTokenBlank s.toList words args) : parse s = .ok (spelled words, args) := by
  cases h with
  | plain hwords hne hrest =>
    have hnone := readWord?_eq_none_of_blank hrest
    rw [parse_eq ((readWords_iff le_rfl).mpr ⟨hwords, hnone⟩) (by rw [readArgs?_eq_none_of_blank hrest]; rfl)
      ((readWords_iff le_rfl).mpr ⟨.nil _, hnone⟩), if_neg hne, if_pos (Text.trim_eq_nil_iff.mpr hrest),
      List.append_nil]
  | withArguments hfront hne hargs hback hrest =>
    obtain ⟨_, hopen⟩ := hargs.opens
    have hnone := hopen.readWord?_eq_none rfl rfl
    rw [parse_eq ((readWords_iff le_rfl).mpr ⟨hfront, hnone⟩) (by rw [readArgs?_iff.mpr hargs]; rfl)
      ((readWords_iff le_rfl).mpr ⟨hback, readWord?_eq_none_of_blank hrest⟩), if_neg hne,
      if_pos (Text.trim_eq_nil_iff.mpr hrest)]

theorem parse_iff {s name : String} {args : List UInt32} :
    parse s = .ok (name, args) ↔ ∃ words, Named Text.isTokenBlank s.toList words args ∧ name = spelled words := by
  constructor
  · exact named_of_parse
  · rintro ⟨words, h, rfl⟩
    exact parse_of_named h

/-! ## The characters of a type name -/

/-- What a type name has outside its arguments, and between the numbers of these. -/
def isFiller (c : Char) : Bool := isWordChar c || Text.isBlank c || c == ','

def isParen (c : Char) : Bool := c == '(' || c == ')'

/-- Fillers, and at most one pair of parentheses. -/
structure OnePair (cs : List Char) : Prop where
  chars : ∀ c ∈ cs, isFiller c = true ∨ isParen c = true
  parens : cs.filter isParen = [] ∨ cs.filter isParen = ['(', ')']

/-- The text after the parenthesis that closes one that is open at the head, outside `depth` others. -/
def afterClosing? : (depth : Nat) → List Char → Option (List Char)
  | _, [] => none
  | depth, c :: s =>
    if c = '(' then afterClosing? (depth + 1) s
    else if c = ')' then
      match depth with
      | 0 => some s
      | depth + 1 => afterClosing? depth s
    else afterClosing? depth s

example : afterClosing? 0 "text) || f(x)) = 1".toList = some " || f(x)) = 1".toList ∧
    afterClosing? 0 "numeric(8, 2)) = 1".toList = some " = 1".toList := by
  decide +kernel

theorem not_isParen_of_isFiller {c : Char} (h : isFiller c = true) : ¬isParen c = true := by
  intro hc
  simp only [isParen, Bool.or_eq_true, beq_iff_eq] at hc
  rcases hc with rfl | rfl
  · exact absurd h (by decide)
  · exact absurd h (by decide)

theorem isFiller_of_isWordChar {c : Char} (h : isWordChar c = true) : isFiller c = true := by simp [isFiller, h]

theorem isFiller_of_isBlank {c : Char} (h : Text.isBlank c = true) : isFiller c = true := by simp [isFiller, h]

theorem isFiller_of_isTokenBlank {c : Char} (h : Text.isTokenBlank c = true) : isFiller c = true :=
  isFiller_of_isBlank (Text.isBlank_of_isTokenBlank h)

/-- Only fillers stand before the rest. -/
def Passes (s rest : List Char) : Prop := ∃ front, s = front ++ rest ∧ ∀ c ∈ front, isFiller c = true

section

variable {s s' rest : List Char}

theorem Passes.trans (h : Passes s s') (h' : Passes s' rest) : Passes s rest := by
  obtain ⟨a, rfl, ha⟩ := h
  obtain ⟨b, rfl, hb⟩ := h'
  exact ⟨a ++ b, (List.append_assoc ..).symm, fun c hc => (List.mem_append.mp hc).elim (ha c) (hb c)⟩

theorem passes_nil (h : ∀ c ∈ s, Text.isBlank c = true) : Passes s [] :=
  ⟨s, (List.append_nil s).symm, fun c hc => isFiller_of_isBlank (h c hc)⟩

theorem passes_comma (s : List Char) : Passes (',' :: s) s := ⟨[','], rfl, List.forall_mem_singleton.mpr rfl⟩

theorem Token.passes {p : Char → Bool} {token : List Char} (hp : ∀ c, p c = true → isWordChar c = true)
    (h : Token Text.isTokenBlank p s token rest) : Passes s rest := by
  obtain ⟨hblanks, -, htoken, -⟩ := h
  refine ⟨_ ++ token, (List.append_assoc ..).symm, fun c hc => ?_⟩
  rcases List.mem_append.mp hc with hc | hc
  · exact isFiller_of_isTokenBlank (hblanks c hc)
  · exact isFiller_of_isWordChar (hp c (htoken c hc))

theorem Mark.passes {mark : Char} (h : Mark Text.isTokenBlank mark s rest) : Passes s (mark :: rest) := by
  obtain ⟨hblanks⟩ := h
  exact ⟨_, rfl, fun c hc => isFiller_of_isTokenBlank (hblanks c hc)⟩

theorem Number.passes {n : UInt32} (h : Number Text.isTokenBlank s n rest) : Passes s rest := by
  obtain ⟨htoken, -⟩ := h
  exact htoken.passes fun _ => isWordChar_of_isDigit

theorem NextNumber.passes {n : UInt32} (h : NextNumber Text.isTokenBlank s n rest) : Passes s rest := by
  obtain ⟨hcomma, hn⟩ := h
  exact (hcomma.passes.trans (passes_comma _)).trans hn.passes

theorem Several.passes {α : Type} {item : List Char → α → List Char → Prop} {as : List α}
    (hitem : ∀ {s a s'}, item s a s' → Passes s s') (h : Several item s as rest) : Passes s rest := by
  induction h with
  | nil s => exact ⟨[], rfl, fun _ hc => by cases hc⟩
  | cons h _ ih => exact (hitem h).trans ih

theorem Arguments.passes {args : List UInt32} (h : Arguments Text.isTokenBlank s args rest) :
    ∃ inner, Passes s ('(' :: inner) ∧ Passes inner (')' :: rest) := by
  obtain ⟨hopen, hfirst, hmore, hclose⟩ := h
  exact ⟨_, hopen.passes, (hfirst.passes.trans (hmore.passes NextNumber.passes)).trans hclose.passes⟩

theorem Passes.filter_isParen (h : Passes s rest) : s.filter isParen = rest.filter isParen := by
  obtain ⟨front, rfl, hfront⟩ := h
  rw [List.filter_append, List.filter_eq_nil_iff.mpr fun c hc => not_isParen_of_isFiller (hfront c hc),
    List.nil_append]

theorem Passes.chars (h : Passes s rest) (hrest : ∀ c ∈ rest, isFiller c = true ∨ isParen c = true) :
    ∀ c ∈ s, isFiller c = true ∨ isParen c = true := by
  obtain ⟨front, rfl, hfront⟩ := h
  intro c hc
  exact (List.mem_append.mp hc).elim (fun hc => .inl (hfront c hc)) (hrest c)

theorem Passes.onePair (h : Passes s rest) (hrest : OnePair rest) : OnePair s :=
  ⟨h.chars hrest.chars, h.filter_isParen ▸ hrest.parens⟩

theorem onePair_nil : OnePair [] := ⟨fun _ h => (by cases h), .inl rfl⟩

/-- Parentheses in which and after which there are only fillers. -/
theorem onePair_parens {inner : List Char} (hinner : Passes inner (')' :: rest)) (hrest : Passes rest []) :
    OnePair ('(' :: inner) := by
  have hback : ∀ c ∈ ')' :: rest, isFiller c = true ∨ isParen c = true :=
    List.forall_mem_cons.mpr ⟨.inr rfl, hrest.chars fun _ h => (by cases h)⟩
  refine ⟨List.forall_mem_cons.mpr ⟨.inr rfl, hinner.chars hback⟩, .inr ?_⟩
  rw [List.filter_cons_of_pos (by decide), hinner.filter_isParen, List.filter_cons_of_pos (by decide),
    hrest.filter_isParen]
  rfl

theorem Named.onePair {words : List (List Char)} {args : List UInt32} (h : Named Text.isTokenBlank s words args) :
    OnePair s := by
  have hword {s token rest : List Char} (h : Token Text.isTokenBlank isWordChar s token rest) : Passes s rest :=
    h.passes fun _ h => h
  cases h with
  | plain hwords _ hrest => exact ((hwords.passes hword).trans (passes_nil hrest)).onePair onePair_nil
  | withArguments hfront _ hargs hback hrest =>
    obtain ⟨inner, hopen, hinner⟩ := hargs.passes
    have hend := (hback.passes hword).trans (passes_nil hrest)
    exact ((hfront.passes hword).trans hopen).onePair (onePair_parens hinner hend)

theorem OnePair.trim (h : OnePair s) : OnePair (Text.trim s) := by
  obtain ⟨front, back, hs, hfront, hback⟩ := Text.exists_eq_append_trim s
  have hnone {part : List Char} (hpart : ∀ c ∈ part, Text.isBlank c = true) : part.filter isParen = [] :=
    List.filter_eq_nil_iff.mpr fun c hc => not_isParen_of_isFiller (isFiller_of_isBlank (hpart c hc))
  have hfilter : s.filter isParen = (Text.trim s).filter isParen := by
    conv => lhs; rw [hs]
    rw [List.filter_append, List.filter_append, hnone hfront, hnone hback, List.nil_append, List.append_nil]
  have hmem {c : Char} (hc : c ∈ Text.trim s) : c ∈ s := by
    rw [hs]
    simp [hc]
  exact ⟨fun c hc => h.chars c (hmem hc), hfilter ▸ h.parens⟩

end

/-! ## Inside other parentheses -/

theorem afterClosing?_append {front : List Char} (hfront : ∀ c ∈ front, ¬isParen c = true) (depth : Nat)
    (s : List Char) :
    afterClosing? depth (front ++ s) = afterClosing? depth s := by
  induction front with
  | nil => rfl
  | cons c front ih =>
    obtain ⟨hc, hfront⟩ := List.forall_mem_cons.mp hfront
    simp only [isParen, Bool.or_eq_true, beq_iff_eq, not_or] at hc
    rw [List.cons_append, afterClosing?.eq_def]
    simp only [hc, if_false, ih hfront]

/-- The pair closes itself and nothing around it. -/
theorem OnePair.afterClosing?_eq {cs : List Char} (h : OnePair cs) (rest : List Char) :
    afterClosing? 0 (cs ++ ')' :: rest) = some rest := by
  rcases h.parens with hnone | hpair
  · rw [afterClosing?_append (List.filter_eq_nil_iff.mp hnone)]
    rfl
  · obtain ⟨a, cs, rfl, ha, -, hrest⟩ := List.filter_eq_cons_iff.mp hpair
    obtain ⟨b, c, rfl, hb, -, hc⟩ := List.filter_eq_cons_iff.mp hrest
    have hclose : afterClosing? 1 (b ++ ')' :: (c ++ ')' :: rest)) = some rest := by
      rw [afterClosing?_append hb]
      exact afterClosing?_append (List.filter_eq_nil_iff.mp hc) 0 _
    simpa [afterClosing?_append ha, afterClosing?] using hclose

theorem check_iff {s r : String} :
    check s = .ok r ↔ r = String.ofList (Text.trim s.toList) ∧
      ∃ words args, Named Text.isTokenBlank s.toList words args := by
  unfold check
  constructor
  · intro h
    obtain ⟨⟨name, args⟩, hparse, h⟩ := ok_of_bind h
    obtain ⟨words, hnamed, -⟩ := named_of_parse hparse
    exact ⟨(Except.ok.inj h).symm, words, args, hnamed⟩
  · rintro ⟨rfl, words, args, hnamed⟩
    rw [parse_of_named hnamed]
    rfl

theorem onePair_of_check {s r : String} (h : check s = .ok r) : OnePair r.toList := by
  obtain ⟨rfl, words, args, hnamed⟩ := check_iff.mp h
  rw [String.toList_ofList]
  exact hnamed.onePair.trim

/-- A text is taken exactly when it follows the grammar, in which blanks are spaces, tabs, carriage returns and line
    feeds; its words and numbers are what is read. A checked name closes no parenthesis that is open around it. -/
theorem accepted_names (s : String) :
    (∀ name args, parse s = .ok (name, args) ↔
        ∃ words, Named Text.isTokenBlank s.toList words args ∧ name = spelled words) ∧
      (∀ r, check s = .ok r ↔ r = String.ofList (Text.trim s.toList) ∧
        ∃ words args, Named Text.isTokenBlank s.toList words args) ∧
      ∀ r, check s = .ok r → OnePair r.toList ∧ ∀ rest, afterClosing? 0 (r.toList ++ ')' :: rest) = some rest := by
  refine ⟨fun name args => parse_iff, fun r => check_iff, fun r h => ?_⟩
  have hpair := onePair_of_check h
  exact ⟨hpair, hpair.afterClosing?_eq⟩

theorem accepted_names_timestamp :
    check " Timestamp (3)with\ttime zone\n" = .ok "Timestamp (3)with\ttime zone" ∧
      OnePair "Timestamp (3)with\ttime zone".toList ∧
      ∀ rest, afterClosing? 0 ("Timestamp (3)with\ttime zone".toList ++ ')' :: rest) = some rest := by
  have hcheck : check " Timestamp (3)with\ttime zone\n" = .ok "Timestamp (3)with\ttime zone" := by rfl
  exact ⟨hcheck, (accepted_names _).2.2 _ hcheck⟩

/-- The white space of ASCII, with the form feed. -/
def isAsciiBlank (c : Char) : Bool := Text.isTokenBlank c || c == '\x0c'

/-- With a form feed as a blank this would be a type name. -/
theorem form_feed_refused :
    (∃ words args, Named isAsciiBlank "double\x0cprecision".toList words args) ∧
      parse "double\x0cprecision" = .error (.trailingInput 6 "precision") ∧
      check "double\x0cprecision" = .error (.trailingInput 6 "precision") := by
  have hprecision : Token isAsciiBlank isWordChar (['\x0c'] ++ ("precision".toList ++ [])) "precision".toList [] :=
    .intro (List.all_eq_true.mp rfl) (by decide) (List.all_eq_true.mp rfl) (fun _ hc => by cases hc)
  have hdouble : Token isAsciiBlank isWordChar ([] ++ ("double".toList ++ "\x0cprecision".toList)) "double".toList
      "\x0cprecision".toList :=
    .intro (fun _ hc => by cases hc) (by decide) (List.all_eq_true.mp rfl) fun c hc => by
      cases hc
      rfl
  have hwords : Words isAsciiBlank "double\x0cprecision".toList ["double".toList, "precision".toList] [] :=
    .cons hdouble (.cons hprecision (.nil []))
  refine ⟨⟨_, _, .plain hwords (List.cons_ne_nil _ _) (fun _ hc => by cases hc)⟩, ?_, ?_⟩
  · rfl
  · rfl

end TreeSql.Postgres.TypeName
