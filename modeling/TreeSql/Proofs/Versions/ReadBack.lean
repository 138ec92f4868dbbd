import TreeSql.Proofs.StoreTypes.Grammar

/-
  TreeSql.Proofs.Versions.ReadBack — the texts that server versions are read from.

  `StartsWith` is the grammar as a relation: a number behind white space and two parts that may be absent. A part is a
  point and a number right behind it. Where there is none the part is zero and nothing is taken, so a number that 32
  bits do not hold ends the version in front of its point. Each part of the reader follows its rule (`readNumber?_iff`
  to `readVersion?_iff`), and only the first number can fail: `parse_eq_error_iff` says when it does and where.

  The text of a version leaves out a patch number of zero, which an absent part is. So the text is read as the version
  itself wherever nothing behind it makes it longer (`Ends`, `startsWith_text`). Together: `versions_read_back`.
-/
namespace TreeSql.Postgres.ServerVersion

open Postgres.TypeName (Number)

/-! ## The grammar -/

/-- No character is skipped. -/
def unspaced (_ : Char) : Bool := false

/-- A point and a number right behind it; zero, and nothing of the text, where there is none. -/
inductive Part : List Char → UInt32 → List Char → Prop
  | present {s rest : List Char} {n : UInt32} (h : Number unspaced s n rest) : Part ('.' :: s) n rest
  | absent {s : List Char} (h : ∀ s', s = '.' :: s' → ¬ ∃ n rest, Number unspaced s' n rest) : Part s 0 s

/-- A version behind white space, at the start of a text. -/
inductive StartsWith : List Char → ServerVersion → Prop
  | intro {s s₁ s₂ rest : List Char} {major minor patch : UInt32} (hmajor : Number Text.isBlank s major s₁)
      (hminor : Part s₁ minor s₂) (hpatch : Part s₂ patch rest) : StartsWith s ⟨major, minor, patch⟩

/-! ## Reading -/

section

variable {s rest : List Char} {n : UInt32} {v : ServerVersion}

theorem not_isBlank_of_isDigit {c : Char} (h : c.isDigit = true) : Text.isBlank c = false :=
  TypeName.not_isBlank_of_isWordChar (TypeName.isWordChar_of_isDigit h)

theorem readNumber?_iff : readNumber? s = some (n, rest) ↔ Number unspaced s n rest := by
  have hskip : s.dropWhile unspaced = s := by
    cases s with
    | nil => rfl
    | cons c s => exact List.dropWhile_cons_of_neg (by simp [unspaced])
  have hnumber : Number unspaced s n rest ↔ readNumber? (s.dropWhile unspaced) = some (n, rest) :=
    TypeName.number_iff fun _ _ => rfl
  rw [hnumber, hskip]

theorem readNumber?_eq_none_iff : readNumber? s = none ↔ ¬ ∃ n rest, Number unspaced s n rest := by
  simp only [← readNumber?_iff, Option.eq_none_iff_forall_ne_some, Prod.forall, not_exists, ne_eq]

theorem not_number_of_noDigit (h : Text.NoDigit s) : ¬ ∃ n rest, Number unspaced s n rest := by
  rw [← readNumber?_eq_none_iff, readNumber?, Text.leadingDigits_of_noDigit h]
  rfl

theorem readPart_iff : readPart s = (n, rest) ↔ Part s n rest := by
  constructor
  · intro h
    unfold readPart at h
    split at h
    · next s' =>
      -- A point is only taken together with a number behind it.
      cases hn : readNumber? s' with
      | none =>
        rw [hn] at h
        obtain ⟨rfl, rfl⟩ := Prod.mk.inj h
        refine .absent ?_
        rintro _ ⟨⟩
        exact readNumber?_eq_none_iff.mp hn
      | some x =>
        rw [hn] at h
        obtain rfl : x = (n, rest) := h
        exact .present (readNumber?_iff.mp hn)
    · next hpoint =>
      obtain ⟨rfl, rfl⟩ := Prod.mk.inj h
      exact .absent fun s' hs => absurd hs (hpoint s')
  · rintro (h | h)
    · rw [readPart, readNumber?_iff.mpr h]
      rfl
    · unfold readPart
      split
      · next s' =>
        rw [readNumber?_eq_none_iff.mpr (h s' rfl)]
        rfl
      · rfl

theorem readVersion?_iff : readVersion? (Text.trimStart s) = some v ↔ StartsWith s v := by
  simp only [readVersion?, Option.bind_eq_bind, Option.bind_eq_some_iff, Text.trimStart]
  constructor
  · rintro ⟨⟨major, s₁⟩, hmajor, h⟩
    obtain rfl := Option.some.inj h
    exact ⟨(TypeName.number_iff fun _ => not_isBlank_of_isDigit).mpr hmajor, readPart_iff.mp rfl, readPart_iff.mp rfl⟩
  · rintro ⟨hmajor, hminor, hpatch⟩
    refine ⟨_, (TypeName.number_iff fun _ => not_isBlank_of_isDigit).mp hmajor, ?_⟩
    rw [readPart_iff.mpr hminor]
    dsimp only
    rw [readPart_iff.mpr hpatch]

/-- Behind the first number every text goes on as some version, since a part may be absent. -/
theorem exists_startsWith_iff : (∃ v, StartsWith s v) ↔ ∃ n rest, Number Text.isBlank s n rest := by
  constructor
  · rintro ⟨_, ⟨hmajor, -, -⟩⟩
    exact ⟨_, _, hmajor⟩
  · rintro ⟨n, rest, hmajor⟩
    exact ⟨_, hmajor, readPart_iff.mp rfl, readPart_iff.mp rfl⟩

end

variable {s : String} {v : ServerVersion}

theorem parse_eq_ok_iff : parse s = .ok v ↔ StartsWith s.toList v := by
  rw [← readVersion?_iff, parse]
  cases readVersion? (Text.trimStart s.toList) with
  | none => exact ⟨fun h => (by cases h), fun h => (by cases h)⟩
  | some w => exact ⟨fun h => congrArg some (Except.ok.inj h), fun h => congrArg Except.ok (Option.some.inj h)⟩

example : parse "9.4294967296.7" = .ok ⟨9, 0, 0⟩ := by decide

/-- What is refused has no number where the white space ends, and the error says where that is. -/
theorem parse_eq_error_iff {e : Error} : parse s = .error e ↔ (¬ ∃ n rest, Number Text.isBlank s.toList n rest) ∧
    e = .versionExpected (Text.utf8Length (s.toList.takeWhile Text.isBlank)) s := by
  have hposition : Text.utf8Length s.toList - Text.utf8Length (Text.trimStart s.toList) =
      Text.utf8Length (s.toList.takeWhile Text.isBlank) := by
    have hparts := Text.utf8Length_append (s.toList.takeWhile Text.isBlank) (s.toList.dropWhile Text.isBlank)
    rw [List.takeWhile_append_dropWhile] at hparts
    rw [hparts, Text.trimStart, Nat.add_sub_cancel_right]
  rw [← exists_startsWith_iff, ← hposition, parse]
  simp only [← readVersion?_iff]
  cases readVersion? (Text.trimStart s.toList) with
  | none => simp [eq_comm]
  | some w => simp

/-! ## The text of a version -/

/-- What makes no version in front of it longer: neither a digit nor a point with a digit behind it. -/
def Ends (s : List Char) : Prop := Text.NoDigit s ∧ ∀ s', s = '.' :: s' → Text.NoDigit s'

/-- A patch number behind its point, or nothing where it is zero. -/
def patchText (n : UInt32) : List Char := if n = 0 then [] else '.' :: Text.digits n.toNat

theorem toList_text (v : ServerVersion) :
    v.text.toList = Text.digits v.major.toNat ++ '.' :: (Text.digits v.minor.toNat ++ patchText v.patch) := by
  unfold text patchText
  split <;> simp [Text.numeral]

theorem noDigit_point (s : List Char) : Text.NoDigit ('.' :: s) := by
  intro c hc
  cases hc
  rfl

section

variable {rest : List Char}

theorem part_digits (n : UInt32) (hrest : Text.NoDigit rest) : Part ('.' :: (Text.digits n.toNat ++ rest)) n rest :=
  .present (TypeName.number_digits n hrest)

/-- A patch number that is left out is read as zero, from a text that does not go on with another number. -/
theorem part_patchText (n : UInt32) (hrest : Ends rest) : Part (patchText n ++ rest) n rest := by
  unfold patchText
  split
  · next hn =>
    rw [hn]
    exact .absent fun s hs => not_number_of_noDigit (hrest.2 s hs)
  · exact part_digits n hrest.1

theorem noDigit_patchText (n : UInt32) (hrest : Text.NoDigit rest) : Text.NoDigit (patchText n ++ rest) := by
  unfold patchText
  split
  · exact hrest
  · exact noDigit_point _

/-- The text of a version starts with it, whatever blanks stand in front and whatever follows that ends it. -/
theorem startsWith_text (v : ServerVersion) {blanks : List Char} (hblanks : ∀ c ∈ blanks, Text.isBlank c = true)
    (hrest : Ends rest) : StartsWith (blanks ++ v.text.toList ++ rest) v := by
  have hmajor : Number Text.isBlank (blanks ++ (Text.digits v.major.toNat ++
      '.' :: (Text.digits v.minor.toNat ++ (patchText v.patch ++ rest)))) v.major _ :=
    (TypeName.number_digits v.major (noDigit_point _)).behind hblanks
  have hminor := part_digits v.minor (noDigit_patchText v.patch hrest.1)
  simpa [toList_text] using StartsWith.intro hmajor hminor (part_patchText v.patch hrest)

end

/-- The text of a version is read as this version, behind any white space and before any text that does not make it
    longer; and a text is refused exactly if there is no number of 32 bits behind its white space. -/
theorem versions_read_back :
    (∀ (v : ServerVersion) (blanks rest : String), (∀ c ∈ blanks.toList, Text.isBlank c = true) → Ends rest.toList →
      parse (blanks ++ v.text ++ rest) = .ok v) ∧
    ∀ s : String, (∃ e, parse s = .error e) ↔ ¬ ∃ n rest, Number Text.isBlank s.toList n rest := by
  constructor
  · intro v blanks rest hblanks hrest
    rw [parse_eq_ok_iff, String.toList_append, String.toList_append]
    exact startsWith_text v hblanks hrest
  · intro s
    constructor
    · rintro ⟨e, he⟩
      exact (parse_eq_error_iff.mp he).1
    · intro hnumber
      exact ⟨_, parse_eq_error_iff.mpr ⟨hnumber, rfl⟩⟩

/-- A point that no digit follows does not continue the version. -/
theorem versions_read_back_build :
    (∀ c ∈ "\t\u2003".toList, Text.isBlank c = true) ∧ Ends ".x (build 7.1)".toList ∧
      parse ("\t\u2003" ++ text ⟨9, 4294967295, 0⟩ ++ ".x (build 7.1)") = .ok ⟨9, 4294967295, 0⟩ := by
  have hblanks : ∀ c ∈ "\t\u2003".toList, Text.isBlank c = true := List.all_eq_true.mp (by decide)
  have hends : Ends ".x (build 7.1)".toList := by
    refine ⟨noDigit_point _, ?_⟩
    rintro _ ⟨⟩ c hc
    cases hc
    rfl
  exact ⟨hblanks, hends, versions_read_back.1 _ _ _ hblanks hends⟩

end TreeSql.Postgres.ServerVersion
