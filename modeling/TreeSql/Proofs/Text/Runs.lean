import Mathlib.Data.List.DropRight
import Mathlib.Data.Nat.Digits.Defs
import TreeSql.Number.Power
import TreeSql.Text.Blank
import TreeSql.Text.Digits

/-
  TreeSql.Proofs.Text.Runs — runs of digits and of blanks at the head of a text.

  The digits of a number spell it (`digitsValue_digits`), and only those of zero start with a zero
  (`head?_digits`). Zeros in front fill them up to a width and leave the number (`length_padded`,
  `digitsValue_padded`). In front of a text without digits they are the run that a reader takes
  (`leadingDigits_append`), as blanks are the run that it skips (`skipTokenBlanks_append`) and the characters of any
  class are the run that is taken up to the first of another (`takeWhile_append_of_head`). What `trim` drops is white
  space on both sides (`exists_eq_append_trim`). The bytes of a text are those of its parts (`utf8Length_append`).
-/
namespace TreeSql.Text

/-! ## Digits of a number -/

theorem isDigit_of_mem_digits {n : Nat} {c : Char} (h : c ∈ digits n) : c.isDigit = true :=
  Nat.isDigit_of_mem_toDigits (by decide) (by decide) h

theorem isDigit_of_mem_padded {width n : Nat} {c : Char} (h : c ∈ padded width n) : c.isDigit = true := by
  rcases List.mem_append.mp h with h | h
  · rw [List.eq_of_mem_replicate h]
    rfl
  · exact isDigit_of_mem_digits h

theorem digits_ne_nil (n : Nat) : digits n ≠ [] := Nat.toDigits_ne_nil

theorem digitsValue_digits (n : Nat) : digitsValue (digits n) = n := by
  rw [digitsValue, ← Nat.ofDigitChars_eq_foldl, digits, Nat.ofDigitChars_ten_toDigits]

/-- Only zero starts with a zero. -/
theorem head?_digits {n : Nat} (hn : n ≠ 0) : (digits n).head? ≠ some '0' := by
  have hdigit : ∀ k < 10, k ≠ 0 → Nat.digitChar k ≠ '0' := by decide
  unfold digits
  induction n using Nat.strongRecOn with
  | ind n ih =>
    rw [Nat.toDigits_eq_if (by decide)]
    split
    · simpa using hdigit n ‹_› hn
    · rw [List.head?_append_of_ne_nil _ Nat.toDigits_ne_nil]
      exact ih (n / 10) (by omega) (by omega)

theorem digitsValue_padded (width n : Nat) : digitsValue (padded width n) = n := by
  rw [digitsValue, ← Nat.ofDigitChars_eq_foldl, padded, Nat.ofDigitChars_append, Nat.ofDigitChars_replicate_zero,
    Nat.mul_zero, digits, Nat.ofDigitChars_ten_toDigits]

/-- Padding gives the width and no more, unless the number is too large for it. -/
theorem length_padded {width n : Nat} (hwidth : 0 < width) (hn : n < Number.tenTo width) :
    (padded width n).length = width := by
  have hdigits : (digits n).length ≤ width := (Nat.length_toDigits_le_iff (by decide) hwidth).mpr hn
  rw [padded, List.length_append, List.length_replicate, Nat.sub_add_cancel hdigits]

/-- A character that is not a digit is not among digits. -/
theorem notMem_of_isDigit {ds : List Char} {c : Char} (hds : ∀ d ∈ ds, d.isDigit = true) (hc : c.isDigit = false) :
    c ∉ ds := by
  intro h
  rw [hds c h] at hc
  cases hc

theorem padded_ne_nil (width n : Nat) : padded width n ≠ [] := by
  simp [padded, digits_ne_nil]

theorem toList_integer (i : Int) :
    (integer i).toList = if i < 0 then '-' :: digits i.natAbs else digits i.natAbs := by
  unfold integer
  split <;> simp [numeral]

/-! ## Runs of a class of characters -/

section

variable {p : Char → Bool} {run s : List Char}

/-- A run ends where no character of the class follows. -/
theorem takeWhile_append_of_head (hrun : ∀ c ∈ run, p c = true) (hs : ∀ c ∈ s.head?, p c = false) :
    (run ++ s).takeWhile p = run := by
  rw [List.takeWhile_append_of_pos hrun]
  cases s with
  | nil => exact List.append_nil run
  | cons c s => rw [List.takeWhile_cons_of_neg (by simp [hs c rfl]), List.append_nil]

theorem dropWhile_append_of_head (hrun : ∀ c ∈ run, p c = true) (hs : ∀ c ∈ s.head?, p c = false) :
    (run ++ s).dropWhile p = s := by
  rw [List.dropWhile_append_of_pos hrun]
  cases s with
  | nil => rfl
  | cons c s => exact List.dropWhile_cons_of_neg (by simp [hs c rfl])

end

/-! ## Runs of digits -/

/-- No digit is at the head of the text. -/
def NoDigit (s : List Char) : Prop := ∀ c ∈ s.head?, c.isDigit = false

variable {ds s : List Char}

theorem leadingDigits_append (hds : ∀ c ∈ ds, c.isDigit = true) (hs : NoDigit s) : leadingDigits (ds ++ s) = ds :=
  takeWhile_append_of_head hds hs

theorem afterDigits_append (hds : ∀ c ∈ ds, c.isDigit = true) (hs : NoDigit s) : afterDigits (ds ++ s) = s :=
  dropWhile_append_of_head hds hs

theorem leadingDigits_of_noDigit (h : NoDigit s) : leadingDigits s = [] :=
  show leadingDigits ([] ++ s) = [] from leadingDigits_append (fun _ hc => by cases hc) h

/-- A text that starts with digits does not start with another character. -/
theorem head?_append_ne {c : Char} (hne : ds ≠ []) (hds : ∀ d ∈ ds, d.isDigit = true) (hc : c.isDigit = false) :
    (ds ++ s).head? ≠ some c := by
  rw [List.head?_append_of_ne_nil _ hne]
  exact fun h => notMem_of_isDigit hds hc (List.mem_of_mem_head? h)

/-! ## Runs of blanks -/

theorem skipTokenBlanks_of_not_blank {c : Char} (h : isTokenBlank c = false) : skipTokenBlanks (c :: s) = c :: s :=
  List.dropWhile_cons_of_neg (by simp [h])

theorem skipTokenBlanks_append {blanks : List Char} (h : ∀ c ∈ blanks, isTokenBlank c = true) :
    skipTokenBlanks (blanks ++ s) = skipTokenBlanks s :=
  List.dropWhile_append_of_pos h

theorem skipTokenBlanks_idem (s : List Char) : skipTokenBlanks (skipTokenBlanks s) = skipTokenBlanks s :=
  List.dropWhile_idempotent isTokenBlank s

theorem utf8Length_append (s t : List Char) : utf8Length (s ++ t) = utf8Length s + utf8Length t := by
  have hfrom (n : Nat) : t.foldl (fun n c => n + c.utf8Size) n = n + utf8Length t := by
    unfold utf8Length
    induction t generalizing n with
    | nil => rfl
    | cons c t ih => rw [List.foldl_cons, List.foldl_cons, ih, ih (0 + _), Nat.zero_add, Nat.add_assoc]
  rw [utf8Length, List.foldl_append]
  exact hfrom _

/-- Only blanks are trimmed to nothing. -/
theorem trim_eq_nil_iff : trim s = [] ↔ ∀ c ∈ s, isBlank c = true := by
  rw [trim, trimEnd, List.reverse_eq_nil_iff, List.dropWhile_eq_nil_iff]
  constructor
  · intro h c hc
    rw [← List.takeWhile_append_dropWhile (p := isBlank) (l := s)] at hc
    rcases List.mem_append.mp hc with hc | hc
    · exact List.mem_takeWhile_imp hc
    · exact h c (List.mem_reverse.mpr hc)
  · intro h c hc
    exact h c ((List.dropWhile_sublist isBlank).subset (List.mem_reverse.mp hc))

/-- A trimmed text is a part of the text, and only blanks are missing. -/
theorem exists_eq_append_trim (s : List Char) : ∃ front back, s = front ++ trim s ++ back ∧
    (∀ c ∈ front, isBlank c = true) ∧ ∀ c ∈ back, isBlank c = true := by
  refine ⟨s.takeWhile isBlank, ((trimStart s).reverse.takeWhile isBlank).reverse, ?_,
    fun c hc => List.mem_takeWhile_imp hc, fun c hc => List.mem_takeWhile_imp (List.mem_reverse.mp hc)⟩
  rw [List.append_assoc, trim, trimEnd, ← List.reverse_append, List.takeWhile_append_dropWhile, List.reverse_reverse,
    trimStart, List.takeWhile_append_dropWhile]

end TreeSql.Text
