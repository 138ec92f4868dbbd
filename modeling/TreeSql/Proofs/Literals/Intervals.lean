import TreeSql.Proofs.Text.Runs
import TreeSql.Value.Interval

/-
  TreeSql.Proofs.Literals.Intervals — the text of a time span read back.

  `Spelling.read?` reads days, a clock, or days and a clock with one blank between them. Each part has a sign of its
  own, and each field of a clock its full width and a limit. A day is 86400 seconds.

  The text of a span reads as `spelling`: the days and the clock of its magnitude, each with its sign (`read?_text`).
  They count its microseconds (`micros_spelling`), those of the least span too, whose magnitude is not a span. So no
  two spans have one text (`exact_text`).
-/
namespace TreeSql.Interval

/-! ## Spellings -/

/-- An amount with the sign in front of it. -/
structure Signed (α : Type) where
  negative : Bool
  amount : α
deriving DecidableEq

/-- A part of a day. -/
structure Clock where
  hours : Fin 24
  minutes : Fin 60
  seconds : Fin 60
  /-- The microseconds after the point, if there is one. -/
  fraction : Option (Fin 1000000)
deriving DecidableEq

inductive Spelling where
  | days (days : Signed Nat)
  | clock (clock : Signed Clock)
  | both (days : Signed Nat) (clock : Signed Clock)
deriving DecidableEq

/-- What an amount counts, with its sign. -/
def Signed.micros {α : Type} (x : Signed α) (magnitude : α → Nat) : Int :=
  if x.negative then -magnitude x.amount else magnitude x.amount

def Clock.micros (c : Clock) : Nat :=
  ((c.hours * 60 + c.minutes) * 60 + c.seconds) * 1000000 + c.fraction.elim 0 Fin.val

def daysMicros (days : Nat) : Nat := days * 86400 * 1000000

def Spelling.micros : Spelling → Int
  | days d => d.micros daysMicros
  | clock c => c.micros Clock.micros
  | both d c => d.micros daysMicros + c.micros Clock.micros

/-! ## Reading -/

def Signed.read? {α : Type} (amount? : List Char → Option α) (s : List Char) : Option (Signed α) :=
  if s.head? = some '-' then (amount? s.tail).map (⟨true, ·⟩) else (amount? s).map (⟨false, ·⟩)

/-- Digits, as many as the width, of a number below the limit. -/
def field? (width limit : Nat) (ds : List Char) : Option (Fin limit) :=
  if h : ds.length = width ∧ ds.all Char.isDigit ∧ Text.digitsValue ds < limit then
    some ⟨Text.digitsValue ds, h.2.2⟩
  else none

/-- Seconds and, after a point, their fraction. -/
def seconds? (s : List Char) : Option (Fin 60 × Option (Fin 1000000)) :=
  match s.splitOn '.' with
  | [seconds] => (field? 2 60 seconds).map (·, none)
  | [seconds, fraction] => do return (← field? 2 60 seconds, some (← field? 6 1000000 fraction))
  | _ => none

def Clock.read? (s : List Char) : Option Clock :=
  match s.splitOn ':' with
  | [hours, minutes, seconds] => do
    let hours ← field? 2 24 hours
    let minutes ← field? 2 60 minutes
    let (seconds, fraction) ← seconds? seconds
    return { hours, minutes, seconds, fraction }
  | _ => none

def readNumber? (ds : List Char) : Option Nat :=
  if ds ≠ [] ∧ ds.all Char.isDigit then some (Text.digitsValue ds) else none

def readDays? (number unit : List Char) : Option (Signed Nat) :=
  if unit = "day".toList ∨ unit = "days".toList then Signed.read? readNumber? number else none

def Spelling.read? (s : List Char) : Option Spelling :=
  match s.splitOn ' ' with
  | [c] => (Signed.read? Clock.read? c).map .clock
  | [number, unit] => (readDays? number unit).map .days
  | [number, unit, c] => do return .both (← readDays? number unit) (← Signed.read? Clock.read? c)
  | _ => none

/-- A clock ends before its day does, and its fields have their full width. -/
example : Spelling.read? "24:00:00".toList = none ∧ Spelling.read? "1:00:00".toList = none ∧
    Spelling.read? "-1 day 01:00:00".toList = some (.both ⟨true, 1⟩ ⟨false, 1, 0, 0, none⟩) := by
  decide

/-! ## The spelling of a span -/

theorem hours_lt {micros : Nat} (h : micros < microsPerDay) : micros / microsPerSecond / 3600 < 24 := by
  unfold microsPerDay microsPerSecond at *
  omega

def Clock.ofMicros (micros : Nat) (h : micros < microsPerDay) : Clock where
  hours := ⟨micros / microsPerSecond / 3600, hours_lt h⟩
  minutes := ⟨micros / microsPerSecond / 60 % 60, Nat.mod_lt _ (by decide)⟩
  seconds := ⟨micros / microsPerSecond % 60, Nat.mod_lt _ (by decide)⟩
  fraction :=
    if micros % microsPerSecond = 0 then none else some ⟨micros % microsPerSecond, Nat.mod_lt _ (by decide)⟩

/-- The days and the clock of a magnitude. A part that is zero is left out, unless both are. -/
def Spelling.ofMicros (negative : Bool) (micros : Nat) : Spelling :=
  have hrest : micros % microsPerDay < microsPerDay := Nat.mod_lt _ (by decide)
  if micros / microsPerDay = 0 then clock ⟨negative, .ofMicros _ hrest⟩
  else if micros % microsPerDay = 0 then days ⟨negative, micros / microsPerDay⟩
  else both ⟨negative, micros / microsPerDay⟩ ⟨negative, .ofMicros _ hrest⟩

def spelling (i : Interval) : Spelling := .ofMicros (i.micros < 0) i.micros.toInt.natAbs

/-! ## What a spelling counts -/

theorem Clock.micros_ofMicros {micros : Nat} (h : micros < microsPerDay) : (ofMicros micros h).micros = micros := by
  have hfraction : (ofMicros micros h).fraction.elim 0 Fin.val = micros % microsPerSecond := by
    unfold ofMicros
    by_cases hzero : micros % microsPerSecond = 0
    · simp [hzero]
    · simp [hzero]
  rw [Clock.micros, hfraction]
  simp only [ofMicros, microsPerSecond]
  omega

theorem Spelling.micros_ofMicros (negative : Bool) (micros : Nat) :
    (ofMicros negative micros).micros = if negative then -(micros : Int) else micros := by
  have hsum : daysMicros (micros / microsPerDay) + micros % microsPerDay = micros := by
    unfold daysMicros microsPerDay microsPerSecond
    omega
  unfold ofMicros
  split
  case isTrue hdays =>
    have hclock : micros % microsPerDay = micros := by simpa [hdays, daysMicros] using hsum
    simp only [Spelling.micros, Signed.micros, Clock.micros_ofMicros, hclock]
  case isFalse =>
    split
    case isTrue hrest =>
      have hdays : daysMicros (micros / microsPerDay) = micros := by simpa [hrest] using hsum
      simp only [Spelling.micros, Signed.micros, hdays]
    case isFalse =>
      simp only [Spelling.micros, Signed.micros, Clock.micros_ofMicros]
      split <;> omega

theorem micros_spelling (i : Interval) : i.spelling.micros = i.micros.toInt := by
  have hneg : i.micros < 0 ↔ i.micros.toInt < 0 := Int64.lt_iff_toInt_lt
  rw [spelling, Spelling.micros_ofMicros]
  simp only [decide_eq_true_eq, hneg]
  split <;> omega

/-! ## Writing

The text of a span is written from its spelling, and any spelling that is written out is read back. -/

def Signed.chars {α : Type} (x : Signed α) (amount : α → List Char) : List Char :=
  if x.negative then '-' :: amount x.amount else amount x.amount

def Clock.chars (c : Clock) : List Char :=
  Text.padded 2 c.hours ++ ':' :: (Text.padded 2 c.minutes ++ ':' ::
    (Text.padded 2 c.seconds ++ c.fraction.elim [] fun fraction => '.' :: Text.padded 6 fraction))

def dayUnit (days : Nat) : List Char := if days = 1 then "day".toList else "days".toList

def Spelling.chars : Spelling → List Char
  | days d => d.chars Text.digits ++ ' ' :: dayUnit d.amount
  | clock c => c.chars Clock.chars
  | both d c => d.chars Text.digits ++ ' ' :: (dayUnit d.amount ++ ' ' :: c.chars Clock.chars)

theorem toList_clockText {micros : Nat} (h : micros < microsPerDay) :
    (clockText micros).toList = (Clock.ofMicros micros h).chars := by
  unfold clockText Clock.chars Clock.ofMicros
  by_cases hzero : micros % microsPerSecond = 0
  · simp [Text.paddedNumeral, hzero]
  · simp [Text.paddedNumeral, hzero]

/-- An amount that is written behind the sign of a span. -/
theorem toList_signed {α : Type} {p : Prop} [Decidable p] {x : α} {amount : α → List Char} {text : String}
    (h : text.toList = amount x) : ((if p then "-" else "") ++ text).toList = Signed.chars ⟨p, x⟩ amount := by
  by_cases hp : p
  · simp [Signed.chars, hp, h]
  · simp [Signed.chars, hp, h]

theorem toList_signedDays {p : Prop} [Decidable p] (days : Nat) :
    ((if p then "-" else "") ++ dayText days).toList = Signed.chars ⟨p, days⟩ Text.digits ++ ' ' :: dayUnit days := by
  have hunit : (if days = 1 then " day" else " days").toList = ' ' :: dayUnit days := by
    unfold dayUnit
    split <;> rfl
  have hnumber : (Text.numeral days).toList = Text.digits days := String.toList_ofList
  rw [dayText, ← String.append_assoc, String.toList_append, hunit, toList_signed hnumber]

theorem toList_text (i : Interval) : i.text.toList = i.spelling.chars := by
  have hrest : i.micros.toInt.natAbs % microsPerDay < microsPerDay := Nat.mod_lt _ (by decide)
  by_cases hdays : i.micros.toInt.natAbs / microsPerDay = 0
  · have htext : i.text = (if i.micros < 0 then "-" else "") ++ clockText _ := if_pos hdays
    have hspelling : i.spelling = .clock ⟨i.micros < 0, .ofMicros _ hrest⟩ := if_pos hdays
    rw [htext, hspelling, toList_signed (toList_clockText hrest), Spelling.chars]
  by_cases hclock : i.micros.toInt.natAbs % microsPerDay = 0
  · have htext : i.text = (if i.micros < 0 then "-" else "") ++ dayText _ := (if_neg hdays).trans (if_pos hclock)
    have hspelling : i.spelling = .days ⟨i.micros < 0, i.micros.toInt.natAbs / microsPerDay⟩ :=
      (if_neg hdays).trans (if_pos hclock)
    rw [htext, hspelling, toList_signedDays, Spelling.chars]
  · have htext : i.text = (if i.micros < 0 then "-" else "") ++ dayText _ ++ " " ++
        (if i.micros < 0 then "-" else "") ++ clockText _ := (if_neg hdays).trans (if_neg hclock)
    have hspelling : i.spelling = .both ⟨i.micros < 0, i.micros.toInt.natAbs / microsPerDay⟩
        ⟨i.micros < 0, .ofMicros _ hrest⟩ := (if_neg hdays).trans (if_neg hclock)
    -- the second sign belongs to the clock
    rw [htext, hspelling, String.append_assoc, String.toList_append, String.toList_append, toList_signedDays,
      toList_signed (toList_clockText hrest), Spelling.chars, List.append_assoc, List.append_assoc]
    rfl

/-! ## Reading what is written -/

theorem field?_padded {limit : Nat} (width : Nat) (hwidth : 0 < width) (hlimit : limit ≤ Number.tenTo width)
    (n : Fin limit) : field? width limit (Text.padded width n) = some n := by
  have hdigits : (Text.padded width n).all Char.isDigit :=
    List.all_eq_true.mpr fun _ => Text.isDigit_of_mem_padded
  have hlength := Text.length_padded hwidth (Nat.lt_of_lt_of_le n.isLt hlimit)
  have hvalue := Text.digitsValue_padded width n
  rw [field?, dif_pos ⟨hlength, hdigits, hvalue.symm ▸ n.isLt⟩]
  simp only [hvalue]

theorem notMem_padded {width n : Nat} {c : Char} (hc : c.isDigit = false) : c ∉ Text.padded width n :=
  Text.notMem_of_isDigit (fun _ => Text.isDigit_of_mem_padded) hc

theorem seconds?_chars (seconds : Fin 60) (fraction : Option (Fin 1000000)) :
    seconds? (Text.padded 2 seconds ++ fraction.elim [] fun f => '.' :: Text.padded 6 f) =
      some (seconds, fraction) := by
  have hseconds := field?_padded 2 (by decide) (by decide) seconds
  have hpoint : ∀ width n, '.' ∉ Text.padded width n := fun _ _ => notMem_padded rfl
  unfold seconds?
  cases fraction with
  | none =>
    rw [Option.elim_none, List.append_nil, List.splitOn_eq_singleton (hpoint _ _)]
    simp only [hseconds, Option.map_some]
  | some f =>
    have hfraction := field?_padded 6 (by decide) (by decide) f
    rw [Option.elim_some, List.splitOn_append_cons_self_of_not_mem (hpoint _ _),
      List.splitOn_eq_singleton (hpoint _ _)]
    simp only [hseconds, hfraction]
    rfl

theorem Clock.read?_chars (c : Clock) : read? c.chars = some c := by
  have hhours := field?_padded 2 (by decide) (by decide) c.hours
  have hminutes := field?_padded 2 (by decide) (by decide) c.minutes
  have hcolon : ∀ n, ':' ∉ Text.padded 2 n := fun _ => notMem_padded rfl
  have hlast : ':' ∉ Text.padded 2 c.seconds ++ c.fraction.elim [] fun f => '.' :: Text.padded 6 f := by
    cases c.fraction <;> simp [notMem_padded]
  unfold read? chars
  rw [List.splitOn_append_cons_self_of_not_mem (hcolon _), List.splitOn_append_cons_self_of_not_mem (hcolon _),
    List.splitOn_eq_singleton hlast]
  simp only [hhours, hminutes, seconds?_chars]
  rfl

theorem Signed.read?_chars {α : Type} {amount? : List Char → Option α} {amount : α → List Char} (x : Signed α)
    (hsign : (amount x.amount).head? ≠ some '-') (hread : amount? (amount x.amount) = some x.amount) :
    read? amount? (x.chars amount) = some x := by
  unfold chars
  by_cases hx : x.negative
  · rw [if_pos hx, read?, if_pos (List.head?_cons ..), List.tail_cons, hread, Option.map_some, ← hx]
  · rw [if_neg hx, read?, if_neg hsign, hread, Option.map_some, ← Bool.eq_false_of_not_eq_true hx]

theorem read?_clock (c : Signed Clock) : Signed.read? Clock.read? (c.chars Clock.chars) = some c :=
  c.read?_chars (Text.head?_append_ne (Text.padded_ne_nil _ _) (fun _ => Text.isDigit_of_mem_padded) rfl)
    (Clock.read?_chars _)

theorem readDays?_chars (d : Signed Nat) :
    readDays? (d.chars Text.digits) (dayUnit d.amount) = some d := by
  have hunit : dayUnit d.amount = "day".toList ∨ dayUnit d.amount = "days".toList := by
    unfold dayUnit
    split
    · exact .inl rfl
    · exact .inr rfl
  have hdigits : (Text.digits d.amount).all Char.isDigit := List.all_eq_true.mpr fun _ => Text.isDigit_of_mem_digits
  rw [readDays?, if_pos hunit]
  refine d.read?_chars ?_ ?_
  · rw [← List.append_nil (Text.digits d.amount)]
    exact Text.head?_append_ne (Text.digits_ne_nil _) (fun _ => Text.isDigit_of_mem_digits) rfl
  · rw [readNumber?, if_pos ⟨Text.digits_ne_nil _, hdigits⟩, Text.digitsValue_digits]

/-- A blank is not in a part unless it is in the amount. -/
theorem Signed.blank_notMem_chars {α : Type} {amount : α → List Char} (x : Signed α) (h : ' ' ∉ amount x.amount) :
    ' ' ∉ x.chars amount := by
  unfold chars
  split <;> simp [h]

theorem Clock.blank_notMem_chars (c : Clock) : ' ' ∉ c.chars := by
  unfold chars
  cases c.fraction <;> simp [notMem_padded]

theorem blank_notMem_dayUnit (n : Nat) : ' ' ∉ dayUnit n := by
  unfold dayUnit
  split <;> decide

theorem Spelling.read?_chars (s : Spelling) : read? s.chars = some s := by
  have hdays : ∀ d : Signed Nat, ' ' ∉ d.chars Text.digits := fun d =>
    d.blank_notMem_chars (Text.notMem_of_isDigit (fun _ => Text.isDigit_of_mem_digits) rfl)
  have hclock : ∀ c : Signed Clock, ' ' ∉ c.chars Clock.chars := fun c =>
    c.blank_notMem_chars (Clock.blank_notMem_chars _)
  unfold read?
  cases s with
  | days d =>
    rw [chars, List.splitOn_append_cons_self_of_not_mem (hdays d), List.splitOn_eq_singleton (blank_notMem_dayUnit _)]
    simp only [readDays?_chars, Option.map_some]
  | clock c =>
    rw [chars, List.splitOn_eq_singleton (hclock c)]
    simp only [read?_clock, Option.map_some]
  | both d c =>
    rw [chars, List.splitOn_append_cons_self_of_not_mem (hdays d),
      List.splitOn_append_cons_self_of_not_mem (blank_notMem_dayUnit _), List.splitOn_eq_singleton (hclock c)]
    simp only [readDays?_chars, read?_clock]
    rfl

/-! ## The text of a span -/

theorem read?_text (i : Interval) : Spelling.read? i.text.toList = some i.spelling := by
  rw [toList_text, Spelling.read?_chars]

theorem text_injective : Function.Injective text := by
  intro i j h
  have hspelling : i.spelling = j.spelling := by
    have hread := read?_text i
    rw [h, read?_text j] at hread
    exact (Option.some.inj hread).symm
  have hmicros : i.micros.toInt = j.micros.toInt := by
    rw [← micros_spelling i, ← micros_spelling j, hspelling]
  cases i
  cases j
  exact congrArg mk (Int64.toInt_inj.mp hmicros)

/-- The text of a span is not empty, spells days and a clock that count its microseconds, and is that of no other
    span. -/
theorem exact_text (i : Interval) :
    i.text ≠ "" ∧ (∃ s : Spelling, Spelling.read? i.text.toList = some s ∧ s.micros = i.micros.toInt) ∧
      ∀ j : Interval, j.text = i.text ↔ j = i := by
  refine ⟨?_, ⟨i.spelling, read?_text i, micros_spelling i⟩, fun _ => text_injective.eq_iff⟩
  intro h
  have hread := read?_text i
  rw [h] at hread
  cases hread

/-- The least span has no positive counterpart. -/
example : (⟨Int64.minValue⟩ : Interval).text = "-106751991 days -04:00:54.775808" := by
  decide +kernel

end TreeSql.Interval
