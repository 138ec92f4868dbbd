import Mathlib.Data.Rat.Floor
import Mathlib.Tactic.Linarith
import Mathlib.Tactic.Ring
import TreeSql.Value.Timestamp

/-
  TreeSql.Proofs.Canonical.Moments — timestamps and intervals of the server.

  A `Moment` is a timestamp without a time zone, in microseconds; its years are those of the server's timestamps. It is
  cut to a unit by setting what is smaller to its least value. The difference of two moments is exact and has whole
  days and the rest of a day. Their `age` has months instead: it subtracts date and time part by part, and borrows from
  the next larger part.

  A `Span` is an interval. Its months, days and microseconds are apart, and only `seconds` puts them together: a year
  counts as 365 days and a quarter, and a month as 30 days.

  Times cut to a unit of the clock are a whole number of these units apart (`count_truncate`), which the seconds of
  their difference say again (`seconds_between`). Between months the age has the difference of the month numbers and
  nothing else (`age_truncate_month`). Its seconds, in average months, are that number but for less than a half
  (`nearest_averageMonths`).
-/
namespace TreeSql.Server

/-! ## Moments -/

def microsPerDay : Nat := 86400000000

/-- A timestamp of the years from 4713 BC to 294276 AD. There is a year zero. -/
structure Moment where
  year : Int
  month : Nat
  day : Nat
  /-- Microseconds since midnight. -/
  micros : Nat
  year_le : -4712 ≤ year ∧ year ≤ 294276
  month_le : 1 ≤ month ∧ month ≤ 12
  day_le : 1 ≤ day ∧ day ≤ daysInMonth year month
  micros_lt : micros < microsPerDay

theorem one_le_daysInMonth (year : Int) (month : Nat) : 1 ≤ daysInMonth year month := by
  unfold daysInMonth
  split
  · split <;> omega
  all_goals omega

/-- What a time can be cut to. -/
inductive Truncation where
  | year
  | month
  /-- So many microseconds of the day. -/
  | clock (micros : Nat)
deriving DecidableEq

namespace Moment

/-- The number of the date, counted from the first day of year 1. -/
def dayNumber (t : Moment) : Int :=
  Timestamp.daysBeforeYear t.year + (Timestamp.daysBeforeMonth t.year t.month : Int) + ((t.day : Int) - 1)

/-- Microseconds since the first day of year 1. -/
def count (t : Moment) : Int := t.dayNumber * microsPerDay + t.micros

/-- The number of the month, counted from the year zero. -/
def monthNumber (t : Moment) : Int := 12 * t.year + t.month

/-- `date_trunc`. -/
def truncate (unit : Truncation) (t : Moment) : Moment :=
  match unit with
  | .year =>
    { t with
      month := 1
      day := 1
      micros := 0
      month_le := by omega
      day_le := ⟨Nat.le_refl 1, one_le_daysInMonth _ _⟩
      micros_lt := by decide }
  | .month =>
    { t with
      day := 1
      micros := 0
      day_le := ⟨Nat.le_refl 1, one_le_daysInMonth _ _⟩
      micros_lt := by decide }
  | .clock n =>
    { t with
      micros := t.micros - t.micros % n
      micros_lt := Nat.lt_of_le_of_lt (Nat.sub_le _ _) t.micros_lt }

end Moment

/-! ## Intervals -/

structure Span where
  months : Int
  days : Int
  micros : Int
deriving DecidableEq

namespace Span

def neg (i : Span) : Span := ⟨-i.months, -i.days, -i.micros⟩

/-- A number of microseconds, as whole days and the rest of a day. -/
def ofMicros (micros : Int) : Span := ⟨0, micros.tdiv microsPerDay, micros.tmod microsPerDay⟩

/-- `extract(epoch from i)`. -/
def seconds (i : Span) : ℚ :=
  31557600 * i.months.tdiv 12 + 2592000 * i.months.tmod 12 + 86400 * i.days + i.micros / 1000000

end Span

namespace Moment

/-- The difference of two moments. -/
def sub (finish start : Moment) : Span := .ofMicros (finish.count - start.count)

/-- The age at the later of two moments. Where the time of day is too small it borrows a day, and where the day is, a
    month as long as that of the earlier moment. -/
def ageSince (start finish : Moment) : Span :=
  let micros : Int := finish.micros - start.micros
  let borrowed : Int := if micros < 0 then 1 else 0
  let days : Int := finish.day - start.day - borrowed
  let borrowedMonth : Int := if days < 0 then 1 else 0
  { months := finish.monthNumber - start.monthNumber - borrowedMonth
    days := days + borrowedMonth * daysInMonth start.year start.month
    micros := micros + borrowed * microsPerDay }

/-- `age(finish, start)`. -/
def age (finish start : Moment) : Span :=
  if start.count ≤ finish.count then start.ageSince finish else (finish.ageSince start).neg

example : age ⟨2024, 3, 1, 0, by decide, by decide, by decide, by decide⟩
    ⟨2023, 12, 31, 3600000000, by decide, by decide, by decide, by decide⟩ = ⟨2, 0, 82800000000⟩ := by decide

end Moment

/-! ## Rounding -/

/-- The nearest whole number. A half is rounded away from zero. -/
def nearest (q : ℚ) : Int := if 0 ≤ q then ⌊q + 1 / 2⌋ else ⌈q - 1 / 2⌉

theorem nearest_eq {q : ℚ} {n : Int} (hlow : n - 1 / 2 < q) (hhigh : q < n + 1 / 2) : nearest q = n := by
  unfold nearest
  split
  · rw [Int.floor_eq_iff]
    constructor <;> linarith
  · rw [Int.ceil_eq_iff]
    constructor <;> linarith

theorem nearest_intCast (n : Int) : nearest n = n := nearest_eq (by linarith) (by linarith)

/-! ## Whole units of the clock -/

theorem seconds_ofMicros (micros : Int) : (Span.ofMicros micros).seconds = micros / 1000000 := by
  have hsplit : (micros : ℚ) = microsPerDay * micros.tdiv microsPerDay + micros.tmod microsPerDay := by
    exact_mod_cast (Int.mul_tdiv_add_tmod micros microsPerDay).symm
  have hday : ((microsPerDay : Nat) : ℚ) = 86400000000 := by norm_num [microsPerDay]
  have hzero : ((0 : Int).tdiv 12 : ℚ) = 0 ∧ ((0 : Int).tmod 12 : ℚ) = 0 := by norm_num
  rw [hsplit, hday]
  simp only [Span.seconds, Span.ofMicros, hzero.1, hzero.2]
  ring

/-- A whole number of days has no rest. -/
theorem days_ofMicros (n : Int) : (Span.ofMicros (n * microsPerDay)).days = n := by
  rw [Span.ofMicros]
  exact Int.mul_tdiv_cancel n (by decide)

/-- The units of the clock that are counted between two times. -/
inductive ClockUnit where
  | days
  | hours
  | minutes
  | seconds
deriving DecidableEq

namespace ClockUnit

/-- The seconds of a unit. -/
def length : ClockUnit → Nat
  | days => 86400
  | hours => 3600
  | minutes => 60
  | seconds => 1

def truncation (unit : ClockUnit) : Truncation := .clock (unit.length * 1000000)

/-- The number of the unit that a time is in, counted from the first day of year 1. -/
def number (unit : ClockUnit) (t : Moment) : Int := t.count / (unit.length * 1000000 : Nat)

variable (unit : ClockUnit) (start finish : Moment)

theorem count_truncate (t : Moment) :
    (t.truncate unit.truncation).count = unit.number t * (unit.length * 1000000 : Nat) := by
  have hdate : (t.truncate unit.truncation).dayNumber = t.dayNumber := rfl
  have htime : (t.truncate unit.truncation).micros = t.micros - t.micros % (unit.length * 1000000) := rfl
  rw [number, Moment.count, Moment.count, hdate, htime, microsPerDay]
  cases unit <;> simp only [length] <;> omega

theorem sub_truncate : (finish.truncate unit.truncation).sub (start.truncate unit.truncation) =
    .ofMicros ((unit.number finish - unit.number start) * (unit.length * 1000000 : Nat)) := by
  rw [Moment.sub, count_truncate, count_truncate, Int.sub_mul]

theorem seconds_between : ((finish.truncate unit.truncation).sub (start.truncate unit.truncation)).seconds =
    ((unit.number finish - unit.number start) * unit.length : Int) := by
  rw [sub_truncate, seconds_ofMicros]
  push_cast
  ring

theorem days_between : ((finish.truncate days.truncation).sub (start.truncate days.truncation)).days =
    days.number finish - days.number start := by
  rw [sub_truncate]
  exact days_ofMicros _

end ClockUnit

/-! ## Months -/

/-- First days of months are months apart, without days. -/
theorem age_truncate_month (start finish : Moment) :
    (finish.truncate .month).age (start.truncate .month) = ⟨finish.monthNumber - start.monthNumber, 0, 0⟩ := by
  have hsince (s f : Moment) :
      (s.truncate .month).ageSince (f.truncate .month) = ⟨f.monthNumber - s.monthNumber, 0, 0⟩ := by
    simp [Moment.ageSince, Moment.truncate, Moment.monthNumber]
  unfold Moment.age
  split
  · exact hsince start finish
  · rw [hsince finish start, Span.neg]
    simp

/-- The seconds of an average month are those of the twelfth part of a year. A year is twelve of them, and the months
    of less than a year fall short by less than half of one. -/
theorem nearest_averageMonths (n : Int) : nearest ((Span.mk n 0 0).seconds / 2629800) = n := by
  have hsplit : (n : ℚ) = 12 * n.tdiv 12 + n.tmod 12 := by
    exact_mod_cast (Int.mul_tdiv_add_tmod n 12).symm
  have hlow : (-12 : ℚ) < n.tmod 12 := by exact_mod_cast Int.lt_tmod_of_pos n (by decide : (0 : Int) < 12)
  have hhigh : (n.tmod 12 : ℚ) < 12 := by exact_mod_cast Int.tmod_lt_of_pos n (by decide : (0 : Int) < 12)
  have hmonths : (Span.mk n 0 0).seconds / 2629800 = n - 21 / 1461 * n.tmod 12 := by
    rw [Span.seconds, hsplit]
    push_cast
    ring
  rw [hmonths]
  apply nearest_eq
  · linarith
  · linarith

end TreeSql.Server
