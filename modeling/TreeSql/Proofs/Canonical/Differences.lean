import TreeSql.Proofs.Canonical.Evaluation

/-
  TreeSql.Proofs.Canonical.Differences — counting the units between two times.

  Both times are cut to the unit first, so what is counted is how often the unit changes from one to the other. Seconds
  are cast to `int4`, and where they are counted in hours or minutes the cast comes before the division: it is the
  seconds that have to fit, and not the count.

  `clock_differences`: what is given for days, hours, minutes and seconds, and when there is a fault instead.
  `hours_of_a_century`: a count that fits, with seconds that do not.
  `month_difference`: months are counted by the calendar, although the seconds of their years and months are divided by
  those of an average month.
-/
namespace TreeSql.Server

open Sql SqlExpr Compile

namespace ClockUnit

def timeUnit : ClockUnit → TimeUnit
  | days => .days
  | hours => .hours
  | minutes => .minutes
  | seconds => .seconds

/-- The function that counts the unit. -/
def function : ClockUnit → String
  | days => "DiffDays"
  | hours => "DiffHours"
  | minutes => "DiffMinutes"
  | seconds => "DiffSeconds"

theorem ofName?_function (unit : ClockUnit) :
    CanonicalFunction.ofName? unit.function = some (.binary (.diff unit.timeUnit)) := by
  cases unit <;> decide

/-- What is cast for one unit: itself, or its seconds where these are divided later. -/
def castPerUnit : ClockUnit → Nat
  | days | seconds => 1
  | hours => 3600
  | minutes => 60

/-- How many units begin after the first time and not after the second one; negative if the second one is earlier. -/
def between (unit : ClockUnit) (start finish : Moment) : Int := unit.number finish - unit.number start

end ClockUnit

/-- There are not so many months that a number of them would be out of range. -/
theorem int4_holds_months (start finish : Moment) :
    Postgres.Literal.NumberType.int4.holds (finish.monthNumber - start.monthNumber) = true := by
  have hstart := start.year_le
  have hfinish := finish.year_le
  have hmonth := start.month_le
  have hmonth' := finish.month_le
  refine Postgres.Literal.holds_of_le rfl ?_ ?_
  · simp only [Moment.monthNumber]
    omega
  · simp only [Moment.monthNumber]
    omega

section

variable {env : Surroundings} {a b : SqlExpr} {start finish : Moment} (ha : evaluate env a = .ok (.moment start))
  (hb : evaluate env b = .ok (.moment finish))

include ha hb

/-! ## Units of the clock -/

theorem evaluate_castSeconds (unit : ClockUnit) {name : String}
    (hname : truncations.lookup ("'" ++ name ++ "'") = some unit.truncation) :
    evaluate env (toInt4 (secondsOf (spanBetween name a b))) = int4 (unit.between start finish * unit.length) := by
  have hseconds := evaluate_secondsOf (evaluate_spanBetween hname ha hb)
  rw [unit.seconds_between] at hseconds
  have hcast := evaluate_toInt4 hseconds
  rw [nearest_intCast] at hcast
  exact hcast

/-- Seconds that are cast and then divided by those of the unit. -/
theorem evaluate_dividedSeconds (unit : ClockUnit) {name : String} {divisor : Int32}
    (hname : truncations.lookup ("'" ++ name ++ "'") = some unit.truncation) (hdivisor : divisor.toInt = unit.length) :
    evaluate env (.binary .div (toInt4 (secondsOf (spanBetween name a b))) (int divisor)) =
      if Postgres.Literal.NumberType.int4.holds (unit.between start finish * unit.length) then
        .ok (.integer (unit.between start finish)) else .error .integerOutOfRange := by
  have hcast := evaluate_castSeconds ha hb unit hname
  have hlength : (unit.length : Int) ≠ 0 := by cases unit <;> decide
  rw [int4] at hcast
  by_cases hfits : Postgres.Literal.NumberType.int4.holds (unit.between start finish * unit.length)
  · rw [if_pos hfits] at hcast ⊢
    -- whole units were cast, so that nothing is cut off
    have hquotient : (Operation.operator .div).apply [.integer (unit.between start finish * unit.length),
        .integer unit.length] = some (.ok (.integer (unit.between start finish))) := by
      rw [Operation.apply_div, if_neg hlength, Int.mul_tdiv_cancel _ hlength]
    exact evaluate_binary .div hcast (evaluate_int hdivisor) hquotient
  · rw [if_neg hfits] at hcast ⊢
    exact evaluate_binary_fault hcast

theorem evaluate_clockDifference (unit : ClockUnit) :
    evaluate env ((BinaryFunction.diff unit.timeUnit).sql a b) =
      if Postgres.Literal.NumberType.int4.holds (unit.between start finish * unit.castPerUnit) then
        .ok (.integer (unit.between start finish)) else .error .integerOutOfRange := by
  cases unit with
  | days =>
    have hdays : evaluate env (datePart "day" (spanBetween "day" a b)) =
        .ok (.numeric (ClockUnit.days.between start finish : Int)) := by
      have hspan : evaluate env (spanBetween "day" a b) = .ok (.span ((finish.truncate ClockUnit.days.truncation).sub
          (start.truncate ClockUnit.days.truncation))) := evaluate_spanBetween rfl ha hb
      have hpart := evaluate_apply (e := datePart "day" (spanBetween "day" a b)) rfl (mapM_one hspan) rfl
      rw [hpart, ClockUnit.days_between]
      rfl
    have hcast := evaluate_toInt4 hdays
    rw [nearest_intCast, int4] at hcast
    rw [ClockUnit.castPerUnit, Nat.cast_one, Int.mul_one]
    exact hcast
  | hours => exact evaluate_dividedSeconds ha hb .hours rfl rfl
  | minutes => exact evaluate_dividedSeconds ha hb .minutes rfl rfl
  | seconds =>
    have hcast : evaluate env (toInt4 (secondsOf (spanBetween "second" a b))) = _ :=
      evaluate_castSeconds ha hb .seconds rfl
    rw [int4, ClockUnit.length, Nat.cast_one, Int.mul_one] at hcast
    rw [ClockUnit.castPerUnit, Nat.cast_one, Int.mul_one]
    exact hcast

/-! ## Months -/

theorem evaluate_monthDifference : evaluate env ((BinaryFunction.diff .months).sql a b) =
    .ok (.integer (finish.monthNumber - start.monthNumber)) := by
  have hmonth (x : SqlExpr) (t : Moment) (hx : evaluate env x = .ok (.moment t)) :
      evaluate env (dateTrunc "month" x) = .ok (.moment (t.truncate .month)) := evaluate_dateTrunc rfl hx
  have hage : evaluate env (age (dateTrunc "month" b) (dateTrunc "month" a)) =
      .ok (.span ⟨finish.monthNumber - start.monthNumber, 0, 0⟩) := by
    rw [← age_truncate_month]
    exact evaluate_apply rfl (mapM_two (hmonth b finish hb) (hmonth a start ha)) rfl
  have hquotient := evaluate_binary .div (evaluate_secondsOf hage) evaluate_secondsPerMonth rfl
  rw [if_neg (by norm_num)] at hquotient
  have hround := evaluate_apply (e := .call "round" [_]) rfl (mapM_one hquotient) rfl
  have hcast := evaluate_toInt4 hround
  rw [nearest_intCast, nearest_averageMonths, int4, if_pos (int4_holds_months start finish)] at hcast
  exact hcast

end

/-! ## Counts of units -/

/-- The days, hours, minutes or seconds between two times. The times that are cut to the unit are that many units
    apart, and that is what is given, unless what is cast to `int4` for it has no place there. -/
theorem clock_differences {c : Context} {s t : State} (args : Arguments c s t) (env : Surroundings)
    {start finish : Moment} (hstart : evaluate env args.left = .ok (.moment start))
    (hfinish : evaluate env args.right = .ok (.moment finish)) (unit : ClockUnit) :
    (finish.truncate unit.truncation).count - (start.truncate unit.truncation).count =
        unit.between start finish * (unit.length * 1000000 : Nat) ∧
      args.Yields env unit.function
        (if Postgres.Literal.NumberType.int4.holds (unit.between start finish * unit.castPerUnit) then
          .ok (.integer (unit.between start finish)) else .error .integerOutOfRange) := by
  refine ⟨?_, Arguments.yields unit.ofName?_function (evaluate_clockDifference hstart hfinish unit)⟩
  rw [unit.count_truncate, unit.count_truncate, ClockUnit.between, Int.sub_mul]

/-- The last microsecond of a millennium and the first one of the next are in different hours. -/
theorem clock_differences_new_year :
    let args := Arguments.ofParameters { mode := .query, liftConstants := false } {} "start" "finish"
      (.ofKind .dateTime)
    let start : Moment := ⟨1999, 12, 31, 86399999999, by decide, by decide, by decide, by decide⟩
    let finish : Moment := ⟨2000, 1, 1, 0, by decide, by decide, by decide, by decide⟩
    let env : Surroundings := .ofParameters [("start", .moment start), ("finish", .moment finish)]
    evaluate env args.left = .ok (.moment start) ∧ evaluate env args.right = .ok (.moment finish) ∧
      args.Yields env "DiffHours" (.ok (.integer 1)) := by
  intro args start finish env
  have hstart : evaluate env args.left = .ok (.moment start) := evaluate_unknown rfl rfl
  have hfinish : evaluate env args.right = .ok (.moment finish) := evaluate_unknown rfl rfl
  have hone : ClockUnit.hours.between start finish = 1 := by decide
  have hresult := (clock_differences args env hstart hfinish .hours).2
  rw [hone, if_pos (by decide)] at hresult
  exact ⟨hstart, hfinish, hresult⟩

/-- A century has hours that fit, with seconds that do not. -/
theorem hours_of_a_century :
    let args := Arguments.ofParameters { mode := .query, liftConstants := false } {} "start" "finish"
      (.ofKind .dateTime)
    let start : Moment := ⟨1900, 1, 1, 0, by decide, by decide, by decide, by decide⟩
    let finish : Moment := ⟨2000, 1, 1, 0, by decide, by decide, by decide, by decide⟩
    let env : Surroundings := .ofParameters [("start", .moment start), ("finish", .moment finish)]
    (finish.truncate ClockUnit.hours.truncation).count - (start.truncate ClockUnit.hours.truncation).count =
        876576 * 3600000000 ∧
      Postgres.Literal.NumberType.int4.holds 876576 = true ∧
      args.Yields env "DiffHours" (.error .integerOutOfRange) ∧
      ¬args.Yields env "DiffHours" (.ok (.integer 876576)) := by
  intro args start finish env
  have hstart : evaluate env args.left = .ok (.moment start) := evaluate_unknown rfl rfl
  have hfinish : evaluate env args.right = .ok (.moment finish) := evaluate_unknown rfl rfl
  have hcount : ClockUnit.hours.between start finish = 876576 := by decide
  have hresult := evaluate_clockDifference hstart hfinish .hours
  rw [hcount, if_neg (by decide)] at hresult
  have hfault : args.Yields env "DiffHours" (.error .integerOutOfRange) := Arguments.yields rfl hresult
  exact ⟨by decide, by decide, hfault, fun h => by cases hfault.unique h⟩

/-- The calendar months between two times. -/
theorem month_difference {c : Context} {s t : State} (args : Arguments c s t) (env : Surroundings)
    {start finish : Moment} (hstart : evaluate env args.left = .ok (.moment start))
    (hfinish : evaluate env args.right = .ok (.moment finish)) :
    args.Yields env "DiffMonths"
      (.ok (.integer ((12 * finish.year + finish.month) - (12 * start.year + start.month)))) :=
  Arguments.yields rfl (evaluate_monthDifference hstart hfinish)

/-- From the last day of a January back to the first one of a December, over more than a year. -/
theorem month_difference_december :
    let args := Arguments.ofParameters { mode := .query, liftConstants := false } {} "start" "finish"
      (.ofKind .dateTime)
    let start : Moment := ⟨2024, 1, 31, 0, by decide, by decide, by decide, by decide⟩
    let finish : Moment := ⟨2022, 12, 1, 0, by decide, by decide, by decide, by decide⟩
    let env : Surroundings := .ofParameters [("start", .moment start), ("finish", .moment finish)]
    evaluate env args.left = .ok (.moment start) ∧ evaluate env args.right = .ok (.moment finish) ∧
      args.Yields env "DiffMonths" (.ok (.integer (-13))) := by
  intro args start finish env
  have hstart : evaluate env args.left = .ok (.moment start) := evaluate_unknown rfl rfl
  have hfinish : evaluate env args.right = .ok (.moment finish) := evaluate_unknown rfl rfl
  exact ⟨hstart, hfinish, month_difference args env hstart hfinish⟩

end TreeSql.Server
