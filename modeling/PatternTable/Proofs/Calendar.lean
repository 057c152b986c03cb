import Mathlib.Tactic.IntervalCases
import PatternTable.Calendar
import PatternTable.Text.Pieces

/-!
# What a written time tells

A time is written as the fields of a moment: a date and a time of day. The fields are valid and
count back to the number of seconds, so that no two times are written alike.

Dates can also be computed without counting off blocks of days. Years are then taken to start in
March, so that a leap day comes last in its year, and a few quotients tell the year of a 400-year
cycle and the month of a year. In signed 64-bit arithmetic no step of this leaves the range, for any
unsigned 64-bit number of seconds, and the fields are the same.

* `Date.IsValid`, `Date.dayNumber`: dates of the Gregorian calendar, and the days from the first of
  1970 to a date.
* `Moment`: the fields of a written time.
* `Date.ofDays?`: the date of a day, by steps of 64-bit arithmetic.

Results:
* `sum_take_add_locate`, `locate_lt`: `locate` finds the block that a day lies in, and the day's
  place in it.
* `Date.isValid_ofDayNumber`, `Date.dayNumber_ofDayNumber`: the date of a day is the date that so
  many days lead to.
* `Date.ofDays?_eq`: both ways to compute a date agree, and no step leaves the range.
* `Time.text_valid_roundtrip_and_injective`: a written time has valid fields, which lead back to it.
-/

namespace PatternTable.Calendar

/-! ## Specification -/

/-- The number of days in a month of a year. -/
def monthLength (year month : Nat) : Nat :=
  match month with
  | 2 => if isLeap year then 29 else 28
  | 4 | 6 | 9 | 11 => 30
  | _ => 31

/-- A date is one of the Gregorian calendar. -/
structure Date.IsValid (date : Date) : Prop where
  month_pos : 1 ≤ date.month
  month_le : date.month ≤ 12
  day_pos : 1 ≤ date.day
  day_le : date.day ≤ monthLength date.year date.month

/-- The number of days before a year, from the first day of 1970 on. -/
def daysBeforeYear (year : Nat) : Nat :=
  ((List.range' 1970 (year - 1970)).map yearLength).sum

/-- The number of days before a month of a year. -/
def daysBeforeMonth (year month : Nat) : Nat :=
  ((List.range' 1 (month - 1)).map (monthLength year)).sum

/-- The number of days from the first of 1970 to a date. -/
def Date.dayNumber (date : Date) : Nat :=
  daysBeforeYear date.year + daysBeforeMonth date.year date.month + (date.day - 1)

/-- The fields of a written time. -/
structure Moment where
  date : Date
  hour : Nat
  minute : Nat
  second : Nat
  deriving DecidableEq, Repr

namespace Moment

/-- The fields are a date from 1970 on and a time of day. -/
structure IsValid (moment : Moment) : Prop where
  date : moment.date.IsValid
  year : 1970 ≤ moment.date.year
  hour : moment.hour < 24
  minute : moment.minute < 60
  second : moment.second < 60

/-- The number of seconds since the start of 1970. -/
def seconds (moment : Moment) : Nat :=
  86400 * moment.date.dayNumber + 3600 * moment.hour + 60 * moment.minute + moment.second

/-- The fields in the order in which they are written. -/
def fields (moment : Moment) : List Nat :=
  [moment.date.day, moment.date.month, moment.date.year, moment.hour, moment.minute, moment.second]

/-- A moment as `DD/MM/YYYY HH:MM:SS`. -/
def text (moment : Moment) : String :=
  padded 2 moment.date.day ++ "/" ++ padded 2 moment.date.month ++ "/" ++
    padded 4 moment.date.year ++ " " ++ padded 2 moment.hour ++ ":" ++ padded 2 moment.minute ++
      ":" ++ padded 2 moment.second

end Moment

/-- The numbers in a text that are set apart by single other characters. -/
def numbersIn (text : List Char) : List Nat :=
  (Text.pieces (fun c => !c.isDigit) text).map fun digits => Nat.ofDigitChars 10 digits 0

/-- A value in signed 64-bit arithmetic, unless it is out of range. -/
def int64? (value : Int) : Option Int :=
  if -2 ^ 63 ≤ value ∧ value < 2 ^ 63 then some value else none

/-- A value cut down to unsigned 32 bits, unless that changes it. -/
def uint32? (value : Int) : Option Nat :=
  if 0 ≤ value ∧ value < 2 ^ 32 then some value.toNat else none

/-- The year of a 400-year cycle that a day of the cycle lies in. Years and cycles start in
    March. -/
def yearInCycle? (day : Int) : Option Int := do
  let leapDays ← int64? (day / 1460)
  let centuries ← int64? (day / 36524)
  let cycles ← int64? (day / 146096)
  let days ← int64? (day - leapDays)
  let days ← int64? (days + centuries)
  let days ← int64? (days - cycles)
  int64? (days / 365)

/-- The day of a year, from March on, that is a given day of its cycle. -/
def dayInYear? (day year : Int) : Option Int := do
  let days ← int64? (365 * year)
  let leapDays ← int64? (year / 4)
  let centuries ← int64? (year / 100)
  let days ← int64? (days + leapDays)
  let days ← int64? (days - centuries)
  int64? (day - days)

/-- The month and its day that a day of a year, from March on, lies in. -/
def monthAndDay? (day : Int) : Option (Nat × Nat) := do
  let fifths ← int64? (5 * day)
  let fifths ← int64? (fifths + 2)
  let monthFromMarch ← int64? (fifths / 153)
  let fifths ← int64? (153 * monthFromMarch)
  let fifths ← int64? (fifths + 2)
  let before ← int64? (fifths / 5)
  let day ← int64? (day - before)
  let day ← int64? (day + 1)
  let month ← int64? (if monthFromMarch < 10 then monthFromMarch + 3 else monthFromMarch - 9)
  return (← uint32? month, ← uint32? day)

/-- The date of a day, by steps of 64-bit arithmetic. A cycle starts on the first of March of the
    year 0, which is 719468 days before 1970. -/
def Date.ofDays? (days : Int) : Option Date := do
  let days ← int64? (days + 719468)
  let cycle ← int64? (days / 146097)
  let day ← int64? (days % 146097)
  let yearInCycle ← yearInCycle? day
  let dayInYear ← dayInYear? day yearInCycle
  let (month, day) ← monthAndDay? dayInYear
  let years ← int64? (cycle * 400)
  let year ← int64? (yearInCycle + years)
  let year ← int64? (year + if month ≤ 2 then 1 else 0)
  return ⟨year.toNat, month, day⟩

/-- The moment of an unsigned 64-bit number of seconds, by steps of 64-bit arithmetic. -/
def Moment.ofSeconds? (seconds : UInt64) : Option Moment := do
  let days ← int64? (seconds / 86400).toNat
  let date ← Date.ofDays? days
  let second := seconds % 86400
  return ⟨date, (second / 3600).toNat, (second / 60 % 60).toNat, (second % 60).toNat⟩

/-! ## Blocks of days -/

/-- The blocks before the one that a unit lies in, and its place there, make up its number. -/
theorem sum_take_add_locate (lengths : List Nat) (n : Nat) (h : n < lengths.sum) :
    (lengths.take (locate lengths n).1).sum + (locate lengths n).2 = n := by
  induction lengths generalizing n with
  | nil => simp at h
  | cons length lengths ih =>
    rw [locate]
    split
    · simp
    · next hn =>
      rw [List.sum_cons] at h
      have := ih (n - length) (by omega)
      simp only [List.take_succ_cons, List.sum_cons]
      omega

/-- The place of a unit lies in its block. -/
theorem locate_lt (lengths : List Nat) (n : Nat) (h : n < lengths.sum) :
    ∃ length, lengths[(locate lengths n).1]? = some length ∧ (locate lengths n).2 < length := by
  induction lengths generalizing n with
  | nil => simp at h
  | cons length lengths ih =>
    rw [locate]
    split
    · next hn => simpa using hn
    · next hn =>
      rw [List.sum_cons] at h
      simpa using ih (n - length) (by omega)

/-! ## Years -/

theorem sum_map_range'_succ (f : Nat → Nat) (start count : Nat) :
    ((List.range' start (count + 1)).map f).sum =
      ((List.range' start count).map f).sum + f (start + count) := by
  rw [List.range'_concat, List.map_append, List.sum_append, Nat.one_mul, List.map_singleton,
    List.sum_singleton]

theorem isLeap_iff (year : Nat) :
    isLeap year ↔ year % 4 = 0 ∧ (year % 100 ≠ 0 ∨ year % 400 = 0) := by
  simp [isLeap]

/-- The days before a year: 365 for each year, and one for each leap year. -/
theorem daysBeforeYear_eq {year : Nat} (h : 1970 ≤ year) : daysBeforeYear year + 719527 =
    365 * year + (year - 1) / 4 - (year - 1) / 100 + (year - 1) / 400 := by
  obtain ⟨count, rfl⟩ := Nat.exists_eq_add_of_le h
  induction count with
  | zero => rfl
  | succ count ih =>
    have ih := ih (Nat.le_add_right _ _)
    have hleap := isLeap_iff (1970 + count)
    rw [daysBeforeYear, Nat.add_sub_cancel_left] at ih ⊢
    rw [sum_map_range'_succ, yearLength]
    split
    · next hyear =>
      have := hleap.1 hyear
      omega
    · next hyear =>
      have := mt hleap.2 hyear
      omega

theorem sum_cycle : cycle.sum = cycleLength := by decide +kernel

/-- The calendar repeats every 400 years. -/
theorem daysBeforeYear_add_cycles {year : Nat} (h : 1970 ≤ year) (cycles : Nat) :
    daysBeforeYear (year + 400 * cycles) = cycleLength * cycles + daysBeforeYear year := by
  have hyear := daysBeforeYear_eq h
  have hlater := daysBeforeYear_eq (Nat.le_add_right_of_le (k := 400 * cycles) h)
  rw [cycleLength]
  omega

theorem yearLength_add_cycles (year cycles : Nat) :
    yearLength (year + 400 * cycles) = yearLength year := by
  have hleap : isLeap (year + 400 * cycles) = isLeap year := by
    rw [Bool.eq_iff_iff, isLeap_iff, isLeap_iff]
    omega
  rw [yearLength, yearLength, hleap]

theorem sum_take_cycle {count : Nat} (h : count ≤ 400) :
    (cycle.take count).sum = daysBeforeYear (1970 + count) := by
  rw [cycle, ← List.map_take, List.take_range'_of_length_ge h, daysBeforeYear,
    Nat.add_sub_cancel_left]

theorem getElem?_cycle {index length : Nat} (h : cycle[index]? = some length) :
    index < 400 ∧ length = yearLength (1970 + index) := by
  rw [cycle, List.getElem?_map, Option.map_eq_some_iff] at h
  obtain ⟨year, hyear, rfl⟩ := h
  obtain ⟨hlt, rfl⟩ := List.getElem?_eq_some_iff.1 hyear
  rw [List.length_range'] at hlt
  exact ⟨hlt, by rw [List.getElem_range', Nat.one_mul]⟩

/-! ## Months -/

theorem monthLengths_eq (year : Nat) :
    monthLengths year = (List.range' 1 12).map (monthLength year) := rfl

theorem sum_monthLengths (year : Nat) : (monthLengths year).sum = yearLength year := by
  cases h : isLeap year <;> simp [monthLengths, yearLength, h]

theorem sum_take_monthLengths {year count : Nat} (h : count ≤ 12) :
    ((monthLengths year).take count).sum = daysBeforeMonth year (count + 1) := by
  rw [monthLengths_eq, ← List.map_take, List.take_range'_of_length_ge h, daysBeforeMonth,
    Nat.add_sub_cancel]

theorem getElem?_monthLengths {year index length : Nat}
    (h : (monthLengths year)[index]? = some length) :
    index < 12 ∧ length = monthLength year (index + 1) := by
  obtain ⟨hlt, rfl⟩ := List.getElem?_eq_some_iff.1 h
  refine ⟨hlt, ?_⟩
  simp [monthLengths_eq, Nat.add_comm]

/-! ## Dates -/

/-- The year and the day of the year that a day is counted off to. -/
theorem exists_year (n : Nat) : ∃ year day, 1970 ≤ year ∧ day < yearLength year ∧
    daysBeforeYear year + day = n ∧
    Date.ofDayNumber n = ⟨year, (locate (monthLengths year) day).1 + 1,
      (locate (monthLengths year) day).2 + 1⟩ := by
  have hlt : n % cycleLength < cycle.sum := by
    rw [sum_cycle]
    exact Nat.mod_lt _ (by decide)
  have hsum := sum_take_add_locate cycle (n % cycleLength) hlt
  obtain ⟨length, hlength, hday⟩ := locate_lt cycle (n % cycleLength) hlt
  generalize hlocate : locate cycle (n % cycleLength) = place at hsum hlength hday
  obtain ⟨yearInCycle, day⟩ := place
  obtain ⟨hyear, rfl⟩ := getElem?_cycle hlength
  refine ⟨1970 + yearInCycle + 400 * (n / cycleLength), day, by omega, ?_, ?_, ?_⟩
  · rwa [yearLength_add_cycles]
  · rw [daysBeforeYear_add_cycles (by omega), ← sum_take_cycle (by omega)]
    simp only at hsum
    have := Nat.div_add_mod n cycleLength
    omega
  · rw [Date.ofDayNumber, hlocate, Nat.add_right_comm]

/-- The date of a day is one of the calendar, from 1970 on. -/
theorem Date.isValid_ofDayNumber (n : Nat) :
    (Date.ofDayNumber n).IsValid ∧ 1970 ≤ (Date.ofDayNumber n).year := by
  obtain ⟨year, day, hyear, hday, -, hdate⟩ := exists_year n
  rw [← sum_monthLengths] at hday
  obtain ⟨length, hlength, hlt⟩ := locate_lt (monthLengths year) day hday
  obtain ⟨hmonth, rfl⟩ := getElem?_monthLengths hlength
  rw [hdate]
  exact ⟨⟨Nat.succ_pos _, hmonth, Nat.succ_pos _, hlt⟩, hyear⟩

/-- So many days lead from the first of 1970 to the date of a day. -/
theorem Date.dayNumber_ofDayNumber (n : Nat) : (Date.ofDayNumber n).dayNumber = n := by
  obtain ⟨year, day, -, hday, hnumber, hdate⟩ := exists_year n
  rw [← sum_monthLengths] at hday
  obtain ⟨length, hlength, -⟩ := locate_lt (monthLengths year) day hday
  obtain ⟨hmonth, -⟩ := getElem?_monthLengths hlength
  have hsum := sum_take_add_locate (monthLengths year) day hday
  rw [sum_take_monthLengths (Nat.le_of_lt hmonth)] at hsum
  rw [hdate, Date.dayNumber]
  simp only [Nat.add_sub_cancel]
  rw [Nat.add_assoc, hsum, hnumber]

example : Date.ofDayNumber 19509 = ⟨2023, 6, 1⟩ := by decide +kernel

/-! ## Years that start in March -/

/-- The months from March on have 153 days in five. What comes before them in a year is January and
    February, without which a year has 306 days. -/
theorem daysBeforeMonth_eq (year : Nat) {month : Nat} (hpos : 1 ≤ month) (hle : month ≤ 12) :
    daysBeforeMonth year month + 306 = (153 * ((month + 9) % 12) + 2) / 5 +
      if month ≤ 2 then 0 else yearLength year := by
  cases h : isLeap year <;> interval_cases month <;>
    simp [daysBeforeMonth, monthLength, yearLength, List.range', h]

/-- A month ends before the next one starts, in the count of 153 days for five months. -/
theorem monthLength_le (year : Nat) {month : Nat} (hpos : 1 ≤ month) (hle : month ≤ 12) :
    (153 * ((month + 9) % 12) + 2) / 5 + monthLength year month ≤
      (153 * ((month + 9) % 12 + 1) + 2) / 5 := by
  cases h : isLeap year <;> interval_cases month <;> simp [monthLength, h]

theorem daysBeforeYear_succ {year : Nat} (h : 1970 ≤ year) :
    daysBeforeYear (year + 1) = daysBeforeYear year + yearLength year := by
  rw [daysBeforeYear, Nat.succ_sub h, sum_map_range'_succ, Nat.add_sub_cancel' h]
  rfl

namespace Date

/-- The number of days from the first of March before a date to the date. -/
def dayFromMarch (date : Date) : Nat :=
  (153 * ((date.month + 9) % 12) + 2) / 5 + (date.day - 1)

/-- The year that a date lies in, if years start in March. -/
def yearFromMarch (date : Date) : Nat :=
  if date.month ≤ 2 then date.year - 1 else date.year

namespace IsValid

variable {date : Date}

/-- Only a leap day is a 366th day after the first of March. -/
theorem dayFromMarch_le (h : date.IsValid) (hyear : 1970 ≤ date.year) :
    date.dayFromMarch ≤ 365 ∧ (date.dayFromMarch = 365 → isLeap (date.yearFromMarch + 1)) := by
  obtain ⟨hpos, hmonth, hday, hle⟩ := h
  rcases date with ⟨year, month, day⟩
  simp only [dayFromMarch, yearFromMarch] at *
  by_cases hfebruary : month = 2
  · subst hfebruary
    have hsucc : year - 1 + 1 = year := by omega
    rw [monthLength] at hle
    rw [if_pos (Nat.le_refl 2), hsucc]
    cases hleap : isLeap year with
    | true =>
      rw [hleap, if_pos rfl] at hle
      exact ⟨by omega, fun _ => rfl⟩
    | false =>
      rw [hleap, if_neg (by decide)] at hle
      omega
  · interval_cases month <;> simp only [monthLength] at hle <;> omega

theorem dayNumber_eq (h : date.IsValid) (hyear : 1970 ≤ date.year) :
    date.dayNumber + 719468 = 365 * date.yearFromMarch + date.yearFromMarch / 4 -
      date.yearFromMarch / 100 + date.yearFromMarch / 400 + date.dayFromMarch := by
  have hmonth := daysBeforeMonth_eq date.year h.month_pos h.month_le
  rw [dayNumber, dayFromMarch, yearFromMarch]
  split
  · next hle =>
    have hdays := daysBeforeYear_eq hyear
    rw [if_pos hle] at hmonth
    omega
  · next hle =>
    have hdays := daysBeforeYear_eq (Nat.le_add_right_of_le (k := 1) hyear)
    rw [daysBeforeYear_succ hyear] at hdays
    rw [if_neg hle] at hmonth
    omega

end IsValid

end Date

/-! ## 64-bit arithmetic -/

theorem int64?_eq {value : Int} (hlow : -2 ^ 63 ≤ value) (hhigh : value < 2 ^ 63) :
    int64? value = some value :=
  if_pos ⟨hlow, hhigh⟩

theorem int64?_bind {α : Type} {value : Int} (hlow : -2 ^ 63 ≤ value) (hhigh : value < 2 ^ 63)
    (next : Int → Option α) : (int64? value).bind next = next value := by
  rw [int64?_eq hlow hhigh, Option.bind_some]

theorem uint32?_eq {value : Nat} (h : value < 2 ^ 32) : uint32? value = some value :=
  if_pos ⟨Int.natCast_nonneg value, by omega⟩

/-- A day of a 400-year cycle: the days of the years before its year, and its day in the year. -/
structure IsDayInCycle (year dayInYear day : Int) : Prop where
  year_nonneg : 0 ≤ year
  year_lt : year < 400
  day_nonneg : 0 ≤ dayInYear
  day_le : dayInYear ≤ 365
  leap : dayInYear = 365 →
    (year + 1) % 4 = 0 ∧ ((year + 1) % 100 ≠ 0 ∨ (year + 1) % 400 = 0)
  eq : day = 365 * year + year / 4 - year / 100 + dayInYear

namespace IsDayInCycle

variable {year dayInYear day : Int}

/-- A day lies in the cycle that it is of. -/
theorem bounds (h : IsDayInCycle year dayInYear day) : 0 ≤ day ∧ day < 146097 := by
  obtain ⟨hyear, hlt, hnonneg, hle, hleap, heq⟩ := h
  omega

/-- Leaving out a day for every 1460 days, but for one in every century, leaves 365 days for each
    year. -/
theorem year_eq (h : IsDayInCycle year dayInYear day) :
    (day - day / 1460 + day / 36524 - day / 146096) / 365 = year := by
  obtain ⟨hyear, hlt, hnonneg, hle, hleap, heq⟩ := h
  have hcentury : year / 100 = 0 ∨ year / 100 = 1 ∨ year / 100 = 2 ∨ year / 100 = 3 := by omega
  have hlast : dayInYear ≤ 364 ∨ (year ≠ 99 ∧ year ≠ 199 ∧ year ≠ 299) := by omega
  by_cases hcycle : day = 146096
  · omega
  · -- The years of a century have at most 36524 days, and only the last day of a cycle is beyond.
    have hcycle : day / 146096 = 0 := by omega
    have hcenturies : day / 36524 = year / 100 := by
      obtain h | h | h | h := hcentury <;> omega
    rw [hcycle, hcenturies]
    obtain h | h | h | h := hcentury <;> omega

theorem yearInCycle?_eq (h : IsDayInCycle year dayInYear day) : yearInCycle? day = some year := by
  have hyear := h.year_eq
  obtain ⟨hnonneg, hlt⟩ := h.bounds
  simp (disch := omega) only [yearInCycle?, ↓Option.bind_eq_bind, ↓int64?_bind, hyear]
  exact int64?_eq (by omega) (by omega)

theorem dayInYear?_eq (h : IsDayInCycle year dayInYear day) :
    dayInYear? day year = some dayInYear := by
  obtain ⟨hyear, hlt, hnonneg, hle, hleap, heq⟩ := h
  have hday : day - (365 * year + year / 4 - year / 100) = dayInYear := by omega
  simp (disch := omega) only [dayInYear?, ↓Option.bind_eq_bind, ↓int64?_bind, hday]
  exact int64?_eq (by omega) (by omega)

end IsDayInCycle

namespace Date

/-- The day and the month of a date, by the months from March on. -/
theorem IsValid.exists_monthFromMarch {date : Date} (h : date.IsValid) :
    ∃ month : Nat, month < 12 ∧ (5 * (date.dayFromMarch : Int) + 2) / 153 = month ∧
      (if (month : Int) < 10 then (month : Int) + 3 else month - 9) = date.month ∧
      (date.dayFromMarch : Int) - (153 * month + 2) / 5 + 1 = date.day := by
  obtain ⟨hpos, hmonth, hday, hle⟩ := h
  have hnext := monthLength_le date.year hpos hmonth
  refine ⟨(date.month + 9) % 12, Nat.mod_lt _ (by decide), ?_, ?_, ?_⟩
  · rw [dayFromMarch]
    omega
  · split <;> omega
  · rw [dayFromMarch]
    omega

theorem IsValid.monthAndDay?_eq {date : Date} (h : date.IsValid) (hle : date.dayFromMarch ≤ 365) :
    monthAndDay? date.dayFromMarch = some (date.month, date.day) := by
  obtain ⟨month, hlt, hfrom, hmonth, hday⟩ := h.exists_monthFromMarch
  have hmonth_le := h.month_le
  have hnonneg := Int.natCast_nonneg date.dayFromMarch
  simp (disch := omega) only [monthAndDay?, ↓Option.bind_eq_bind, ↓int64?_bind, hfrom, hday]
  rw [hmonth, uint32?_eq (by omega), uint32?_eq (by omega)]
  rfl

/-- The days to a valid date are whole cycles of 400 years and a day of the next one. -/
theorem IsValid.exists_dayInCycle {date : Date} (h : date.IsValid) (hyear : 1970 ≤ date.year) :
    ∃ day : Int, IsDayInCycle (date.yearFromMarch % 400) date.dayFromMarch day ∧
      (date.dayNumber : Int) + 719468 = 146097 * (date.yearFromMarch / 400) + day := by
  have hnumber := h.dayNumber_eq hyear
  obtain ⟨hle, hlast⟩ := h.dayFromMarch_le hyear
  rw [isLeap_iff] at hlast
  exact ⟨_, ⟨by omega, by omega, by omega, by omega, by omega, rfl⟩, by omega⟩

/-- The steps of 64-bit arithmetic lead to the date of a day, and none leaves the range. -/
theorem ofDays?_eq {n : Nat} (h : n < 2 ^ 62) : ofDays? n = some (ofDayNumber n) := by
  obtain ⟨hvalid, hyear⟩ := isValid_ofDayNumber n
  have hnumber := dayNumber_ofDayNumber n
  generalize ofDayNumber n = date at *
  obtain ⟨day, hcycle, hdays⟩ := hvalid.exists_dayInCycle hyear
  obtain ⟨hnonneg, hlt⟩ := hcycle.bounds
  rw [hnumber] at hdays
  have hday : ((n : Int) + 719468) % 146097 = day := by omega
  have hcycles : ((n : Int) + 719468) / 146097 = date.yearFromMarch / 400 := by omega
  have hyears : (date.yearFromMarch : Int) % 400 + date.yearFromMarch / 400 * 400 =
      date.yearFromMarch := by omega
  have hyear : (date.yearFromMarch : Int) + (if date.month ≤ 2 then 1 else 0) = date.year := by
    rw [yearFromMarch]
    split <;> omega
  have hmonth := hvalid.monthAndDay?_eq (Int.ofNat_le.1 hcycle.day_le)
  simp only [ofDays?, Option.bind_eq_bind]
  rw [int64?_bind (by omega) (by omega), hcycles, hday, int64?_bind (by omega) (by omega),
    int64?_bind (by omega) (by omega), hcycle.yearInCycle?_eq, Option.bind_some,
    hcycle.dayInYear?_eq, Option.bind_some, hmonth, Option.bind_some,
    int64?_bind (by omega) (by omega), hyears, int64?_bind (by omega) (by omega), hyear,
    int64?_bind (by omega) (by omega)]
  rfl

end Date

/-! ## Written times -/

/-- Zeros in front of a number do not change it. -/
theorem ofDigitChars_padded (width n : Nat) :
    Nat.ofDigitChars 10 (padded width n).toList 0 = n := by
  have hzeros (count : Nat) : Nat.ofDigitChars 10 (List.replicate count '0') 0 = 0 := by
    induction count with
    | zero => rfl
    | succ count ih =>
      rw [List.replicate_succ, Nat.ofDigitChars_cons]
      exact ih
  rw [padded, String.toList_ofList, Nat.ofDigitChars_append, hzeros, Nat.ofDigitChars_ten_toDigits]

theorem numbersIn_padded (width n : Nat) : numbersIn (padded width n).toList = [n] := by
  have hdigits : ∀ c ∈ (padded width n).toList, (!c.isDigit) = false := fun c hc => by
    rw [isDigit_of_mem_padded hc]
    rfl
  rw [numbersIn, Text.pieces_eq_singleton _ _ hdigits, List.map_singleton, ofDigitChars_padded]

theorem numbersIn_append {c : Char} (hc : c.isDigit = false) (text rest : List Char) :
    numbersIn (text ++ c :: rest) = numbersIn text ++ numbersIn rest := by
  rw [numbersIn, Text.pieces_append_separator _ _ _ _ (by rw [hc]; rfl), List.map_append]
  rfl

namespace Moment

/-- The fields can be read off the text. -/
theorem numbersIn_text (moment : Moment) : numbersIn moment.text.toList = moment.fields := by
  have htext : moment.text.toList = (padded 2 moment.date.day).toList ++ '/' ::
      ((padded 2 moment.date.month).toList ++ '/' :: ((padded 4 moment.date.year).toList ++ ' ' ::
        ((padded 2 moment.hour).toList ++ ':' :: ((padded 2 moment.minute).toList ++ ':' ::
          (padded 2 moment.second).toList)))) := by
    simp [text]
  rw [htext]
  iterate 5 rw [numbersIn_append (by decide), numbersIn_padded]
  rw [numbersIn_padded]
  rfl

theorem eq_of_fields {moment other : Moment} (h : moment.fields = other.fields) :
    moment = other := by
  obtain ⟨⟨year, month, day⟩, hour, minute, second⟩ := moment
  obtain ⟨⟨year', month', day'⟩, hour', minute', second'⟩ := other
  simp only [fields, List.cons.injEq, and_true] at h
  obtain ⟨rfl, rfl, rfl, rfl, rfl, rfl⟩ := h
  rfl

end Moment

namespace Time

/-- The fields that a time is written with. -/
def moment (time : Time) : Moment :=
  let second := time.seconds % 86400
  ⟨Date.ofDayNumber (time.seconds / 86400), second / 3600, second / 60 % 60, second % 60⟩

theorem text_moment (time : Time) : time.moment.text = time.text := rfl

theorem isValid_moment (time : Time) : time.moment.IsValid := by
  obtain ⟨hdate, hyear⟩ := Date.isValid_ofDayNumber (time.seconds / 86400)
  exact ⟨hdate, hyear, by simp only [moment]; omega, by simp only [moment]; omega,
    by simp only [moment]; omega⟩

theorem seconds_moment (time : Time) : time.moment.seconds = time.seconds := by
  rw [Moment.seconds, moment, Date.dayNumber_ofDayNumber]
  simp only
  omega

end Time

/-- The steps of 64-bit arithmetic lead to the fields that a time is written with. -/
theorem Moment.ofSeconds?_eq (seconds : UInt64) :
    ofSeconds? seconds = some (Time.mk seconds.toNat).moment := by
  have hlt := seconds.toNat_lt
  have hdays : (seconds / 86400).toNat = seconds.toNat / 86400 := UInt64.toNat_div seconds 86400
  have hdate : Date.ofDays? (seconds.toNat / 86400 : Nat) = _ := Date.ofDays?_eq (by omega)
  simp only [ofSeconds?, Option.bind_eq_bind]
  rw [hdays, int64?_bind (by omega) (by omega), hdate, Option.bind_some]
  simp only [UInt64.toNat_div, UInt64.toNat_mod]
  rfl

/-- A written time tells a valid date and a time of day, which count back to the seconds of the
    time, and 64-bit arithmetic computes them without leaving its range. So different times are
    written differently. -/
theorem Time.text_valid_roundtrip_and_injective :
    (∀ seconds : UInt64, ∃ moment : Moment, moment.text = (Time.mk seconds.toNat).text ∧
      numbersIn (Time.mk seconds.toNat).text.toList = moment.fields ∧ moment.IsValid ∧
      moment.seconds = seconds.toNat ∧ Moment.ofSeconds? seconds = some moment) ∧
    Function.Injective fun seconds : UInt64 => (Time.mk seconds.toNat).text := by
  constructor
  · intro seconds
    let time : Time := ⟨seconds.toNat⟩
    exact ⟨time.moment, time.text_moment, time.moment.numbersIn_text, time.isValid_moment,
      time.seconds_moment, Moment.ofSeconds?_eq seconds⟩
  · intro seconds other h
    have hfields := congrArg (fun text => numbersIn text.toList) h
    simp only [← text_moment, Moment.numbersIn_text] at hfields
    have hseconds := congrArg Moment.seconds (Moment.eq_of_fields hfields)
    rw [seconds_moment, seconds_moment] at hseconds
    exact UInt64.toNat_inj.1 hseconds

end PatternTable.Calendar
