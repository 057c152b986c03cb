/-!
# Calendar times

A time is a number of seconds since the start of 1970, in UTC. It is written with the day, month and
year of the proleptic Gregorian calendar and the time of day, as `DD/MM/YYYY HH:MM:SS`.

Days are counted off in blocks of known length. The calendar repeats every 400 years, so a day lies
in one of the 400 years of some cycle that starts with 1970, and in one of the twelve months of its
year.

Results:
* `isDigit_of_mem_padded`: a padded number has digits only.
-/

namespace PatternTable.Calendar

/-! ## Blocks of days -/

/-- The block that unit `n` lies in when blocks of the given lengths follow each other, and the
    place of the unit in its block. -/
def locate : List Nat → Nat → Nat × Nat
  | [], n => (0, n)
  | length :: lengths, n =>
    if n < length then (0, n)
    else
      let (block, place) := locate lengths (n - length)
      (block + 1, place)

/-! ## Dates -/

/-- Whether a year has a leap day. -/
def isLeap (year : Nat) : Bool :=
  year % 4 == 0 && (year % 100 != 0 || year % 400 == 0)

/-- The number of days in each month of a year. -/
def monthLengths (year : Nat) : List Nat :=
  [31, if isLeap year then 29 else 28, 31, 30, 31, 30, 31, 31, 30, 31, 30, 31]

/-- The number of days in a year. -/
def yearLength (year : Nat) : Nat :=
  if isLeap year then 366 else 365

/-- The number of days in 400 years. -/
def cycleLength : Nat := 146097

/-- The number of days in each of the 400 years from 1970 on. -/
def cycle : List Nat :=
  (List.range' 1970 400).map yearLength

/-- A day of the calendar. -/
structure Date where
  year : Nat
  month : Nat
  day : Nat
  deriving DecidableEq, Repr

/-- The date of a day, numbered from the first day of 1970. -/
def Date.ofDayNumber (n : Nat) : Date :=
  let (yearInCycle, dayInYear) := locate cycle (n % cycleLength)
  let year := 1970 + 400 * (n / cycleLength) + yearInCycle
  let (month, day) := locate (monthLengths year) dayInYear
  ⟨year, month + 1, day + 1⟩

/-! ## Times -/

/-- A number of seconds since the start of 1970. -/
structure Time where
  seconds : Nat
  deriving DecidableEq, Repr

/-- The digits of a number, with zeros in front up to a width. -/
def padded (width n : Nat) : String :=
  let digits := Nat.toDigits 10 n
  String.ofList (List.replicate (width - digits.length) '0' ++ digits)

theorem isDigit_of_mem_padded {width n : Nat} {c : Char} (h : c ∈ (padded width n).toList) :
    c.isDigit := by
  rw [padded, String.toList_ofList, List.mem_append] at h
  obtain h | h := h
  · rw [List.eq_of_mem_replicate h]
    rfl
  · exact Nat.isDigit_of_mem_toDigits (by decide) (by decide) h

/-- A time as `DD/MM/YYYY HH:MM:SS`. -/
def Time.text (time : Time) : String :=
  let date := Date.ofDayNumber (time.seconds / 86400)
  let second := time.seconds % 86400
  padded 2 date.day ++ "/" ++ padded 2 date.month ++ "/" ++ padded 4 date.year ++ " " ++
    padded 2 (second / 3600) ++ ":" ++ padded 2 (second / 60 % 60) ++ ":" ++ padded 2 (second % 60)

end PatternTable.Calendar
