import Mathlib.Algebra.GroupWithZero.Nat
import Mathlib.Data.List.Basic

/-!
# The Gregorian calendar

Dates, their weekdays and the minutes of local time. Within 28 years every weekday falls on every
day of every month, the 29th of February included.
-/

namespace MtShards.Core.Gregorian

def isLeap (year : Nat) : Bool := year % 4 = 0 ∧ year % 100 ≠ 0 ∨ year % 400 = 0

/-- The number of days of a month. -/
def monthLength (year : Nat) : Nat → Nat
  | 2 => if isLeap year then 29 else 28
  | 4 | 6 | 9 | 11 => 30
  | _ => 31

/-- The length that a month can have. -/
def longest (month : Nat) : Nat := monthLength 2000 month

def daysBeforeYear (year : Nat) : Nat :=
  365 * (year - 1) + (year - 1) / 4 - (year - 1) / 100 + (year - 1) / 400

def daysBeforeMonth (year month : Nat) : Nat :=
  ((List.range' 1 (month - 1)).map (monthLength year)).sum

/-- The weekday of a date, from 0 for Sunday; the first day of the year 1 is a Monday. -/
def weekday (year month day : Nat) : Nat :=
  (daysBeforeYear year + daysBeforeMonth year month + day) % 7

example : weekday 2024 2 29 = 4 := by decide

/-- A minute of local time. -/
structure LocalMinute where
  year : Nat
  month : Nat
  day : Nat
  hour : Nat
  minute : Nat
  month_mem : 1 ≤ month ∧ month ≤ 12
  day_mem : 1 ≤ day ∧ day ≤ monthLength year month
  hour_lt : hour < 24
  minute_lt : minute < 60

/-- The weekday of a minute. -/
def LocalMinute.weekday (t : LocalMinute) : Nat := Gregorian.weekday t.year t.month t.day

theorem LocalMinute.weekday_lt (t : LocalMinute) : t.weekday < 7 := Nat.mod_lt _ (by decide)

theorem monthLength_of_leap {year : Nat} (h : isLeap year = true) (month : Nat) :
    monthLength year month = longest month := by
  have h2000 : isLeap 2000 = true := by decide
  unfold longest monthLength
  split <;> simp [h, h2000]

theorem monthLength_le_longest (year month : Nat) : monthLength year month ≤ longest month := by
  have h2000 : isLeap 2000 = true := by decide
  unfold longest monthLength
  split
  · simp only [h2000]
    split <;> decide
  · exact Nat.le_refl _
  · exact Nat.le_refl _
  · exact Nat.le_refl _
  · exact Nat.le_refl _
  · exact Nat.le_refl _

private theorem daysBeforeMonth_of_leap {year : Nat} (h : isLeap year = true) (month : Nat) :
    daysBeforeMonth year month = daysBeforeMonth 2000 month := by
  unfold daysBeforeMonth
  rw [List.map_congr_left fun m _ => monthLength_of_leap h m]
  rfl

/-- Every weekday falls on every day of every month in some leap year. -/
theorem exists_leap_weekday (month day : Nat) {w : Nat} (hw : w < 7) :
    ∃ year, isLeap year = true ∧ weekday year month day = w := by
  have hyear : ∀ k < 7, isLeap (2000 + 4 * k) = true ∧
      daysBeforeYear (2000 + 4 * k) = daysBeforeYear 2000 + 1461 * k := by decide
  -- four years make five days over whole weeks, and three times five is one more than a multiple of 7
  let gap := w + 7 - (daysBeforeYear 2000 + daysBeforeMonth 2000 month + day) % 7
  obtain ⟨hleap, hdays⟩ := hyear (3 * gap % 7) (Nat.mod_lt _ (by decide))
  refine ⟨2000 + 4 * (3 * gap % 7), hleap, ?_⟩
  rw [weekday, hdays, daysBeforeMonth_of_leap hleap]
  omega

/-- A minute at any weekday on any day that the month can have. -/
theorem exists_minute {month day w hour minute : Nat} (hmonth : 1 ≤ month ∧ month ≤ 12)
    (hday : 1 ≤ day ∧ day ≤ longest month) (hw : w < 7) (hhour : hour < 24) (hminute : minute < 60) :
    ∃ t : LocalMinute, t.month = month ∧ t.day = day ∧ t.weekday = w ∧ t.hour = hour ∧
      t.minute = minute := by
  obtain ⟨year, hleap, hweekday⟩ := exists_leap_weekday month day hw
  have hmem : 1 ≤ day ∧ day ≤ monthLength year month := by
    rw [monthLength_of_leap hleap]
    exact hday
  exact ⟨⟨year, month, day, hour, minute, hmonth, hmem, hhour, hminute⟩, rfl, rfl, hweekday, rfl, rfl⟩

end MtShards.Core.Gregorian
