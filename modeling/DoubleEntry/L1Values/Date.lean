import Mathlib

/-!
# Calendar dates

`time::Date` with the default feature set: a proleptic Gregorian date whose
year lies in -9999..=9999. The order is chronological. The fields are those the
ledger reads: `encode_date` writes the year, the month and the day
(`src/account.rs:497-501`), the value-date check takes the difference of two
Julian day numbers (`src/entry.rs:863-866`).

A `Date` carries the proof that its day exists. Dates are ordered by year, month and day;
that day numbers have this order is shown in `Julian`.

**Results.**
* `toLexDate_injective`: a date is its year, month and day.
* `lt_iff`: the order, written out.

How a date is written is said where it is: `encodeDate` has its canonical bytes, `sqlText` its text
in a table.
-/
namespace DoubleEntry.L1

def isLeapYear (y : Int) : Bool := y % 4 = 0 ∧ (y % 100 ≠ 0 ∨ y % 400 = 0)

def daysInMonth (y : Int) : Nat → Nat
  | 2 => if isLeapYear y then 29 else 28
  | 4 | 6 | 9 | 11 => 30
  | _ => 31

theorem daysInMonth_le (y : Int) (m : Nat) : daysInMonth y m ≤ 31 := by
  unfold daysInMonth
  split
  · split <;> omega
  all_goals omega

def ValidDate (y : Int) (m d : Nat) : Prop :=
  -9999 ≤ y ∧ y ≤ 9999 ∧ 1 ≤ m ∧ m ≤ 12 ∧ 1 ≤ d ∧ d ≤ daysInMonth y m

instance (y : Int) (m d : Nat) : Decidable (ValidDate y m d) := by
  unfold ValidDate; infer_instance

structure Date where
  year : Int
  month : Nat
  day : Nat
  valid : ValidDate year month day

namespace Date

def toLexDate (d : Date) : ℤ ×ₗ ℕ ×ₗ ℕ := toLex (d.year, toLex (d.month, d.day))

theorem toLexDate_injective : Function.Injective toLexDate := by
  rintro ⟨y, m, d, h⟩ ⟨y', m', d', h'⟩ e
  simp only [toLexDate, EmbeddingLike.apply_eq_iff_eq, Prod.mk.injEq] at e
  obtain ⟨rfl, rfl, rfl⟩ := e
  rfl

instance : LinearOrder Date := LinearOrder.lift' toLexDate toLexDate_injective

theorem lt_iff {a b : Date} :
    a < b ↔ a.year < b.year ∨ a.year = b.year ∧ (a.month < b.month ∨ a.month = b.month ∧ a.day < b.day) := by
  rw [show a < b ↔ a.toLexDate < b.toLexDate from Iff.rfl]
  simp [toLexDate, Prod.Lex.toLex_lt_toLex]

/-- Days of the year before month `m`. -/
def daysBefore (y : Int) : Nat → Nat
  | 0 => 0
  | m + 1 => if m = 0 then 0 else daysBefore y m + daysInMonth y m

def ordinal (d : Date) : Nat := daysBefore d.year d.month + d.day

/-- `Date::to_julian_day`. -/
def toJulianDay (d : Date) : Int :=
  let adjYear := d.year + 999999
  let century := adjYear / 100
  1461 * adjYear / 4 - century + century / 4 + d.ordinal - 363521075

example : (⟨2000, 1, 1, by decide⟩ : Date).toJulianDay = 2451545 := by decide

end Date

end DoubleEntry.L1
