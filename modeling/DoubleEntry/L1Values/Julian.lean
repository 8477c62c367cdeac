import DoubleEntry.L1Values.Date

/-!
# Julian day numbers

A day number counts the days before the year of a date and then its ordinal. A year is
as long as its twelve months, so day numbers have the order of the dates
(`toJulianDay_strictMono`), and a year and an ordinal belong to one date
(`ordinal_inj`). All of them fit `i32` with room for the difference of two
(`toJulianDay_bounds`).

**Results.**
* `toJulianDay_eq`: the formula, as the days before the year and the ordinal.
* `daysBeforeYear_succ`, `daysBefore_succ`: a year is its months, and the next one starts behind it.
* `ordinal_bounds`, `ordinal_inj`: the ordinal of a day is in its year, and names it.
* `toJulianDay_strictMono`, `toJulianDay_bounds`: the order and the range of day numbers.
-/
namespace DoubleEntry.L1.Date

def daysInYear (y : Int) : Nat := if isLeapYear y then 366 else 365

/-- The day number of the last day before year `y`. -/
def daysBeforeYear (y : Int) : Int :=
  1461 * (y + 999999) / 4 - (y + 999999) / 100 + (y + 999999) / 100 / 4 - 363521075

theorem toJulianDay_eq (d : Date) : d.toJulianDay = daysBeforeYear d.year + d.ordinal := by
  simp only [toJulianDay, daysBeforeYear]
  omega

/-! ## Within a year -/

theorem daysBefore_succ (y : Int) {m : Nat} (hm : 1 ≤ m) : daysBefore y (m + 1) = daysBefore y m + daysInMonth y m := by
  rw [daysBefore, if_neg (by omega)]

theorem daysBefore_thirteen (y : Int) : daysBefore y 13 = daysInYear y := by
  cases h : isLeapYear y <;> simp [daysBefore, daysInMonth, daysInYear, h]

/-- A later month starts after the last day of an earlier one. -/
theorem daysBefore_add_le (y : Int) {m m' : Nat} (hm : 1 ≤ m) (h : m < m') :
    daysBefore y m + daysInMonth y m ≤ daysBefore y m' := by
  induction m', h using Nat.le_induction with
  | base => exact (daysBefore_succ y hm).ge
  | succ m' hle ih =>
    rw [daysBefore_succ y (by omega)]
    omega

theorem ordinal_bounds (d : Date) : 1 ≤ d.ordinal ∧ d.ordinal ≤ daysInYear d.year := by
  obtain ⟨-, -, hm, hm12, hd, hdm⟩ := d.valid
  have hyear := daysBefore_add_le d.year hm (show d.month < 13 by omega)
  rw [daysBefore_thirteen] at hyear
  unfold ordinal
  omega

theorem ordinal_lt {a b : Date} (hyear : a.year = b.year) (h : a < b) : a.ordinal < b.ordinal := by
  obtain ⟨-, -, hm, -, -, hd⟩ := a.valid
  obtain ⟨-, -, -, -, hd', -⟩ := b.valid
  unfold ordinal
  rw [← hyear]
  rcases lt_iff.1 h with h | ⟨-, h | ⟨hmonth, h⟩⟩
  · omega
  · have hlater := daysBefore_add_le a.year hm h
    omega
  · rw [hmonth]
    omega

/-- **A year and an ordinal belong to one date.** -/
theorem ordinal_inj {a b : Date} (hyear : a.year = b.year) (h : a.ordinal = b.ordinal) : a = b := by
  rcases lt_trichotomy a b with hlt | heq | hgt
  · exact absurd h (ordinal_lt hyear hlt).ne
  · exact heq
  · exact absurd h.symm (ordinal_lt hyear.symm hgt).ne

/-! ## Across years -/

theorem daysBeforeYear_eq (y : Int) : daysBeforeYear y =
    365 * (y + 999999) + (y + 999999) / 4 - (y + 999999) / 100 + (y + 999999) / 400 - 363521075 := by
  have hquarter : 1461 * (y + 999999) / 4 = 365 * (y + 999999) + (y + 999999) / 4 := by omega
  have hcentury : (y + 999999) / 100 / 4 = (y + 999999) / 400 := by omega
  rw [daysBeforeYear, hquarter, hcentury]

/-- A million years are whole cycles, so `y` has the remainders of `y + 1000000`. -/
theorem daysBeforeYear_succ (y : Int) : daysBeforeYear (y + 1) = daysBeforeYear y + daysInYear y := by
  have hdiv : ∀ n : Int, (n = 4 ∨ n = 100 ∨ n = 400) →
      (y + 1 + 999999) / n = (y + 999999) / n + if y % n = 0 then 1 else 0 := by
    intro n hn
    rcases hn with rfl | rfl | rfl <;> split <;> omega
  have hyear : (daysInYear y : Int) =
      365 + (if y % 4 = 0 then 1 else 0) - (if y % 100 = 0 then 1 else 0) + if y % 400 = 0 then 1 else 0 := by
    unfold daysInYear isLeapYear
    simp only [decide_eq_true_eq]
    split_ifs <;> omega
  rw [daysBeforeYear_eq, daysBeforeYear_eq, hdiv 4 (by simp), hdiv 100 (by simp), hdiv 400 (by simp), hyear]
  ring

theorem daysBeforeYear_strictMono : StrictMono daysBeforeYear := strictMono_int_of_lt_succ fun y => by
  have hpos : 0 < daysInYear y := by
    unfold daysInYear
    split <;> omega
  rw [daysBeforeYear_succ]
  omega

/-- **Day numbers have the order of the dates.** -/
theorem toJulianDay_strictMono : StrictMono toJulianDay := fun a b h => by
  have hfirst := (ordinal_bounds b).1
  have hlast := (ordinal_bounds a).2
  rw [toJulianDay_eq, toJulianDay_eq]
  rcases lt_iff.1 h with hyear | ⟨hyear, -⟩
  · have hnext := daysBeforeYear_strictMono.monotone (Int.add_one_le_of_lt hyear)
    rw [daysBeforeYear_succ] at hnext
    omega
  · have hlt := ordinal_lt hyear h
    rw [hyear]
    omega

theorem toJulianDay_bounds (d : Date) : -1930999 ≤ d.toJulianDay ∧ d.toJulianDay ≤ 5373484 := by
  obtain ⟨hlow, hhigh, -⟩ := d.valid
  have hfirst := daysBeforeYear_strictMono.monotone hlow
  have hlast := daysBeforeYear_strictMono.monotone (show d.year + 1 ≤ 10000 by omega)
  have hends : daysBeforeYear (-9999) = -1931000 ∧ daysBeforeYear 10000 = 5373484 := by decide
  have hordinal := ordinal_bounds d
  rw [daysBeforeYear_succ] at hlast
  rw [toJulianDay_eq]
  omega

end DoubleEntry.L1.Date
