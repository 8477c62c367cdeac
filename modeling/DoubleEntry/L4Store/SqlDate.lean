import DoubleEntry.L4Store.PeriodTable

/-!
# Dates in SQL text

SQLite compares booking dates as the text they are bound as. Digits of one width
compare like the numbers they write, so for years that are not negative text
order is date order (`sqlite_dateLE`). A negative year carries a sign and then
its digits, and two of them compare the other way round.

**Results.**
* `paddedDigits_lt`: texts of one width.
* `sqlText_lt`, `sqlite_dateLE`: dates of years that are not negative.

What is asked of dates with a sign is in `Backend.Orders` and `Backend.Unsigned`.
-/
namespace DoubleEntry.L4

open DoubleEntry.Core DoubleEntry.L1 DoubleEntry.L3

theorem append_lt_append {α : Type} [LinearOrder α] {l l' r r' : List α} (h : l.length = l'.length) :
    l ++ r < l' ++ r' ↔ l < l' ∨ (l = l' ∧ r < r') := by
  induction l generalizing l' with
  | nil =>
    obtain rfl : l' = [] := List.length_eq_zero_iff.1 h.symm
    simp
  | cons a l ih =>
    cases l' with
    | nil => cases h
    | cons b l' =>
      have hl : l.length = l'.length := by simpa using h
      rw [List.cons_append, List.cons_append, List.cons_lt_cons_iff, List.cons_lt_cons_iff, ih hl, List.cons.injEq]
      tauto

@[simp] theorem length_paddedDigits (w n : Nat) : (paddedDigits w n).length = w := by
  induction w generalizing n with
  | zero => rfl
  | succ w ih => simp [paddedDigits, ih]

theorem digitChar_lt {a b : Nat} (ha : a < 10) (hb : b < 10) : Nat.digitChar a < Nat.digitChar b ↔ a < b := by
  interval_cases a <;> interval_cases b <;> decide

theorem digitChar_inj {a b : Nat} (ha : a < 10) (hb : b < 10) (h : Nat.digitChar a = Nat.digitChar b) : a = b := by
  interval_cases a <;> interval_cases b <;> first | rfl | cases h

theorem paddedDigits_inj {w a b : Nat} (ha : a < 10 ^ w) (hb : b < 10 ^ w) (h : paddedDigits w a = paddedDigits w b) :
    a = b := by
  induction w generalizing a b with
  | zero => omega
  | succ w ih =>
    obtain ⟨hq, hr⟩ := List.append_inj h (by simp)
    have hq := ih (by omega) (by omega) hq
    have hr := digitChar_inj (Nat.mod_lt a (by omega)) (Nat.mod_lt b (by omega)) (by simpa using hr)
    omega

/-- Digits of one width compare like the numbers. -/
theorem paddedDigits_lt {w a b : Nat} (ha : a < 10 ^ w) (hb : b < 10 ^ w) :
    paddedDigits w a < paddedDigits w b ↔ a < b := by
  induction w generalizing a b with
  | zero => simp [paddedDigits]; omega
  | succ w ih =>
    have ha' : a / 10 < 10 ^ w := by omega
    have hb' : b / 10 < 10 ^ w := by omega
    have hd := digitChar_lt (Nat.mod_lt a (show 0 < 10 by omega)) (Nat.mod_lt b (show 0 < 10 by omega))
    rw [paddedDigits, paddedDigits, append_lt_append (by simp), ih ha' hb', List.cons_lt_cons_iff, hd]
    constructor
    · rintro (h | ⟨h, h' | h'⟩)
      · omega
      · have := paddedDigits_inj ha' hb' h
        omega
      · exact absurd h'.2 (lt_irrefl _)
    · intro h
      by_cases e : a / 10 = b / 10
      · exact .inr ⟨by rw [e], .inl (by omega)⟩
      · exact .inl (by omega)

/-- For years that are not negative, text order is date order. -/
theorem sqlText_lt {a b : Date} (ha : 0 ≤ a.year) (hb : 0 ≤ b.year) : sqlText a < sqlText b ↔ a < b := by
  obtain ⟨-, hya, -, hma, -, hda⟩ := a.valid
  obtain ⟨-, hyb, -, hmb, -, hdb⟩ := b.valid
  have hda := hda.trans (daysInMonth_le _ _)
  have hdb := hdb.trans (daysInMonth_le _ _)
  have yearLt := paddedDigits_lt (w := 4) (a := a.year.natAbs) (b := b.year.natAbs) (by omega) (by omega)
  have yearInj := paddedDigits_inj (w := 4) (a := a.year.natAbs) (b := b.year.natAbs) (by omega) (by omega)
  have monthLt := paddedDigits_lt (w := 2) (a := a.month) (b := b.month) (by omega) (by omega)
  have monthInj := paddedDigits_inj (w := 2) (a := a.month) (b := b.month) (by omega) (by omega)
  have dayLt := paddedDigits_lt (w := 2) (a := a.day) (b := b.day) (by omega) (by omega)
  unfold sqlText
  rw [if_neg (by omega), if_neg (by omega), List.nil_append, List.nil_append, List.append_assoc, List.append_assoc,
    append_lt_append (by simp), yearLt, List.cons_append, List.cons_append, List.cons_lt_cons_iff,
    append_lt_append (by simp), monthLt, List.cons_lt_cons_iff, dayLt, Date.lt_iff]
  simp only [lt_irrefl, false_or, true_and]
  constructor
  · rintro (h | ⟨h, h' | ⟨h', h''⟩⟩)
    · exact .inl (by omega)
    · exact .inr ⟨by have := yearInj h; omega, .inl h'⟩
    · exact .inr ⟨by have := yearInj h; omega, .inr ⟨monthInj h', h''⟩⟩
  · rintro (h | ⟨h, h' | ⟨h', h''⟩⟩)
    · exact .inl (by omega)
    · exact .inr ⟨by rw [h], .inl h'⟩
    · exact .inr ⟨by rw [h], .inr ⟨by rw [h'], h''⟩⟩

theorem sqlite_dateLE {a b : Date} (ha : 0 ≤ a.year) (hb : 0 ≤ b.year) : sqlite.dateLE a b = true ↔ a ≤ b := by
  rw [sqlite, decide_eq_true_eq, ← not_lt, sqlText_lt hb ha, not_lt]

end DoubleEntry.L4
