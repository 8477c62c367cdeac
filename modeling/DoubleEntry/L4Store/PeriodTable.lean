import DoubleEntry.Core.Except
import DoubleEntry.L3Ledger.PeriodIndex

/-!
# The `periods` table

Both SQL backends keep the calendar as rows of one table with `period_id` as its
primary key, and rebuild a `PeriodCalendar` from all rows for every check: the
watermark is not stored. A row is a `Period`; its state column holds one of the
three texts the CHECK constraint admits, which `period_state_str` writes and
`period_row` reads back, so it is modelled by the state.

The backends differ in how a date is compared in SQL: Postgres has a DATE type,
SQLite compares the text `YYYY-MM-DD` (`sqlText`).

**Results.**
* `calendar_ok_of_disjoint`: rows that are ordered and disjoint rebuild a calendar, in any order.
* `CalendarOf.sealed_le`: the watermark it is given covers the sealed rows.
* `CalendarOf.notBefore`: while sealed rows stay, it does not move back.

A Postgres DATE holds no day before `firstDay`; a text column holds every date.
-/
namespace DoubleEntry.L4

open DoubleEntry.Core DoubleEntry.L1 DoubleEntry.L3

/-! ## SQL dates -/

/-- `n` in exactly `w` decimal digits. -/
def paddedDigits : Nat → Nat → List Char
  | 0, _ => []
  | w + 1, n => paddedDigits w (n / 10) ++ [Nat.digitChar (n % 10)]

/-- The text a date is bound as: `[year]-[month]-[day]`, the year in four digits
with a sign when negative. -/
def sqlText (d : Date) : List Char :=
  (if d.year < 0 then ['-'] else []) ++ paddedDigits 4 d.year.natAbs ++ '-' :: paddedDigits 2 d.month ++
    '-' :: paddedDigits 2 d.day

/-- How a backend's SQL orders dates, and which it can be handed. -/
structure Dialect where
  dateLE : Date → Date → Bool
  storesDate : Date → Bool

/-- The first day a DATE of Postgres can be, 24 November 4714 BC. -/
def firstDay : Date := ⟨-4713, 11, 24, by decide⟩

/-- DATE columns. A date before the first day is refused when it is bound. -/
def postgres : Dialect := ⟨fun a b => a ≤ b, fun d => firstDay ≤ d⟩

def sqlite : Dialect := ⟨fun a b => sqlText a ≤ sqlText b, fun _ => true⟩

example : sqlite.dateLE ⟨2026, 2, 28, by decide⟩ ⟨2026, 3, 1, by decide⟩ = true := by decide

/-! ## Rows -/

/-- The rows by primary key.
mirrors schema/sqlite.sql:76-85, schema/postgres.sql:76-88 -/
structure PeriodTable where
  rows : OrdMap PeriodId Period
  keyed : ∀ id r, rows.get? id = some r → r.id = id

namespace PeriodTable

def empty : PeriodTable := ⟨.empty, fun _ _ h => by simp at h⟩

instance : DecidableEq PeriodTable := fun t u =>
  decidable_of_iff (t.rows = u.rows) ⟨fun h => by cases t; cases u; congr, fun h => h ▸ rfl⟩

theorem keyed_insert (t : PeriodTable) {id : PeriodId} {p : Period} (h : p.id = id) :
    ∀ id' r, (t.rows.insert id p).get? id' = some r → r.id = id' := by
  intro id' r hr
  rw [OrdMap.get?_insert] at hr
  split at hr
  · rename_i e
    cases hr
    exact h.trans e
  · exact t.keyed _ _ hr

/-- `INSERT .. ON CONFLICT (period_id) DO UPDATE SET` every other column. -/
def upsert (t : PeriodTable) (p : Period) : PeriodTable := ⟨t.rows.insert p.id p, t.keyed_insert rfl⟩

/-- `UPDATE periods SET state = .. WHERE period_id = ..`: no row, no change. -/
def updateState (t : PeriodTable) (id : PeriodId) (state : PeriodState) : PeriodTable :=
  match h : t.rows.get? id with
  | some r => ⟨t.rows.insert id { r with state := state }, t.keyed_insert (show r.id = id from t.keyed id r h)⟩
  | none => t

/-- `SELECT .. FROM periods ORDER BY starts_on`. -/
def select (D : Dialect) (t : PeriodTable) : List Period :=
  t.rows.values.insertionSort fun a b => D.dateLE a.start b.start

variable {t u : PeriodTable} {id id' : PeriodId} {p q r : Period} {state : PeriodState}

@[ext] theorem ext_get? (h : ∀ id, t.rows.get? id = u.rows.get? id) : t = u := by
  have := OrdMap.ext_get? h
  cases t; cases u; congr

theorem get?_upsert : (t.upsert p).rows.get? id = if p.id = id then some p else t.rows.get? id :=
  OrdMap.get?_insert

theorem updateState_none (h : t.rows.get? id = none) : t.updateState id state = t := by
  unfold updateState
  split
  · rename_i hr; rw [h] at hr; cases hr
  · rfl

theorem get?_updateState (h : t.rows.get? id = some r) : (t.updateState id state).rows.get? id' =
    if id = id' then some { r with state := state } else t.rows.get? id' := by
  unfold updateState
  split
  · rename_i r' hr
    obtain rfl : r = r' := by simpa [h] using hr
    exact OrdMap.get?_insert
  · rename_i hr; rw [h] at hr; cases hr

theorem mem_select {D : Dialect} : p ∈ t.select D ↔ t.rows.get? p.id = some p := by
  rw [select, List.mem_insertionSort, OrdMap.mem_values]
  exact ⟨fun ⟨k, h⟩ => t.keyed _ _ h ▸ h, fun h => ⟨_, h⟩⟩

/-- Every range is ordered and no two overlap. -/
structure Disjoint (t : PeriodTable) : Prop where
  ordered : ∀ id r, t.rows.get? id = some r → r.start ≤ r.end
  apart : ∀ id r id' r', t.rows.get? id = some r → t.rows.get? id' = some r' → id ≠ id' →
    r.overlaps r' = false

theorem get?_upsert_cases (h : (t.upsert p).rows.get? id = some r) :
    (id = p.id ∧ r = p) ∨ (id ≠ p.id ∧ t.rows.get? id = some r) := by
  rw [get?_upsert] at h
  split at h
  · rename_i e
    cases h
    exact .inl ⟨e.symm, rfl⟩
  · rename_i e
    exact .inr ⟨Ne.symm e, h⟩

theorem Disjoint.upsert (h : t.Disjoint) (ho : p.start ≤ p.end)
    (hno : ∀ id r, t.rows.get? id = some r → id ≠ p.id → r.overlaps p = false) : (t.upsert p).Disjoint := by
  refine ⟨fun id r hr => ?_, fun id₁ r₁ id₂ r₂ h₁ h₂ hne => ?_⟩
  · rcases get?_upsert_cases hr with ⟨-, rfl⟩ | ⟨-, hr⟩
    · exact ho
    · exact h.ordered _ _ hr
  · rcases get?_upsert_cases h₁ with ⟨e₁, rfl⟩ | ⟨n₁, g₁⟩ <;>
      rcases get?_upsert_cases h₂ with ⟨e₂, rfl⟩ | ⟨n₂, g₂⟩
    · exact absurd (e₁.trans e₂.symm) hne
    · rw [PeriodCalendar.overlaps_comm]
      exact hno _ _ g₂ n₂
    · exact hno _ _ g₁ n₁
    · exact h.apart _ _ _ _ g₁ g₂ hne

theorem Disjoint.updateState (h : t.Disjoint) (hq : t.rows.get? id' = some q) :
    (t.updateState id' state).Disjoint := by
  have back : ∀ {id r}, (t.updateState id' state).rows.get? id = some r →
      ∃ r', t.rows.get? id = some r' ∧ r.start = r'.start ∧ r.end = r'.end := by
    intro id r hr
    rw [get?_updateState hq] at hr
    split at hr
    · rename_i e
      cases hr
      exact ⟨q, e ▸ hq, rfl, rfl⟩
    · exact ⟨r, hr, rfl, rfl⟩
  refine ⟨fun id r hr => ?_, fun id₁ r₁ id₂ r₂ h₁ h₂ hne => ?_⟩
  · obtain ⟨r', hr', e1, e2⟩ := back hr
    rw [e1, e2]
    exact h.ordered _ _ hr'
  · obtain ⟨r₁', h₁', e1, e2⟩ := back h₁
    obtain ⟨r₂', h₂', e3, e4⟩ := back h₂
    have := h.apart _ _ _ _ h₁' h₂' hne
    rwa [PeriodCalendar.overlaps_eq_false, ← e1, ← e2, ← e3, ← e4,
      ← PeriodCalendar.overlaps_eq_false] at this

/-- Every sealed row of `t` is a row of `u`. -/
def SealedRowsStay (t u : PeriodTable) : Prop :=
  ∀ id r, t.rows.get? id = some r → r.state = .sealed → u.rows.get? id = some r

end PeriodTable

/-! ## Rebuilding the calendar -/

/-- What a store call fails with: a refusal of the calendar's rules, a row that
cannot be read back, or a constraint (or any other failure) of the database.
mirrors the variants of `SqliteError` and `PostgresError` these calls return -/
inductive SqlError where
  | period (e : PeriodError)
  | malformed
  | database
  deriving DecidableEq

/-- mirrors src/storage/sqlite.rs:1872-1888, src/storage/postgres.rs:1458-1467 -/
def periodRow (r : Period) : Except SqlError Period :=
  match Period.new r.id r.start r.end with
  | .ok p => .ok { p with state := r.state }
  | .error _ => .error .malformed

/-- mirrors src/storage/sqlite.rs:1274-1281, src/storage/postgres.rs:1450-1471 -/
def periods (D : Dialect) (t : PeriodTable) : Except SqlError (List Period) :=
  (t.select D).mapM periodRow

/-- mirrors src/storage/sqlite.rs:309-311, src/storage/postgres.rs:427-431 -/
def calendar (D : Dialect) (t : PeriodTable) : Except SqlError PeriodCalendar :=
  periods D t >>= fun ps => (PeriodCalendar.fromPeriods ps).mapError .period

/-- `c` is the calendar of the rows. -/
structure CalendarOf (t : PeriodTable) (c : PeriodCalendar) : Prop where
  get : ∀ id, c.get id = t.rows.get? id
  wellFormed : c.WellFormed
  watermark : c.Watermark

variable {D : Dialect} {t u : PeriodTable} {c : PeriodCalendar} {id : PeriodId} {p r : Period}

theorem periodRow_eq_ok : periodRow r = .ok p ↔ r.start ≤ r.end ∧ p = r := by
  unfold periodRow Period.new
  by_cases h : r.end < r.start
  · simp [h]
  · simp only [h, if_false, Except.ok.injEq, not_lt.1 h, true_and]
    exact eq_comm

theorem calendarOf_of_ok (h : calendar D t = .ok c) : CalendarOf t c ∧ t.Disjoint := by
  obtain ⟨ps, hp, hf⟩ := bind_eq_ok.1 h
  obtain ⟨rfl, hro⟩ := mapM_eq_ok_self (fun a b h => (periodRow_eq_ok.1 h).2) hp
  have ho : ∀ p ∈ t.select D, p.start ≤ p.end := fun p hm => (periodRow_eq_ok.1 (hro p hm)).1
  obtain ⟨hw, hm, hg⟩ := PeriodCalendar.foldlM_define PeriodCalendar.wellFormed_new
    PeriodCalendar.watermark_new ho (mapError_eq_ok.1 hf)
  have hget : ∀ id, c.get id = t.rows.get? id := fun id => Option.ext fun q => by
    rw [hg, PeriodCalendar.get_new, PeriodTable.mem_select]
    simp only [reduceCtorEq, false_or]
    constructor
    · rintro ⟨hq, rfl⟩
      exact hq
    · intro hq
      have hid := t.keyed _ _ hq
      exact ⟨hid ▸ hq, hid⟩
  refine ⟨⟨hget, hw, hm⟩, fun id r hr => hw.ordered id r (by rw [hget, hr]), ?_⟩
  intro id r id' r' hr hr'
  exact hw.disjoint id r id' r' (by rw [hget, hr]) (by rw [hget, hr'])

theorem calendar_ok_of_disjoint (D : Dialect) (h : t.Disjoint) : ∃ c, calendar D t = .ok c := by
  have hp : periods D t = .ok (t.select D) := mapM_ok_of_forall fun r hr =>
    periodRow_eq_ok.2 ⟨h.ordered _ _ (PeriodTable.mem_select.1 hr), rfl⟩
  have hnd : (t.rows.values).Pairwise fun p q => p.id ≠ q.id ∧ p.overlaps q = false := by
    refine List.pairwise_map.2 (t.rows.increasing.imp_of_mem fun {a b} ha hb hlt => ?_)
    have hga := OrdMap.mem_entries.1 ha
    have hgb := OrdMap.mem_entries.1 hb
    have hne : a.1 ≠ b.1 := ne_of_lt hlt
    exact ⟨by rwa [t.keyed _ _ hga, t.keyed _ _ hgb], h.apart _ _ _ _ hga hgb hne⟩
  obtain ⟨c, hc⟩ := PeriodCalendar.fromPeriods_ok (List.perm_insertionSort (fun a b => D.dateLE a.start b.start) t.rows.values) hnd
  exact ⟨c, bind_eq_ok.2 ⟨_, hp, mapError_eq_ok.2 hc⟩⟩

/-- A sealed row lies at or before the rebuilt watermark. -/
theorem CalendarOf.sealed_le (h : CalendarOf t c) (hr : t.rows.get? id = some r) (hs : r.state = .sealed) :
    ∃ d ∈ c.sealedThrough, r.end ≤ d :=
  h.watermark.covers id r (by rw [h.get, hr]) hs

/-- When the sealed rows stay, the rebuilt watermark does not move back. -/
theorem CalendarOf.notBefore {c' : PeriodCalendar} (h : CalendarOf t c) (h' : CalendarOf u c')
    (hs : t.SealedRowsStay u) : PeriodCalendar.NotBefore c.sealedThrough c'.sealedThrough := by
  intro d hd
  obtain ⟨id, r, hr, hrs, rfl⟩ := h.watermark.attained d hd
  rw [h.get] at hr
  exact h'.sealed_le (hs id r hr hrs) hrs

end DoubleEntry.L4
