import DoubleEntry.L1Values.Date
import DoubleEntry.L1Values.Label

/-!
# The period calendar

A period is a range of booking dates with a lifecycle state. The calendar keeps
the periods by identifier, an index from start date to identifier, and the
sealed watermark `sealedThrough`: the greatest end date over the periods that
have been sealed. Every mutator checks before it writes, so a refused call
returns the error and nothing else.

The fields of `Period` are public, so a range may be inverted; only
`Period.new` checks it.

**Results.**
* `define_eq_ok`, `ensure_eq_ok`, `transition_eq_ok`, `checkSealable_eq_ok`: what each call
  accepts, and what it leaves behind.
* `notBefore_markSealedThrough`, `markSealedThrough_covers`: whatever is written, the watermark
  does not move back, and it covers a sealed period.
-/
namespace DoubleEntry.L3

open DoubleEntry.Core DoubleEntry.L1

/-- mirrors src/period.rs:29-36 -/
inductive PeriodState where
  | «open»
  | closing
  | sealed
  deriving DecidableEq, Repr

/-- mirrors src/period.rs:41-43 -/
def PeriodState.acceptsPostings (s : PeriodState) : Bool := s = .open

/-- mirrors src/period.rs:131-209 -/
inductive PeriodError where
  | endBeforeStart (id : PeriodId) (start «end» : Date)
  | overlap (id existing : PeriodId)
  | duplicate (id : PeriodId)
  | unknown (id : PeriodId)
  | invalidTransition (id : PeriodId) (fromState target : PeriodState)
  | notClosing (id : PeriodId) (state : PeriodState)
  | sealedOutOfOrder (id : PeriodId) (ends sealedThrough : Date)
  | unsealedPredecessor (id predecessor : PeriodId) (state : PeriodState)
  deriving DecidableEq

/-- mirrors src/period.rs:212-221 -/
structure Period where
  id : PeriodId
  start : Date
  «end» : Date
  state : PeriodState
  deriving DecidableEq

namespace Period

/-- mirrors src/period.rs:225-235 -/
def new (id : PeriodId) (start stop : Date) : Except PeriodError Period :=
  if stop < start then .error (.endBeforeStart id start stop) else .ok ⟨id, start, stop, .open⟩

/-- mirrors src/period.rs:239-241 -/
def contains (p : Period) (date : Date) : Bool := p.start ≤ date ∧ date ≤ p.end

/-- mirrors src/period.rs:245-247 -/
def overlaps (p other : Period) : Bool := p.start ≤ other.end ∧ other.start ≤ p.end

/-- Same identifier and same range: what a re-declaration may not differ in. -/
def SameRange (p q : Period) : Prop := p.id = q.id ∧ p.start = q.start ∧ p.end = q.end

instance (p q : Period) : Decidable (SameRange p q) := by unfold SameRange; infer_instance

end Period

/-- mirrors src/period.rs:278-290 -/
structure PeriodCalendar where
  periods : OrdMap PeriodId Period
  byStart : OrdMap Date PeriodId
  sealedThrough : Option Date
  deriving DecidableEq

namespace PeriodCalendar

/-- mirrors src/period.rs:295-297 -/
def new : PeriodCalendar := ⟨.empty, .empty, none⟩

/-- mirrors src/period.rs:363-371 -/
def markSealedThrough (through : Option Date) (period : Period) : Option Date :=
  if period.state = .sealed ∧ through.all (· < period.end) then some period.end else through

/-- The two neighbours of `period` by start date that `define` compares with.
mirrors src/period.rs:339-345 -/
def neighbours (c : PeriodCalendar) (period : Period) : List Period :=
  ([c.byStart.lastLE period.start, c.byStart.firstGE period.start].filterMap id).filterMap
    fun e => c.periods.get? e.2

/-- Files `period` under its identifier and its start date.
mirrors src/period.rs:356-358 -/
def add (c : PeriodCalendar) (period : Period) : PeriodCalendar where
  periods := c.periods.insert period.id period
  byStart := c.byStart.insert period.start period.id
  sealedThrough := markSealedThrough c.sealedThrough period

/-- Replaces the period filed under `id`, advancing the watermark with it.
mirrors src/period.rs:404-405,474-476 -/
def store (c : PeriodCalendar) (id : PeriodId) (period : Period) : PeriodCalendar where
  periods := c.periods.insert id period
  byStart := c.byStart
  sealedThrough := markSealedThrough c.sealedThrough period

/-- mirrors src/period.rs:333-360 -/
def define (c : PeriodCalendar) (period : Period) : Except PeriodError PeriodCalendar :=
  if c.periods.contains period.id then .error (.duplicate period.id)
  else
    match (c.neighbours period).find? (·.overlaps period) with
    | some existing => .error (.overlap period.id existing.id)
    | none => .ok (c.add period)

/-- mirrors src/period.rs:315-321 -/
def fromPeriods (periods : List Period) : Except PeriodError PeriodCalendar :=
  periods.foldlM define new

/-- mirrors src/period.rs:401-412 -/
def ensure (c : PeriodCalendar) (period : Period) : Except PeriodError PeriodCalendar :=
  match c.periods.get? period.id with
  | some existing =>
    if existing.start = period.start ∧ existing.end = period.end then
      .ok (c.store period.id period)
    else .error (.duplicate period.id)
  | none => c.define period

/-- mirrors src/period.rs:416-419 -/
def periodOn (c : PeriodCalendar) (date : Date) : Option Period :=
  (c.byStart.lastLE date).bind fun e => (c.periods.get? e.2).filter (·.contains date)

/-- mirrors src/period.rs:432-437 -/
def stateOn (c : PeriodCalendar) (date : Date) : PeriodState :=
  if c.sealedThrough.any (date ≤ ·) then .sealed
  else (c.periodOn date).elim .open (·.state)

/-- mirrors src/period.rs:441-443 -/
def accepts (c : PeriodCalendar) (date : Date) : Bool := (c.stateOn date).acceptsPostings

/-- mirrors src/period.rs:447-449 -/
def get (c : PeriodCalendar) (id : PeriodId) : Option Period := c.periods.get? id

/-- The lifecycle table of `transition`. mirrors src/period.rs:461-466 -/
def permitted : PeriodState → PeriodState → Bool
  | .open, .closing => true
  | .closing, .sealed => true
  | .closing, .open => true
  | _, _ => false

/-- mirrors src/period.rs:456-478 -/
def transition (c : PeriodCalendar) (id : PeriodId) (target : PeriodState) :
    Except PeriodError PeriodCalendar :=
  match c.periods.get? id with
  | none => .error (.unknown id)
  | some period =>
    if permitted period.state target then
      .ok (c.store id { period with state := target })
    else .error (.invalidTransition id period.state target)

/-- The periods that start before `start`, by the index. mirrors src/period.rs:520-523 -/
def before (c : PeriodCalendar) (start : Date) : List Period :=
  (c.byStart.below start).filterMap fun e => c.periods.get? e.2

/-- mirrors src/period.rs:503-546 -/
def checkSealable (c : PeriodCalendar) (id : PeriodId) : Except PeriodError Period :=
  match c.periods.get? id with
  | none => .error (.unknown id)
  | some period =>
    if period.state ≠ .closing then .error (.notClosing id period.state)
    else
      match (c.before period.start).find? (·.state ≠ .sealed) with
      | some blocker => .error (.unsealedPredecessor id blocker.id blocker.state)
      | none =>
        match c.sealedThrough with
        | some through =>
          if period.end ≤ through then .error (.sealedOutOfOrder id period.end through)
          else .ok period
        | none => .ok period

/-- Every period, in start-date order. mirrors src/period.rs:549-551 -/
def iter (c : PeriodCalendar) : List Period :=
  c.byStart.values.filterMap fun id => c.periods.get? id

/-! ## What a successful call does -/

variable {c c' : PeriodCalendar} {period : Period} {id : PeriodId}

theorem define_eq_ok : c.define period = .ok c' ↔
    c.get period.id = none ∧ (∀ q ∈ c.neighbours period, q.overlaps period = false) ∧
      c' = c.add period := by
  unfold define get
  split
  · rename_i h
    obtain ⟨q, hq⟩ := OrdMap.contains_iff.1 h
    simp [hq]
  · rename_i h
    have hn : c.periods.get? period.id = none := by
      cases hq : c.periods.get? period.id with
      | none => rfl
      | some q => exact absurd (OrdMap.contains_iff.2 ⟨q, hq⟩) h
    split
    · rename_i q hq
      simp only [reduceCtorEq, false_iff, not_and]
      exact fun _ ha => absurd (ha q (List.mem_of_find?_eq_some hq)) (by simpa using List.find?_some hq)
    · rename_i hq
      simp only [Except.ok.injEq, hn, true_and]
      have ha : ∀ q ∈ c.neighbours period, q.overlaps period = false := by
        simpa using List.find?_eq_none.1 hq
      exact ⟨fun h => ⟨ha, h.symm⟩, fun h => h.2.symm⟩

theorem ensure_eq_ok : c.ensure period = .ok c' ↔
    c.define period = .ok c' ∨
      ∃ q, c.get period.id = some q ∧ q.start = period.start ∧ q.end = period.end ∧
        c' = c.store period.id period := by
  unfold ensure
  split
  · rename_i q hq
    have hd : c.define period ≠ .ok c' := fun h => by
      rw [define_eq_ok, get, hq] at h
      exact absurd h.1 (by simp)
    split
    · rename_i h
      simp only [Except.ok.injEq, hd, false_or, get, hq, Option.some.injEq, exists_eq_left', h.1, h.2,
        true_and]
      exact eq_comm
    · rename_i h
      simp only [reduceCtorEq, hd, false_or, get, hq, Option.some.injEq, exists_eq_left', false_iff]
      exact fun h' => h ⟨h'.1, h'.2.1⟩
  · rename_i hq
    simp [get, hq]

theorem transition_eq_ok {target : PeriodState} : c.transition id target = .ok c' ↔
    ∃ q, c.get id = some q ∧ permitted q.state target = true ∧
      c' = c.store id { q with state := target } := by
  unfold transition get
  split
  · rename_i hq; simp [hq]
  · rename_i q hq
    split
    · rename_i h
      simp only [Except.ok.injEq, hq, Option.some.injEq, exists_eq_left', h, true_and]
      exact eq_comm
    · rename_i h
      simp [hq, h]

theorem checkSealable_eq_ok : c.checkSealable id = .ok period ↔
    c.get id = some period ∧ period.state = .closing ∧
      (∀ q ∈ c.before period.start, q.state = .sealed) ∧
      c.sealedThrough.all (· < period.end) = true := by
  unfold checkSealable get
  cases hq : c.periods.get? id with
  | none => simp
  | some q =>
    simp only [Option.some.injEq]
    by_cases hs : q.state = .closing
    swap
    · simp only [hs, ne_eq, not_false_eq_true, if_true, reduceCtorEq, false_iff]
      rintro ⟨rfl, h, -⟩
      exact hs h
    simp only [hs, ne_eq, not_true_eq_false, if_false]
    cases hb : (c.before q.start).find? (·.state ≠ .sealed) with
    | some b =>
      simp only [reduceCtorEq, false_iff]
      rintro ⟨rfl, -, ha, -⟩
      exact absurd (ha b (List.mem_of_find?_eq_some hb)) (by simpa using List.find?_some hb)
    | none =>
      have ha : ∀ x ∈ c.before q.start, x.state = .sealed := by simpa using List.find?_eq_none.1 hb
      cases ht : c.sealedThrough with
      | none =>
        simp only [Except.ok.injEq, Option.all_none, and_true]
        exact ⟨fun h => h ▸ ⟨rfl, hs, ha⟩, fun h => h.1⟩
      | some t =>
        by_cases hle : q.end ≤ t
        · simp only [hle, if_true, reduceCtorEq, false_iff]
          rintro ⟨rfl, -, -, h⟩
          exact absurd hle (not_le.2 (by simpa using h))
        · simp only [hle, if_false, Except.ok.injEq, Option.all_some, decide_eq_true_eq]
          exact ⟨fun h => h ▸ ⟨rfl, hs, ha, not_le.1 hle⟩, fun h => h.1⟩

/-! ## The watermark -/

/-- `b` is at least as far as `a`, reading `none` as before every date. -/
def NotBefore (a b : Option Date) : Prop := ∀ d ∈ a, ∃ d' ∈ b, d ≤ d'

theorem NotBefore.refl (a : Option Date) : NotBefore a a := fun d h => ⟨d, h, le_rfl⟩

theorem NotBefore.trans {a b c : Option Date} (h : NotBefore a b) (h' : NotBefore b c) :
    NotBefore a c := fun d hd => by
  obtain ⟨e, he, hde⟩ := h d hd
  obtain ⟨f, hf, hef⟩ := h' e he
  exact ⟨f, hf, hde.trans hef⟩

theorem notBefore_markSealedThrough (through : Option Date) (p : Period) :
    NotBefore through (markSealedThrough through p) := by
  intro d hd
  unfold markSealedThrough
  split
  · rename_i h
    obtain rfl := Option.mem_def.1 hd
    exact ⟨p.end, rfl, le_of_lt (by simpa using h.2)⟩
  · exact ⟨d, hd, le_rfl⟩

/-- Once a period is marked, the watermark covers it if it is sealed. -/
theorem markSealedThrough_covers {through : Option Date} {p : Period} (h : p.state = .sealed) :
    ∃ d ∈ markSealedThrough through p, p.end ≤ d := by
  unfold markSealedThrough
  split
  · exact ⟨p.end, rfl, le_rfl⟩
  · rename_i hn
    cases through with
    | none => exact absurd ⟨h, rfl⟩ hn
    | some t => exact ⟨t, rfl, not_lt.1 fun hlt => hn ⟨h, by simpa using hlt⟩⟩

theorem markSealedThrough_of_not_sealed {through : Option Date} {p : Period} (h : p.state ≠ .sealed) :
    markSealedThrough through p = through := by
  simp [markSealedThrough, h]

/-- A seal that `check_sealable` admits moves the watermark to its end. -/
theorem markSealedThrough_of_after {through : Option Date} {p : Period} (h : p.state = .sealed)
    (ha : through.all (· < p.end) = true) : markSealedThrough through p = some p.end := by
  simp [markSealedThrough, h, ha]

/-! ## Reads of an updated calendar -/

@[simp] theorem get_new : new.get id = none := rfl

theorem get_store {id' : PeriodId} :
    (c.store id period).get id' = if id = id' then some period else c.get id' := OrdMap.get?_insert

theorem get_add {id' : PeriodId} :
    (c.add period).get id' = if period.id = id' then some period else c.get id' := OrdMap.get?_insert

@[simp] theorem byStart_store : (c.store id period).byStart = c.byStart := rfl

theorem mem_before {start : Date} :
    period ∈ c.before start ↔
      ∃ d id, c.byStart.get? d = some id ∧ d < start ∧ c.get id = some period := by
  simp only [before, List.mem_filterMap, OrdMap.mem_below, get]
  exact ⟨fun ⟨e, ⟨h, hlt⟩, hg⟩ => ⟨e.1, e.2, h, hlt, hg⟩, fun ⟨d, i, h, hlt, hg⟩ => ⟨(d, i), ⟨h, hlt⟩, hg⟩⟩

end PeriodCalendar

/-! ## Sample periods -/

def february : Period := ⟨⟨⟨"2026-02", rfl⟩⟩, ⟨2026, 2, 1, by decide⟩, ⟨2026, 2, 28, by decide⟩, .open⟩
def march : Period := ⟨⟨⟨"2026-03", rfl⟩⟩, ⟨2026, 3, 1, by decide⟩, ⟨2026, 3, 31, by decide⟩, .open⟩
def april : Period := ⟨⟨⟨"2026-04", rfl⟩⟩, ⟨2026, 4, 1, by decide⟩, ⟨2026, 4, 30, by decide⟩, .open⟩

end DoubleEntry.L3
