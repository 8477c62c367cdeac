import DoubleEntry.L4Store.PeriodCalls

/-!
# Clients that define periods

`define_period` on SQLite is a SELECT, the check of `ensure` on the calendar it
rebuilds, and an upsert, each statement on its own. No constraint of the table keeps
ranges apart. Any number of clients make the call, one statement a step (`Lbl`), on any
stored periods that are disjoint.

The rows a check read do not meet the range it let pass (`Checked`). So a write keeps
the periods disjoint exactly when the rows that are new since then do not meet it
either (`Fresh`, `disjoint_of_fresh`). Two clients that check on an empty table store
two periods that overlap, and no calendar is rebuilt any more (`quarter_over_march`).

**Assumptions.** Any number of clients, and any periods on file that are disjoint. `Fresh` is
asked of writes only, and it is about the rows at the time of the write.

**Results.**
* `Checked.step`: what a check has read stays true of the rows that were there.
* `disjoint_iff_fresh`: a step from disjoint periods keeps them so exactly when it is fresh.
* `disjoint_of_fresh`: runs.
* `quarter_over_march`: two checks before two writes.
-/
namespace DoubleEntry.L5.DefineRace

open DoubleEntry.Core DoubleEntry.L1 DoubleEntry.L3 DoubleEntry.L4

/-- A client between its statements. `read` is what its SELECT returned.
mirrors src/storage/sqlite.rs:1236-1257 -/
inductive Client where
  | idle
  | writing (period : Period) (read : PeriodTable)

structure St where
  table : PeriodTable
  clients : Nat → Client

inductive Lbl where
  /-- Reads the calendar, and checks. -/
  | read (i : Nat) (period : Period)
  /-- `INSERT .. ON CONFLICT (period_id) DO UPDATE SET ..` -/
  | write (i : Nat)
  | fail (i : Nat)

/-- The check of the calendar. -/
def admits (t : PeriodTable) (p : Period) : Bool :=
  match calendar sqlite t with
  | .error _ => false
  | .ok c => (c.ensure p).isOk

def St.setClient (s : St) (i : Nat) (c : Client) : St := { s with clients := Function.update s.clients i c }

/-- The upsert, or nothing where `periods_range` refuses it. -/
def upsertChecked (t : PeriodTable) (p : Period) : PeriodTable :=
  if sqlite.dateLE p.start p.end then t.upsert p else t

/-- A refused check ends the call. -/
def step (s : St) : Lbl → Option St
  | .read i p =>
    match s.clients i with
    | .idle => some (if admits s.table p then s.setClient i (.writing p s.table) else s)
    | .writing _ _ => none
  | .write i =>
    match s.clients i with
    | .idle => none
    | .writing p _ => some { table := upsertChecked s.table p, clients := Function.update s.clients i .idle }
  | .fail i => some (s.setClient i .idle)

/-- Any disjoint periods, every client idle. -/
def race : LTS St Lbl := .ofFn (fun s => s.table.Disjoint ∧ ∀ i, s.clients i = .idle) step

/-- A write meets no row of another identifier that is new since its check read, and
`periods_range` does not let a range pass that ends before it starts. -/
def Fresh (s : St) : Lbl → Prop
  | .write i => ∀ p read, s.clients i = .writing p read → sqlite.dateLE p.start p.end = true →
      p.start ≤ p.end ∧ ∀ id r, s.table.rows.get? id = some r → id ≠ p.id →
        (∃ q, read.rows.get? id = some q ∧ q.start = r.start ∧ q.end = r.end) ∨ r.overlaps p = false
  | _ => True

/-- What a step does. -/
inductive Effect (s : St) : Lbl → St → Prop
  | refused {i : Nat} {p : Period} : Effect s (.read i p) s
  | checked {i : Nat} {p : Period} (admitted : admits s.table p = true) :
      Effect s (.read i p) (s.setClient i (.writing p s.table))
  | written {i : Nat} {p : Period} {read : PeriodTable} (pending : s.clients i = .writing p read) :
      Effect s (.write i) { table := upsertChecked s.table p, clients := Function.update s.clients i .idle }
  | failed {i : Nat} : Effect s (.fail i) (s.setClient i .idle)

theorem effect_of_step {s u : St} {l : Lbl} (st : step s l = some u) : Effect s l u := by
  cases l with
  | read i p =>
    simp only [step] at st
    cases hi : s.clients i with
    | writing q read => simp [hi] at st
    | idle =>
      simp only [hi, Option.some.injEq] at st
      subst st
      split
      · rename_i hadmits
        exact .checked hadmits
      · exact .refused
  | write i =>
    simp only [step] at st
    cases hi : s.clients i with
    | idle => simp [hi] at st
    | writing p read =>
      simp only [hi, Option.some.injEq] at st
      subst st
      exact .written hi
  | fail i =>
    cases st
    exact .failed

/-! ## What a check read -/

/-- No row that was read meets a range that was admitted. -/
def Checked (s : St) : Prop := ∀ i p read, s.clients i = .writing p read →
  ∀ id r, read.rows.get? id = some r → id ≠ p.id → r.overlaps p = false

theorem apart_of_admits {t : PeriodTable} {p : Period} (h : admits t p = true) :
    ∀ id r, t.rows.get? id = some r → id ≠ p.id → r.overlaps p = false := by
  intro id r hr hne
  unfold admits at h
  cases hc : calendar sqlite t with
  | error e => simp [hc] at h
  | ok c =>
    obtain ⟨hcal, hdisjoint⟩ := calendarOf_of_ok hc
    have hget : c.get id = some r := (hcal.get id).trans hr
    simp only [hc] at h
    cases hensure : c.ensure p with
    | error e => simp [hensure, Except.isOk, Except.toBool] at h
    | ok c' =>
      rcases PeriodCalendar.ensure_eq_ok.1 hensure with hdefine | ⟨q, hq, hstart, hend, -⟩
      · exact hcal.wellFormed.overlaps_none (PeriodCalendar.define_eq_ok.1 hdefine).2.1 hget
      · -- the range is one that is stored
        rw [hcal.get] at hq
        have hapart := hdisjoint.apart id r p.id q hr hq hne
        rwa [PeriodCalendar.overlaps_eq_false, hstart, hend, ← PeriodCalendar.overlaps_eq_false] at hapart

theorem Checked.setIdle {s : St} (h : Checked s) (i : Nat) (t : PeriodTable) :
    Checked { table := t, clients := Function.update s.clients i .idle } := by
  intro j p read hj
  by_cases hji : j = i
  · subst hji
    simp at hj
  · exact h j p read (by simpa [Function.update_of_ne hji] using hj)

theorem Checked.step {s u : St} {l : Lbl} (h : Checked s) (st : step s l = some u) : Checked u := by
  cases effect_of_step st with
  | refused => exact h
  | @checked i p hadmits =>
    intro j q read hj
    by_cases hji : j = i
    · subst hji
      simp only [St.setClient, Function.update_self, Client.writing.injEq] at hj
      obtain ⟨rfl, rfl⟩ := hj
      exact apart_of_admits hadmits
    · exact h j q read (by simpa [St.setClient, Function.update_of_ne hji] using hj)
  | @written i => exact h.setIdle i _
  | @failed i => exact h.setIdle i s.table

theorem checked_of_reachable {s : St} (h : race.Reachable s) : Checked s := by
  refine LTS.Inductive.reachable (T := race) ⟨fun s hs i p read hi => ?_, fun s l u hs st => hs.step st⟩ h
  rw [hs.2 i] at hi
  cases hi

/-! ## One write -/

/-- A step keeps the periods disjoint exactly when its write is fresh. -/
theorem disjoint_iff_fresh {s u : St} {l : Lbl} (hc : Checked s) (hd : s.table.Disjoint) (st : step s l = some u) :
    u.table.Disjoint ↔ Fresh s l := by
  cases effect_of_step st with
  | refused => exact iff_of_true hd trivial
  | checked => exact iff_of_true hd trivial
  | failed => exact iff_of_true hd trivial
  | @written i p read hi =>
    simp only [upsertChecked]
    by_cases hle : sqlite.dateLE p.start p.end = true
    · rw [if_pos hle]
      constructor
      · intro hu q read' hq _
        rw [hi, Client.writing.injEq] at hq
        obtain ⟨rfl, rfl⟩ := hq
        have hp : (s.table.upsert p).rows.get? p.id = some p := by rw [PeriodTable.get?_upsert, if_pos rfl]
        refine ⟨hu.ordered _ _ hp, fun id r hr hne => .inr ?_⟩
        refine hu.apart id r p.id p ?_ hp hne
        rw [PeriodTable.get?_upsert, if_neg (Ne.symm hne), hr]
      · intro hf
        obtain ⟨hordered, hnew⟩ := hf p read hi hle
        refine hd.upsert hordered fun id r hr hne => ?_
        rcases hnew id r hr hne with ⟨q, hq, hstart, hend⟩ | hapart
        · have hq := hc i p read hi id q hq hne
          rwa [PeriodCalendar.overlaps_eq_false, hstart, hend, ← PeriodCalendar.overlaps_eq_false] at hq
        · exact hapart
    · rw [if_neg hle]
      refine iff_of_true hd fun q read' hq hle' => ?_
      rw [hi, Client.writing.injEq] at hq
      obtain ⟨rfl, rfl⟩ := hq
      exact absurd hle' hle

/-- **The periods stay disjoint.** In every run whose writes are all fresh the stored
periods are disjoint and the calendar is rebuilt; and where they are disjoint, a step
keeps them so exactly when its write is fresh. -/
theorem disjoint_of_fresh (s : St) :
    ((race.restrict Fresh).Reachable s → s.table.Disjoint ∧ ∃ c, calendar sqlite s.table = .ok c) ∧
    (∀ l u, race.Reachable s → s.table.Disjoint → race.step s l u → (u.table.Disjoint ↔ Fresh s l)) := by
  refine ⟨fun h => ?_, fun l u h hd st => disjoint_iff_fresh (checked_of_reachable h) hd st⟩
  have hkept : Checked s ∧ s.table.Disjoint := by
    refine LTS.Inductive.reachable (T := race.restrict Fresh) (I := fun s => Checked s ∧ s.table.Disjoint) ⟨?_, ?_⟩ h
    · intro s hs
      refine ⟨fun i p read hi => ?_, hs.1⟩
      rw [hs.2 i] at hi
      cases hi
    · intro s l u hI st
      obtain ⟨st, hf⟩ := LTS.restrict_step.1 st
      exact ⟨hI.1.step st, (disjoint_iff_fresh hI.1 hI.2 st).2 hf⟩
  exact ⟨hkept.2, calendar_ok_of_disjoint sqlite hkept.2⟩

/-! ## Two clients -/

def start : St := ⟨.empty, fun _ => .idle⟩

theorem start_init : start.table.Disjoint ∧ ∀ i, start.clients i = .idle :=
  ⟨⟨fun _ _ h => by simp [start, PeriodTable.empty] at h, fun _ _ _ _ h => by simp [start, PeriodTable.empty] at h⟩,
    fun _ => rfl⟩

def quarter : Period := ⟨⟨⟨"2026-Q1", rfl⟩⟩, february.start, april.end, .open⟩

/-- Both clients check before either of them writes. -/
def bothChecked (p q : Period) : List Lbl := [.read 0 p, .read 1 q, .write 0, .write 1]

def afterBoth (p q : Period) : St := (LTS.exec step start (bothChecked p q)).getD start

set_option maxRecDepth 10000 in
/-- **A quarter over a month.** Both definitions succeed, and the calendar is never
rebuilt again. -/
theorem quarter_over_march : race.Reachable (afterBoth march quarter) ∧
    (afterBoth march quarter).table.rows.get? march.id = some march ∧
    (afterBoth march quarter).table.rows.get? quarter.id = some quarter ∧
    ¬ (afterBoth march quarter).table.Disjoint ∧
    (calendar sqlite (afterBoth march quarter).table).toOption = none := by
  have hmarch : (afterBoth march quarter).table.rows.get? march.id = some march := by decide
  have hquarter : (afterBoth march quarter).table.rows.get? quarter.id = some quarter := by decide
  refine ⟨LTS.reachable_of_exec _ start_init (LTS.exec_getD (by decide)), hmarch, hquarter, fun h => ?_, by decide⟩
  have hapart := h.apart _ _ _ _ hmarch hquarter (by decide)
  revert hapart
  decide

/-- The last write of two checks finds a month that does not meet its own. -/
theorem april_fresh : ((race.restrict Fresh).Reachable (afterBoth march april)) := by
  have h₀ : (race.restrict Fresh).Reachable start := .of_init start_init
  let s₁ := start.setClient 0 (.writing march .empty)
  let s₂ := s₁.setClient 1 (.writing april .empty)
  let s₃ : St := ⟨PeriodTable.empty.upsert march, Function.update s₂.clients 0 .idle⟩
  have h₁ : (race.restrict Fresh).Reachable s₁ := h₀.step (l := .read 0 march) ⟨rfl, trivial⟩
  have h₂ : (race.restrict Fresh).Reachable s₂ := h₁.step (l := .read 1 april) ⟨rfl, trivial⟩
  have h₃ : (race.restrict Fresh).Reachable s₃ := by
    refine h₂.step (l := .write 0) ⟨rfl, fun p read hp hle => ?_⟩
    obtain ⟨rfl, rfl⟩ : march = p ∧ PeriodTable.empty = read := Client.writing.inj hp
    exact ⟨by decide, fun id r hr => by simp [s₂, s₁, start, St.setClient, PeriodTable.empty] at hr⟩
  refine h₃.step (l := .write 1) ⟨rfl, fun p read hp hle => ?_⟩
  obtain ⟨rfl, rfl⟩ : april = p ∧ PeriodTable.empty = read := Client.writing.inj hp
  refine ⟨by decide, fun id r hr hne => .inr ?_⟩
  rw [PeriodTable.get?_upsert] at hr
  split at hr
  · cases hr
    decide
  · simp [PeriodTable.empty] at hr

/-- Not vacuous: March and April are both stored, in spite of the order. -/
theorem march_and_april : (afterBoth march april).table.rows.get? march.id = some march ∧
    (afterBoth march april).table.rows.get? april.id = some april ∧ (afterBoth march april).table.Disjoint ∧
    ∃ c, calendar sqlite (afterBoth march april).table = .ok c :=
  ⟨by decide, by decide, (disjoint_of_fresh _).1 april_fresh⟩

end DoubleEntry.L5.DefineRace
