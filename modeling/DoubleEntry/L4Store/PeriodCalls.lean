import DoubleEntry.Core.LTS
import DoubleEntry.L4Store.PeriodTable

/-!
# Calendar calls on the SQL stores

`define_period`, `transition_period` and `seal_period` on the `periods` table,
one after the other. SQLite checks a definition with `PeriodCalendar::ensure` on
the rebuilt calendar and then upserts; Postgres upserts and leaves the check to
the table's constraints.

Of `seal_period` only the effect on `periods` is here: the calendar check, and
in the same transaction as the seal row the update to sealed. Whether the reads
of the other tables and that transaction succeed is the argument `commits`.

**Runs.** `sqliteCalls` and `postgresCalls` are the calls on one backend from an
empty table, in any order. A refused call writes nothing (`afterCall`).

**Results.**
* `sqlite_redeclaration`: SQLite's upsert writes the state it is handed, so a
  re-declaration is a no-op exactly when it carries the stored state, and in runs of
  such the watermark never moves back. `sqlite_redeclaration_unseals`: a start-up
  declaration of a sealed March as open unseals it.
* `postgres_disjoint`: the constraints keep the stored ranges ordered and apart.
* `postgres_define_refines_iff`: Postgres does what `ensure` does exactly when the
  identifier is not stored with another range, or something else refuses the new one:
  a date that DATE cannot hold, `periods_range`, EXCLUDE. The upsert never compares
  the new range with the row it replaces (`postgres_moves_sealed_range`).
-/
namespace DoubleEntry.L4

open DoubleEntry.Core DoubleEntry.L1 DoubleEntry.L3

/-- mirrors src/storage/sqlite.rs:1236-1257 -/
def definePeriodSqlite (t : PeriodTable) (p : Period) : Except SqlError PeriodTable := do
  let c ← calendar sqlite t
  let _ ← (c.ensure p).mapError .period
  -- periods_range
  if sqlite.dateLE p.start p.end then .ok (t.upsert p) else .error .database

/-- The dates are bound before the row is looked at, and the row being replaced is not among the
rows EXCLUDE compares with. mirrors src/storage/postgres.rs:1413-1430, schema/postgres.sql:83-87 -/
def definePeriodPostgres (t : PeriodTable) (p : Period) : Except SqlError PeriodTable :=
  if !(postgres.storesDate p.start && postgres.storesDate p.end) then .error .database
  -- periods_range
  else if ¬ postgres.dateLE p.start p.end then .error .database
  -- EXCLUDE .. WITH &&
  else if t.rows.values.any fun r => r.id ≠ p.id ∧ r.overlaps p then .error .database
  else .ok (t.upsert p)

/-- mirrors src/storage/sqlite.rs:1259-1272, src/storage/postgres.rs:1432-1448 -/
def transitionPeriod (D : Dialect) (t : PeriodTable) (id : PeriodId) (target : PeriodState) :
    Except SqlError PeriodTable := do
  let c ← calendar D t
  let _ ← (c.transition id target).mapError .period
  .ok (t.updateState id target)

/-- mirrors src/storage/sqlite.rs:1305-1310,1352-1384, src/storage/postgres.rs:1520-1525,1570-1602 -/
def sealPeriod (D : Dialect) (t : PeriodTable) (id : PeriodId) (commits : Bool) :
    Except SqlError PeriodTable := do
  let c ← calendar D t
  let _ ← (c.checkSealable id).mapError .period
  if commits then .ok (t.updateState id .sealed) else .error .database

inductive StoreCall where
  | definePeriod (period : Period)
  | transitionPeriod (id : PeriodId) (target : PeriodState)
  | sealPeriod (id : PeriodId) (commits : Bool)

/-- One backend's calls: its own `define_period`, the shared rest. -/
def storeCall (D : Dialect) (define : PeriodTable → Period → Except SqlError PeriodTable)
    (t : PeriodTable) : StoreCall → Except SqlError PeriodTable
  | .definePeriod p => define t p
  | .transitionPeriod id target => transitionPeriod D t id target
  | .sealPeriod id commits => sealPeriod D t id commits

/-- The rows after a call: a refused one writes nothing. -/
def afterCall (x : Except SqlError PeriodTable) (t : PeriodTable) : PeriodTable :=
  match x with
  | .ok u => u
  | .error _ => t

def sqliteAfter (t : PeriodTable) (k : StoreCall) : PeriodTable :=
  afterCall (storeCall sqlite definePeriodSqlite t k) t

def postgresAfter (t : PeriodTable) (k : StoreCall) : PeriodTable :=
  afterCall (storeCall postgres definePeriodPostgres t k) t

def sqliteCalls : LTS PeriodTable StoreCall where
  init t := t = .empty
  step t k u := u = sqliteAfter t k

def postgresCalls : LTS PeriodTable StoreCall where
  init t := t = .empty
  step t k u := u = postgresAfter t k

/-! ## What a call does -/

variable {D : Dialect} {t u : PeriodTable} {c : PeriodCalendar} {id : PeriodId} {p r : Period}

theorem definePeriodSqlite_eq_ok : definePeriodSqlite t p = .ok u ↔
    (∃ c c', calendar sqlite t = .ok c ∧ c.ensure p = .ok c') ∧ sqlite.dateLE p.start p.end = true ∧
      u = t.upsert p := by
  simp only [definePeriodSqlite, bind_eq_ok, mapError_eq_ok]
  constructor
  · rintro ⟨c, hc, c', he, h⟩
    split at h
    · rename_i hle
      cases h
      exact ⟨⟨c, c', hc, he⟩, hle, rfl⟩
    · cases h
  · rintro ⟨⟨c, c', hc, he⟩, hle, rfl⟩
    exact ⟨c, hc, c', he, by rw [if_pos hle]⟩

theorem definePeriodPostgres_eq_ok : definePeriodPostgres t p = .ok u ↔
    firstDay ≤ p.start ∧ p.start ≤ p.end ∧ (∀ id r, t.rows.get? id = some r → r.id ≠ p.id → r.overlaps p = false) ∧
      u = t.upsert p := by
  have hany : (t.rows.values.any fun r => decide (r.id ≠ p.id ∧ r.overlaps p = true)) = false ↔
      ∀ id r, t.rows.get? id = some r → r.id ≠ p.id → r.overlaps p = false := by
    simp only [List.any_eq_false, OrdMap.mem_values, decide_eq_true_eq, not_and, Bool.not_eq_true]
    exact ⟨fun h id r hr => h r ⟨id, hr⟩, fun h r ⟨id, hr⟩ => h id r hr⟩
  have hdates : (postgres.storesDate p.start && postgres.storesDate p.end) = true ↔ firstDay ≤ p.start ∧ firstDay ≤ p.end := by
    simp only [postgres, Bool.and_eq_true, decide_eq_true_eq]
  unfold definePeriodPostgres
  split
  · rename_i h
    simp only [reduceCtorEq, false_iff, not_and]
    intro hstart hle
    rw [hdates.2 ⟨hstart, hstart.trans hle⟩] at h
    cases h
  · rename_i hstores
    have hstart : firstDay ≤ p.start := (hdates.1 (by simpa using hstores)).1
    split
    · rename_i h
      simp only [reduceCtorEq, false_iff, not_and]
      exact fun _ hle => absurd (by simpa [postgres] using hle) h
    · rename_i h
      have hle : p.start ≤ p.end := by simpa [postgres] using h
      split
      · rename_i ha
        simp only [reduceCtorEq, false_iff, not_and]
        intro _ _ hno
        rw [hany.2 hno] at ha
        cases ha
      · rename_i ha
        simp only [Except.ok.injEq, hstart, hle, true_and]
        exact ⟨fun e => ⟨fun _ _ hr => hany.1 (by simpa using ha) _ _ hr, e.symm⟩, fun e => e.2.symm⟩

theorem transitionPeriod_eq_ok {target : PeriodState} : transitionPeriod D t id target = .ok u ↔
    (∃ c c', calendar D t = .ok c ∧ c.transition id target = .ok c') ∧ u = t.updateState id target := by
  simp only [transitionPeriod, bind_eq_ok, mapError_eq_ok, Except.ok.injEq]
  constructor
  · rintro ⟨c, hc, c', h, e⟩
    exact ⟨⟨c, c', hc, h⟩, e.symm⟩
  · rintro ⟨⟨c, c', hc, h⟩, e⟩
    exact ⟨c, hc, c', h, e.symm⟩

theorem sealPeriod_eq_ok {commits : Bool} : sealPeriod D t id commits = .ok u ↔
    (∃ c p, calendar D t = .ok c ∧ c.checkSealable id = .ok p) ∧ commits = true ∧
      u = t.updateState id .sealed := by
  simp only [sealPeriod, bind_eq_ok, mapError_eq_ok]
  constructor
  · rintro ⟨c, hc, p, h, hb⟩
    cases commits with
    | true => exact ⟨⟨c, p, hc, h⟩, rfl, by simpa using hb.symm⟩
    | false => simp at hb
  · rintro ⟨⟨c, p, hc, h⟩, rfl, rfl⟩
    exact ⟨c, hc, p, h, rfl⟩

/-- A state change writes one row: an unsealed one, in a permitted way. -/
theorem stateChange_cases {k : StoreCall} {define : PeriodTable → Period → Except SqlError PeriodTable}
    (hk : ∀ p, k ≠ .definePeriod p) (h : storeCall D define t k = .ok u) :
    ∃ id r s, t.rows.get? id = some r ∧ PeriodCalendar.permitted r.state s = true ∧
      u = t.updateState id s := by
  cases k with
  | definePeriod p => exact absurd rfl (hk p)
  | transitionPeriod id target =>
    obtain ⟨⟨c, c', hc, ht⟩, rfl⟩ := transitionPeriod_eq_ok.1 h
    obtain ⟨q, hq, hp, -⟩ := PeriodCalendar.transition_eq_ok.1 ht
    rw [(calendarOf_of_ok hc).1.get] at hq
    exact ⟨id, q, target, hq, hp, rfl⟩
  | sealPeriod id commits =>
    obtain ⟨⟨c, p, hc, hs⟩, -, rfl⟩ := sealPeriod_eq_ok.1 h
    obtain ⟨hq, hcl, -, -⟩ := PeriodCalendar.checkSealable_eq_ok.1 hs
    rw [(calendarOf_of_ok hc).1.get] at hq
    exact ⟨id, p, .sealed, hq, by rw [hcl]; rfl, rfl⟩

theorem sealedRowsStay_updateState {s : PeriodState} (hr : t.rows.get? id = some r)
    (hs : r.state ≠ .sealed) : t.SealedRowsStay (t.updateState id s) := by
  intro id' q hq hqs
  rw [PeriodTable.get?_updateState hr, if_neg fun e => ?_, hq]
  rw [← e, hr] at hq
  cases hq
  exact hs hqs

theorem upsert_self (hr : t.rows.get? p.id = some p) : t.upsert p = t := by
  refine PeriodTable.ext_get? fun id => ?_
  rw [PeriodTable.get?_upsert]
  split
  · rename_i e
    rw [← e, hr]
  · rfl

/-! ## SQLite -/

/-- A same-range re-declaration carries the stored state. -/
def KeepsState (t : PeriodTable) : StoreCall → Prop
  | .definePeriod p => ∀ r, t.rows.get? p.id = some r → r.start = p.start → r.end = p.end → r.state = p.state
  | _ => True

theorem row_eq (hr : t.rows.get? p.id = some r) (hs : r.start = p.start) (he : r.end = p.end)
    (hst : r.state = p.state) : r = p := by
  have hid := t.keyed _ _ hr
  cases r; cases p
  simp only at hid hs he hst
  rw [hid, hs, he, hst]

theorem sqliteAfter_cases (t : PeriodTable) (k : StoreCall) :
    sqliteAfter t k = t ∨
    (∃ p, k = .definePeriod p ∧ sqlite.dateLE p.start p.end = true ∧ sqliteAfter t k = t.upsert p ∧
      (t.rows.get? p.id = none ∨ ∃ r, t.rows.get? p.id = some r ∧ r.start = p.start ∧ r.end = p.end)) ∨
    ∃ id r s, t.rows.get? id = some r ∧ PeriodCalendar.permitted r.state s = true ∧
      sqliteAfter t k = t.updateState id s := by
  cases h : storeCall sqlite definePeriodSqlite t k with
  | error e => exact .inl (by simp [sqliteAfter, h, afterCall])
  | ok u =>
    have hu : sqliteAfter t k = u := by simp [sqliteAfter, h, afterCall]
    rw [hu]
    by_cases hk : ∃ p, k = .definePeriod p
    · obtain ⟨p, rfl⟩ := hk
      obtain ⟨⟨c, c', hc, he⟩, hle, rfl⟩ := definePeriodSqlite_eq_ok.1 h
      have hget := (calendarOf_of_ok hc).1.get
      refine .inr (.inl ⟨p, rfl, hle, rfl, ?_⟩)
      rcases PeriodCalendar.ensure_eq_ok.1 he with hd | ⟨q, hq, hs, hee, -⟩
      · exact .inl (hget _ ▸ (PeriodCalendar.define_eq_ok.1 hd).1)
      · exact .inr ⟨q, hget _ ▸ hq, hs, hee⟩
    · exact .inr (.inr (stateChange_cases (fun p e => hk ⟨p, e⟩) h))

/-- Every stored range passes `periods_range`. -/
theorem sqlite_checked {t : PeriodTable} (h : sqliteCalls.Reachable t) :
    ∀ id r, t.rows.get? id = some r → sqlite.dateLE r.start r.end = true := by
  refine LTS.Inductive.reachable
    (I := fun t => ∀ id r, t.rows.get? id = some r → sqlite.dateLE r.start r.end = true) ⟨?_, ?_⟩ h
  · rintro t (rfl : t = .empty) id r hr
    simp [PeriodTable.empty] at hr
  · rintro t k u hi (rfl : u = sqliteAfter t k) id r hr
    rcases sqliteAfter_cases t k with e | ⟨p, -, hle, e, -⟩ | ⟨i, q, s, hq, -, e⟩
    · exact hi id r (e ▸ hr)
    · rw [e, PeriodTable.get?_upsert] at hr
      split at hr
      · cases hr; exact hle
      · exact hi id r hr
    · rw [e, PeriodTable.get?_updateState hq] at hr
      split at hr
      · cases hr; exact hi i q hq
      · exact hi id r hr

theorem sqlite_sealedRowsStay {k : StoreCall} (hk : KeepsState t k) : t.SealedRowsStay (sqliteAfter t k) := by
  rcases sqliteAfter_cases t k with e | ⟨p, rfl, -, e, hp⟩ | ⟨id, r, s, hr, hp, e⟩
  · rw [e]
    exact fun _ _ hr _ => hr
  · rw [e]
    intro id r hr _
    rw [PeriodTable.get?_upsert]
    split
    · rename_i hid
      subst hid
      rcases hp with hn | ⟨q, hq, hs, he⟩
      · rw [hn] at hr
        cases hr
      · obtain rfl : q = r := by simpa [hr] using hq.symm
        rw [row_eq hq hs he (hk q hq hs he)]
    · exact hr
  · rw [e]
    refine sealedRowsStay_updateState hr fun hs => ?_
    rw [hs] at hp
    cases s <;> cases hp

/-- **Re-declaring a stored period.** In every reachable state a `define_period`
with a stored identifier and range leaves the rows unchanged exactly when it
carries the stored state (or the rows cannot be read back); and over every run
whose re-declarations all carry the stored state, the watermark that
`calendar()` rebuilds never moves back. -/
theorem sqlite_redeclaration (t : PeriodTable) :
    (sqliteCalls.Reachable t → ∀ p r, t.rows.get? p.id = some r → r.start = p.start →
      r.end = p.end → (sqliteAfter t (.definePeriod p) = t ↔
        r.state = p.state ∨ ∃ e, calendar sqlite t = .error e)) ∧
    (∀ ks u, (sqliteCalls.restrict KeepsState).Run t ks u → ∀ c c', calendar sqlite t = .ok c →
      calendar sqlite u = .ok c' → PeriodCalendar.NotBefore c.sealedThrough c'.sealedThrough) := by
  constructor
  · intro ht p r hr hs he
    cases hc : calendar sqlite t with
    | error e =>
      have hd : definePeriodSqlite t p = .error e := by simp [definePeriodSqlite, hc, bind, Except.bind]
      simp [sqliteAfter, storeCall, hd, afterCall]
    | ok c =>
      have hg := (calendarOf_of_ok hc).1.get p.id
      have hle : sqlite.dateLE p.start p.end = true := hs ▸ he ▸ sqlite_checked ht _ _ hr
      have hd : definePeriodSqlite t p = .ok (t.upsert p) := definePeriodSqlite_eq_ok.2
        ⟨⟨c, _, hc, PeriodCalendar.ensure_eq_ok.2 (.inr ⟨r, hg ▸ hr, hs, he, rfl⟩)⟩, hle, rfl⟩
      have ha : sqliteAfter t (.definePeriod p) = t.upsert p := by
        simp [sqliteAfter, storeCall, hd, afterCall]
      rw [ha]
      simp only [reduceCtorEq, exists_false, or_false]
      constructor
      · intro hu
        have : (t.upsert p).rows.get? p.id = some p := by rw [PeriodTable.get?_upsert, if_pos rfl]
        rw [hu, hr] at this
        cases this
        rfl
      · intro hst
        obtain rfl := row_eq hr hs he hst
        exact upsert_self hr
  · intro ks u run c c' hc hc'
    have hstay : t.SealedRowsStay u := by
      refine run.rel (I := fun _ => True) (fun _ _ _ _ _ => trivial) (R := PeriodTable.SealedRowsStay)
        (fun _ _ _ hr _ => hr) (fun _ _ _ h h' id r hr hs => h' id r (h id r hr hs) hs) ?_ trivial
      rintro t k u - ⟨rfl : u = sqliteAfter t k, hk⟩
      exact sqlite_sealedRowsStay hk
    exact (calendarOf_of_ok hc).1.notBefore (calendarOf_of_ok hc').1 hstay

/-- The rows after a list of calls. -/
def sqliteAfterAll (t : PeriodTable) (ks : List StoreCall) : PeriodTable := ks.foldl sqliteAfter t

theorem run_sqliteAfterAll (t : PeriodTable) (ks : List StoreCall) :
    sqliteCalls.Run t ks (sqliteAfterAll t ks) := by
  induction ks generalizing t with
  | nil => exact .nil t
  | cons k ks ih => exact .cons rfl (ih _)

/-- March, defined, closed and sealed. -/
def sqliteMarchSealed : PeriodTable := sqliteAfterAll .empty
  [.definePeriod march, .transitionPeriod march.id .closing, .sealPeriod march.id true]

/-- The sealed watermark `calendar()` rebuilds. -/
def watermark (D : Dialect) (t : PeriodTable) : Option Date :=
  (calendar D t).toOption.bind (·.sealedThrough)

/-- Not vacuous: re-declared as it is stored, March stays sealed. -/
theorem sqlite_redeclared_sealed :
    sqliteAfter sqliteMarchSealed (.definePeriod { march with state := .sealed }) = sqliteMarchSealed :=
  ((sqlite_redeclaration sqliteMarchSealed).1 ⟨_, _, rfl, run_sqliteAfterAll _ _⟩
    { march with state := .sealed } { march with state := .sealed } (by decide) rfl rfl).2 (.inl rfl)

/-- **A start-up re-declaration unseals March** and takes the watermark back. -/
theorem sqlite_redeclaration_unseals :
    sqliteCalls.Reachable sqliteMarchSealed ∧
    watermark sqlite sqliteMarchSealed = some march.end ∧
    sqliteAfter sqliteMarchSealed (.definePeriod march) ≠ sqliteMarchSealed ∧
    watermark sqlite (sqliteAfter sqliteMarchSealed (.definePeriod march)) = none :=
  ⟨⟨_, _, rfl, run_sqliteAfterAll _ _⟩, by decide, by decide, by decide⟩

/-! ## Postgres -/

theorem postgresAfter_cases (t : PeriodTable) (k : StoreCall) :
    postgresAfter t k = t ∨
    (∃ p, firstDay ≤ p.start ∧ p.start ≤ p.end ∧ (∀ id r, t.rows.get? id = some r → r.id ≠ p.id → r.overlaps p = false) ∧
      postgresAfter t k = t.upsert p) ∨
    ∃ id r s, t.rows.get? id = some r ∧ PeriodCalendar.permitted r.state s = true ∧
      postgresAfter t k = t.updateState id s := by
  cases h : storeCall postgres definePeriodPostgres t k with
  | error e => exact .inl (by simp [postgresAfter, h, afterCall])
  | ok u =>
    have hu : postgresAfter t k = u := by simp [postgresAfter, h, afterCall]
    rw [hu]
    by_cases hk : ∃ p, k = .definePeriod p
    · obtain ⟨p, rfl⟩ := hk
      obtain ⟨hstart, hle, hno, rfl⟩ := definePeriodPostgres_eq_ok.1 h
      exact .inr (.inl ⟨p, hstart, hle, hno, rfl⟩)
    · exact .inr (.inr (stateChange_cases (fun p e => hk ⟨p, e⟩) h))

/-- The constraints keep the stored ranges ordered and disjoint. -/
theorem postgres_disjoint {t : PeriodTable} (h : postgresCalls.Reachable t) : t.Disjoint := by
  refine LTS.Inductive.reachable (I := PeriodTable.Disjoint) ⟨?_, ?_⟩ h
  · rintro t (rfl : t = .empty)
    exact ⟨fun _ _ hr => by simp [PeriodTable.empty] at hr, fun _ _ _ _ hr => by simp [PeriodTable.empty] at hr⟩
  · rintro t k u hi (rfl : u = postgresAfter t k)
    rcases postgresAfter_cases t k with e | ⟨p, -, hle, hno, e⟩ | ⟨i, q, s, hq, -, e⟩
    · rw [e]
      exact hi
    · rw [e]
      exact hi.upsert hle fun id r hr hne => hno id r hr (t.keyed _ _ hr ▸ hne)
    · rw [e]
      exact hi.updateState hq

/-- `define_period` is refused for a stored identifier with another range, and
succeeds only where `ensure` on the rebuilt calendar does. -/
def DefineRefines (t : PeriodTable) (p : Period) : Prop :=
  (∀ r, t.rows.get? p.id = some r → ¬(r.start = p.start ∧ r.end = p.end) →
    (∃ e, definePeriodPostgres t p = .error e) ∧ postgresAfter t (.definePeriod p) = t) ∧
  (∀ u, definePeriodPostgres t p = .ok u → ∃ c c', calendar postgres t = .ok c ∧ c.ensure p = .ok c')

/-- The identifier is not stored with another range, or something stands in the way: the new
range is inverted, starts before the first day of a DATE, or meets another row. -/
def RangeKept (t : PeriodTable) (p : Period) : Prop :=
  ∀ r, t.rows.get? p.id = some r → (r.start = p.start ∧ r.end = p.end) ∨ p.end < p.start ∨ p.start < firstDay ∨
    ∃ id q, t.rows.get? id = some q ∧ id ≠ p.id ∧ q.overlaps p = true

/-- **When the upsert refines `ensure`.** In every reachable state a Postgres
`define_period` does what `PeriodCalendar::ensure` does exactly when it does not
move the range of a stored period to a free one. -/
theorem postgres_define_refines_iff {t : PeriodTable} (ht : postgresCalls.Reachable t) (p : Period) :
    DefineRefines t p ↔ RangeKept t p := by
  have hdis := postgres_disjoint ht
  constructor
  · intro h r hr
    by_contra hn
    rw [not_or, not_or, not_or] at hn
    obtain ⟨hrange, hle, hstart, hno⟩ := hn
    obtain ⟨⟨e, he⟩, -⟩ := h.1 r hr hrange
    have hok : definePeriodPostgres t p = .ok (t.upsert p) := by
      refine definePeriodPostgres_eq_ok.2 ⟨not_lt.1 hstart, not_lt.1 hle, fun id q hq hne => ?_, rfl⟩
      by_contra ho
      exact hno ⟨id, q, hq, t.keyed _ _ hq ▸ hne, by simpa using ho⟩
    rw [hok] at he
    cases he
  · intro h
    have refused : (∀ u, definePeriodPostgres t p ≠ .ok u) →
        (∃ e, definePeriodPostgres t p = .error e) ∧ postgresAfter t (.definePeriod p) = t := by
      intro hn
      cases hd : definePeriodPostgres t p with
      | error e => exact ⟨⟨e, rfl⟩, by simp [postgresAfter, storeCall, hd, afterCall]⟩
      | ok u => exact absurd hd (hn u)
    constructor
    · intro r hr hrange
      refine refused fun u hu => ?_
      obtain ⟨hstart, hle, hno, -⟩ := definePeriodPostgres_eq_ok.1 hu
      rcases h r hr with hs | hlt | hearly | ⟨id, q, hq, hne, ho⟩
      · exact hrange hs
      · exact absurd hle (not_le.2 hlt)
      · exact absurd hstart (not_le.2 hearly)
      · rw [hno id q hq (t.keyed _ _ hq ▸ hne)] at ho
        cases ho
    · intro u hu
      obtain ⟨hstart, hle, hno, -⟩ := definePeriodPostgres_eq_ok.1 hu
      obtain ⟨c, hc⟩ := calendar_ok_of_disjoint postgres hdis
      have hg := (calendarOf_of_ok hc).1.get
      cases hr : t.rows.get? p.id with
      | none =>
        have hd := PeriodCalendar.WellFormed.define_ok (c := c) (p := p) (hg _ ▸ hr) fun id q hq => by
          rw [hg] at hq
          refine hno id q hq fun e => ?_
          rw [t.keyed _ _ hq] at e
          rw [e, hr] at hq
          cases hq
        exact ⟨c, _, hc, PeriodCalendar.ensure_eq_ok.2 (.inl hd)⟩
      | some r =>
        rcases h r hr with hs | hlt | hearly | ⟨id, q, hq, hne, ho⟩
        · exact ⟨c, _, hc, PeriodCalendar.ensure_eq_ok.2 (.inr ⟨r, hg _ ▸ hr, hs.1, hs.2, rfl⟩)⟩
        · exact absurd hle (not_le.2 hlt)
        · exact absurd hstart (not_le.2 hearly)
        · rw [hno id q hq (t.keyed _ _ hq ▸ hne)] at ho
          cases ho

def postgresAfterAll (t : PeriodTable) (ks : List StoreCall) : PeriodTable := ks.foldl postgresAfter t

theorem run_postgresAfterAll (t : PeriodTable) (ks : List StoreCall) :
    postgresCalls.Run t ks (postgresAfterAll t ks) := by
  induction ks generalizing t with
  | nil => exact .nil t
  | cons k ks ih => exact .cons rfl (ih _)

def postgresMarchSealed : PeriodTable := postgresAfterAll .empty
  [.definePeriod march, .transitionPeriod march.id .closing, .sealPeriod march.id true]

/-- Not vacuous: a re-declaration of the stored range. -/
theorem postgres_redeclaration_refines : DefineRefines postgresMarchSealed { march with state := .sealed } := by
  refine (postgres_define_refines_iff ⟨_, _, rfl, run_postgresAfterAll _ _⟩ _).2 fun r hr => .inl ?_
  have : postgresMarchSealed.rows.get? march.id = some { march with state := .sealed } := by decide
  obtain rfl := Option.some.inj (this.symm.trans hr)
  exact ⟨rfl, rfl⟩

/-- `2026-03` over April's range. -/
def movedMarch : Period := { april with id := march.id }

/-- **A sealed period moved.** With March sealed, a definition of `2026-03` over
April's range is accepted, and overwrites the sealed row. -/
theorem postgres_moves_sealed_range :
    postgresCalls.Reachable postgresMarchSealed ∧ ¬ DefineRefines postgresMarchSealed movedMarch ∧
    (postgresAfter postgresMarchSealed (.definePeriod movedMarch)).rows.get? march.id = some movedMarch := by
  refine ⟨⟨_, _, rfl, run_postgresAfterAll _ _⟩, fun h => ?_, by decide⟩
  obtain ⟨-, h⟩ := h.1 { march with state := .sealed } (by decide) (by decide)
  exact absurd h (by decide)

end DoubleEntry.L4
