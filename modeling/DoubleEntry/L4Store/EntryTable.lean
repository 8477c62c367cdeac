import DoubleEntry.L3Ledger.Journal
import DoubleEntry.L4Store.SqlDate

/-!
# The tables of the SQL stores

`SqliteStore` and `PostgresStore` keep one schema. A row of `entries` is held
with its rows of `postings`; `log_index` and `tree_root` are set together or not
at all (`entries_sequenced_pair`). `append` places entries under a lock, the
deferred mode of Postgres inserts rows without a position and `sequence` places
them later.

A statement reads what is committed when it runs. A write is a function from
tables to tables: the transaction of an inline append, of a sequencing pass and
of a seal hold a lock from their first statement on.

Positions and sizes are natural numbers; the columns are 64 bits wide.

The constraints of `entries` and `postings` that an append can meet are `constraintsHold`. Whether
the dates of an entry can be bound is asked before (`Backend.storesDates`), and the unique
idempotency key is a lookup (`byKey`).

`Backend` is what differs: how a handle is stored, which dates can be bound (a Postgres DATE
starts in 4714 BC, `firstDay`) and how SQL compares them. A statement that cannot bind a date
fails, and its transaction with it.

The limit check sums the rows of a key in the integers. SQLite also refuses a sum of which a
part is out of range, which no sum is whose gross totals fit.
-/
namespace DoubleEntry.L4

open DoubleEntry.Core DoubleEntry.L1 DoubleEntry.L2 DoubleEntry.L3

/-! ## Backends -/

inductive Backend
  | sqlite
  | postgres
  deriving DecidableEq

namespace Backend

def dialect : Backend → Dialect
  | .sqlite => L4.sqlite
  | .postgres => L4.postgres

/-- The `account_index` of a handle: `i64::from`, or `i32::try_from(..).unwrap_or(i32::MAX)`. -/
def handle : Backend → AccountId → AccountId
  | .sqlite, id => id
  | .postgres, id => ⟨min id.index (2 ^ 31 - 1), by have := id.fits; omega⟩

/-- The dates that can be handed to a backend. -/
def storesDate (B : Backend) (d : Date) : Bool := B.dialect.storesDate d

@[simp] theorem storesDate_sqlite (d : Date) : sqlite.storesDate d = true := rfl

@[simp] theorem all_storesDate_sqlite (d : Option Date) : d.all sqlite.storesDate = true := by cases d <;> rfl

/-- What is to be asked of a date for SQL to compare it as the calendar does: SQLite compares
texts, and one of a negative year has a sign. -/
def Unsigned : Backend → Date → Prop
  | .sqlite, d => 0 ≤ d.year
  | .postgres, _ => True

/-- The dates a backend can be handed and compares as the calendar does. -/
structure Orders (B : Backend) (d : Date) : Prop where
  stores : B.storesDate d = true
  unsigned : B.Unsigned d

instance (B : Backend) (d : Date) : Decidable (B.Unsigned d) := by cases B <;> unfold Unsigned <;> infer_instance

instance (B : Backend) (d : Date) : Decidable (B.Orders d) :=
  decidable_of_iff (B.storesDate d = true ∧ B.Unsigned d) ⟨fun h => ⟨h.1, h.2⟩, fun h => ⟨h.stores, h.unsigned⟩⟩

theorem dateLE_iff {B : Backend} {a b : Date} (ha : B.Unsigned a) (hb : B.Unsigned b) :
    B.dialect.dateLE a b = true ↔ a ≤ b := by
  cases B with
  | sqlite => exact sqlite_dateLE ha hb
  | postgres => simp [dialect, L4.postgres]

end Backend

/-! ## Rows -/

/-- A leaf of the log: an entry as its rows hold it, and `content_hash`. -/
structure Logged (H : Type) (P : Scale) where
  entry : Entry H .balanced P
  contentHash : H
  deriving DecidableEq

/-- `placed` is `log_index` with `tree_root`.
mirrors schema/postgres.sql:97-183,208-232, schema/sqlite.sql:94-146,166-183 -/
structure EntryRow (H : Type) (P : Scale) extends Logged H P where
  placed : Option (Nat × H)
  insertXid : Nat
  deriving DecidableEq

/-- `accounts` is keyed by `account_index`; `seals` is in the order of `chain_position`. -/
structure Tables (H : Type) (P : Scale) where
  ledger : LedgerId
  accounts : OrdMap AccountId Account
  periods : PeriodTable
  entries : List (EntryRow H P)
  subtrees : List (Nat × H)
  seals : List (Seal H)

/-- The variants of `SqliteError` and `PostgresError` an append returns. -/
inductive AppendError
  | duplicateId (id : EntryId)
  | idempotencyConflict (existing : EntryId)
  | unknownOriginal (id : EntryId)
  | reversalOfReversal (id : EntryId)
  | alreadyReversed (id : EntryId)
  | notAnInversion (id : EntryId)
  | limitBreached (account : AccountId) (currency : Currency) (layer : Layer) (limit : BalanceLimit) (netMinor : Int)
  | malformedAccumulator
  | database
  deriving DecidableEq

inductive RegisterError
  | accountRebound (id : AccountId)
  | database
  deriving DecidableEq

section
variable {H : Type} {P : Scale}

/-- The entry as the rows of `postings` hold it.
mirrors src/storage/sqlite.rs:524-553, src/storage/postgres.rs:681-712 -/
def Backend.stored (B : Backend) (e : Entry H .balanced P) : Entry H .balanced P :=
  { e with postings := e.postings.map fun p => { p with account := B.handle p.account } }

/-- The dates that the INSERT of an entry binds, before it looks at the idempotency key. -/
def Backend.storesDates (B : Backend) (e : Entry H .balanced P) : Bool :=
  B.storesDate e.bookingDate && B.storesDate e.valueDate && e.originalBookingDate.all B.storesDate

@[simp] theorem Backend.storesDates_sqlite (e : Entry H .balanced P) : Backend.sqlite.storesDates e = true := by
  simp [Backend.storesDates]

namespace Tables

def empty (ledger : LedgerId) : Tables H P := ⟨ledger, .empty, .empty, [], [], []⟩

/-! ## Accounts -/

/-- mirrors src/storage/sqlite.rs:990-1024, src/storage/postgres.rs:1072-1108 -/
def registerAccount (B : Backend) (t : Tables H P) (record : AccountRecord) : Except RegisterError (Tables H P) :=
  let written : Tables H P := { t with accounts := t.accounts.insert (B.handle record.id) record.account }
  if !(B.storesDate record.account.openedOn && record.account.closedOn.all B.storesDate) then .error .database
  -- accounts_window
  else if record.account.closedOn.any fun closed => !B.dialect.dateLE record.account.openedOn closed then .error .database
  else
    match t.accounts.get? (B.handle record.id) with
    | some stored =>
      if stored.path = record.account.path then .ok written else .error (.accountRebound record.id)
    | none =>
      -- UNIQUE (path)
      if t.accounts.values.any fun a => a.path = record.account.path then .error .database else .ok written

/-- mirrors src/storage/sqlite.rs:1026-1036, src/storage/postgres.rs:1110-1120 -/
def accountRecords (t : Tables H P) : List AccountRecord := t.accounts.entries.map fun e => ⟨e.1, e.2⟩

/-! ## Reading the log -/

/-- `SELECT .. FROM entries WHERE idempotency_key = ..` -/
def byKey (t : Tables H P) (key : IdempotencyKey) : Option (EntryRow H P) :=
  t.entries.find? fun r => r.entry.idempotencyKey = key

/-- `COALESCE(MAX(log_index) + 1, 0)` -/
def nextIndex (t : Tables H P) : Nat := ((t.entries.filterMap (·.placed)).map Prod.fst).max?.elim 0 (· + 1)

/-- `COUNT(*) .. WHERE log_index IS NOT NULL` -/
def sequencedCount (t : Tables H P) : Nat := (t.entries.filterMap (·.placed)).length

/-- The row with the greatest `log_index`. mirrors src/storage/sqlite.rs:1117-1136, src/storage/postgres.rs:1285-1306 -/
def head [Blake3 H] (t : Tables H P) : TreeHead H :=
  match (t.entries.filterMap (·.placed)).argmax Prod.fst with
  | none => ⟨0, emptyRoot⟩
  | some (index, root) => ⟨index + 1, root⟩

/-- The sequenced entries in the order of `log_index`. mirrors src/storage/sqlite.rs:331-354, src/storage/postgres.rs:453-476 -/
def log (t : Tables H P) : List (Logged H P) :=
  ((t.entries.filterMap fun r => r.placed.map fun p => (p.1, r.toLogged)).insertionSort
    fun a b => a.1 ≤ b.1).map Prod.snd

/-- `MIN(log_index)`, `MAX(log_index)` and `COUNT(*)` of the sequenced entries booked in a range.
mirrors src/storage/sqlite.rs:1312-1326, src/storage/postgres.rs:1534-1545 -/
def span (D : Dialect) (t : Tables H P) (start stop : Date) : PeriodCoverage :=
  let indices := ((t.entries.filter fun r =>
    D.dateLE start r.entry.bookingDate && D.dateLE r.entry.bookingDate stop).filterMap (·.placed)).map Prod.fst
  ⟨indices.min?, indices.max?, indices.length⟩

/-- `log_index IS NOT NULL AND booking_date <= ..` -/
def sequencedThrough (D : Dialect) (t : Tables H P) (stop : Date) : List (EntryRow H P) :=
  t.entries.filter fun r => r.placed.isSome && D.dateLE r.entry.bookingDate stop

/-! ## Sums -/

/-- Both sums of one group, read back as 64 bits. -/
def sumRow (ps : List (Posting P)) (key : BalanceKey) : Except SqlError (Balance P) :=
  match Amount.checked (gross .debit key ps), Amount.checked (gross .credit key ps) with
  | .ok debits, .ok credits => .ok ⟨debits, credits⟩
  | _, _ => .error .database

/-- `GROUP BY account_index, currency, layer`. mirrors src/storage/sqlite.rs:794-820, src/storage/postgres.rs:1495-1516 -/
def sumByKey (ps : List (Posting P)) : Except SqlError (TrialBalance P) :=
  (ps.map Posting.key).foldlM (fun tb key => (sumRow ps key).map fun b => ⟨tb.entries.insert key b⟩) .new

/-- mirrors src/storage/sqlite.rs:1289-1303, src/storage/postgres.rs:1479-1518 -/
def trialBalanceThroughDate (D : Dialect) (t : Tables H P) (stop : Date) : Except SqlError (TrialBalance P) :=
  if !D.storesDate stop then .error .database
  else sumByKey ((t.sequencedThrough D stop).flatMap (·.entry.postings))

/-! ## Appending -/

/-- mirrors src/storage/sqlite.rs:397-441, src/storage/postgres.rs:793-840 -/
def checkReversal (t : Tables H P) (e : Entry H .balanced P) (original : EntryId) : Except AppendError Unit :=
  match t.entries.find? fun r => r.entry.id = original with
  | none => .error (.unknownOriginal original)
  | some target =>
    if target.entry.reverses.isSome then .error (.reversalOfReversal original)
    else if t.entries.any fun r => r.entry.reverses = some original ∧ r.entry.id ≠ e.id then
      .error (.alreadyReversed original)
    else if Journal.isInversionOf target.entry e then .ok ()
    else .error (.notAnInversion original)

/-- `if let Some(original) = entry.reverses()` -/
def checkReverses (t : Tables H P) (e : Entry H .balanced P) : Except AppendError Unit :=
  match e.reverses with
  | some original => t.checkReversal e original
  | none => .ok ()

/-- Debits less credits of every row of a key, sequenced or not. -/
def netMinor (t : Tables H P) (key : BalanceKey) : Int :=
  let ps := t.entries.flatMap (·.entry.postings)
  gross .debit key ps - gross .credit key ps

/-- The loop of `check_limits`, with the keys checked so far. A net that does not fit fails the
query; SQLite also fails where a partial sum leaves 64 bits on the way to a net that fits.
mirrors src/storage/sqlite.rs:590-639, src/storage/postgres.rs:747-791 -/
def checkLimitsLoop (B : Backend) (t : Tables H P) : List BalanceKey → List (Posting P) → Except AppendError Unit
  | _, [] => .ok ()
  | checked, posting :: postings =>
    let key := posting.key
    if key ∈ checked then t.checkLimitsLoop B checked postings
    else
      let stored : BalanceKey := { key with account := B.handle key.account }
      let limit := (t.accounts.get? stored.account).elim .unlimited (·.limit)
      let net := t.netMinor stored
      match limit with
      | .unlimited => t.checkLimitsLoop B (key :: checked) postings
      | limit =>
        if ¬ FitsI64 net then .error .database
        else if (limit = .noCreditBalance ∧ 0 ≤ net) ∨ (limit = .noDebitBalance ∧ net ≤ 0) then
          t.checkLimitsLoop B (key :: checked) postings
        else .error (.limitBreached key.account key.currency key.layer limit net)

theorem checkLimitsLoop_nil {B : Backend} {t : Tables H P} {checked : List BalanceKey} :
    t.checkLimitsLoop B checked ([] : List (Posting P)) = .ok () := rfl

theorem checkLimitsLoop_cons {B : Backend} {t : Tables H P} {checked : List BalanceKey} {p : Posting P}
    {ps : List (Posting P)} :
    t.checkLimitsLoop B checked (p :: ps) =
      if p.key ∈ checked then t.checkLimitsLoop B checked ps
      else
        let stored : BalanceKey := { p.key with account := B.handle p.key.account }
        let net := t.netMinor stored
        match (t.accounts.get? stored.account).elim BalanceLimit.unlimited (·.limit) with
        | .unlimited => t.checkLimitsLoop B (p.key :: checked) ps
        | limit =>
          if ¬ FitsI64 net then .error .database
          else if (limit = .noCreditBalance ∧ 0 ≤ net) ∨ (limit = .noDebitBalance ∧ net ≤ 0) then
            t.checkLimitsLoop B (p.key :: checked) ps
          else .error (.limitBreached p.key.account p.key.currency p.key.layer limit net) := rfl

/-- The constraints of `entries` and `postings` on a new row, but the one on the idempotency key. -/
def constraintsHold (t : Tables H P) (row : EntryRow H P) : Bool :=
  -- PRIMARY KEY (entry_id), UNIQUE (log_index), entries_one_reversal_each
  (t.entries.all fun r => r.entry.id ≠ row.entry.id ∧
    (row.placed = none ∨ r.placed.map Prod.fst ≠ row.placed.map Prod.fst) ∧
    (row.entry.reverses = none ∨ r.entry.reverses ≠ row.entry.reverses)) &&
  -- FOREIGN KEY (account_index), postings_amount_positive
  row.entry.postings.all fun p => t.accounts.contains p.account ∧ 0 < p.amount.minor

/-- `INSERT INTO entries` with the postings of the entry, once its dates are bound. -/
def insertRow (t : Tables H P) (row : EntryRow H P) : Option (Tables H P) :=
  if t.constraintsHold row then some { t with entries := t.entries ++ [row] } else none

end Tables

end

section
variable {H : Type} [Blake3 H] [DecidableEq H] {P : Scale}

/-- What an inline append and a sequencing pass carry from entry to entry. -/
structure Tail (H : Type) where
  nextIndex : Nat
  accumulator : MerkleAccumulator H

omit [DecidableEq H] in
def Tail.push (tail : Tail H) (contentHash : H) : Tail H :=
  ⟨tail.nextIndex + 1, tail.accumulator.push contentHash⟩

omit [DecidableEq H] in
/-- The position and root the next entry gets. -/
def Tail.place (tail : Tail H) (contentHash : H) : Nat × H :=
  (tail.nextIndex, (tail.accumulator.push contentHash).root)

namespace Tables

omit [DecidableEq H] in
/-- mirrors src/storage/sqlite.rs:356-381, src/storage/postgres.rs:485-512 -/
def tail (t : Tables H P) : Except AppendError (Tail H) :=
  match MerkleAccumulator.tryFromParts t.subtrees t.sequencedCount with
  | .error _ => .error .malformedAccumulator
  | .ok accumulator => .ok ⟨t.nextIndex, accumulator⟩

omit [Blake3 H] [DecidableEq H] in
/-- mirrors src/storage/sqlite.rs:380-396, src/storage/postgres.rs:512-528 -/
def storeAccumulator (t : Tables H P) (accumulator : MerkleAccumulator H) : Tables H P :=
  { t with subtrees := accumulator.subtrees }

/-- Appends one entry at the tail, under the append lock.
mirrors src/storage/sqlite.rs:443-578, src/storage/postgres.rs:574-728 -/
def appendOne (B : Backend) (xid : Nat) (t : Tables H P) (tail : Tail H) (e : Entry H .balanced P) :
    Except AppendError (Recorded H × Tables H P × Tail H) :=
  if t.entries.any fun r => r.entry.id = e.id ∧ r.entry.idempotencyKey ≠ e.idempotencyKey then
    .error (.duplicateId e.id)
  else do
    t.checkReverses e
    if !B.storesDates e then .error .database
    else
      match t.byKey e.idempotencyKey with
      | some existing =>
        if existing.contentHash ≠ e.contentHash then .error (.idempotencyConflict existing.entry.id)
        else .ok (⟨existing.entry.id, existing.placed.map Prod.fst, e.contentHash, false⟩, t, tail)
      | none =>
        match t.insertRow ⟨⟨B.stored e, e.contentHash⟩, some (tail.place e.contentHash), xid⟩ with
        | none => .error .database
        | some t' => do
          t'.checkLimitsLoop B [] e.postings
          .ok (⟨e.id, some tail.nextIndex, e.contentHash, true⟩, t', tail.push e.contentHash)

/-- The loop of `append`. -/
def appendEach (B : Backend) (xid : Nat) : Tables H P → Tail H → List (Entry H .balanced P) →
    Except AppendError (List (Recorded H) × Tables H P × Tail H)
  | t, tail, [] => .ok ([], t, tail)
  | t, tail, e :: es => do
    let (recorded, t', tail') ← t.appendOne B xid tail e
    let (out, t'', tail'') ← appendEach B xid t' tail' es
    .ok (recorded :: out, t'', tail'')

/-- `append`, inline: all of the batch or nothing. mirrors src/storage/sqlite.rs:1038-1059, src/storage/postgres.rs:1122-1166 -/
def append (B : Backend) (t : Tables H P) (xid : Nat) (batch : List (Entry H .balanced P)) :
    Except AppendError (List (Recorded H) × Tables H P) := do
  let tail ← t.tail
  let (out, t', tail') ← t.appendEach B xid tail batch
  .ok (out, t'.storeAccumulator tail'.accumulator)

/-! ## Deferred sequencing -/

/-- One entry of a deferred append when its transaction commits. Its dates were bound, and its
key is new or on file with the same content. The other checks of `append_one` read earlier
snapshots: a transaction that fails one of them does not commit. -/
def commitOne (B : Backend) (xid : Nat) (t : Tables H P) (e : Entry H .balanced P) : Option (Tables H P) :=
  if !B.storesDates e then none
  else
    match t.byKey e.idempotencyKey with
    | some existing => if existing.contentHash = e.contentHash then some t else none
    | none => t.insertRow ⟨⟨B.stored e, e.contentHash⟩, none, xid⟩

/-- A deferred append commits. mirrors src/storage/postgres.rs:1122-1166 -/
def commitBatch (B : Backend) (t : Tables H P) (xid : Nat) (batch : List (Entry H .balanced P)) : Option (Tables H P) :=
  batch.foldlM (commitOne B xid) t

omit [Blake3 H] [DecidableEq H] in
/-- The rows a pass picks up: unsequenced, and inserted by a transaction that finished before `xmin`.
mirrors src/storage/postgres.rs:1186-1194 -/
def sequenceable (t : Tables H P) (xmin : Nat) : List (EntryRow H P) :=
  (t.entries.filter fun r => r.placed.isNone ∧ r.insertXid < xmin).insertionSort
    fun a b => a.insertXid < b.insertXid ∨ (a.insertXid = b.insertXid ∧ a.entry.id ≤ b.entry.id)

omit [Blake3 H] [DecidableEq H] in
/-- `UPDATE entries SET log_index = .., tree_root = .. WHERE entry_id = ..` -/
def updatePlaced (t : Tables H P) (id : EntryId) (placed : Nat × H) : Tables H P :=
  { t with entries := t.entries.map fun r => if r.entry.id = id then { r with placed := some placed } else r }

omit [DecidableEq H] in
/-- One turn of the loop of `sequence`. mirrors src/storage/postgres.rs:1206-1222 -/
def sequenceOne (s : Tables H P × Tail H) (row : EntryRow H P) : Tables H P × Tail H :=
  (s.1.updatePlaced row.entry.id (s.2.place row.contentHash), s.2.push row.contentHash)

omit [DecidableEq H] in
/-- One pass, with the `xmin` of its snapshot. mirrors src/storage/postgres.rs:1168-1227 -/
def sequence (t : Tables H P) (xmin : Nat) : Except AppendError (Nat × Tables H P) :=
  let rows := t.sequenceable xmin
  if rows.isEmpty then .ok (0, t)
  else do
    let tail ← t.tail
    let (t', tail') := rows.foldl sequenceOne (t, tail)
    .ok (rows.length, t'.storeAccumulator tail'.accumulator)

/-! ## Sealing -/

omit [Blake3 H] in
/-- The transaction of `seal_period`. Stored positions are those below the number of seals.
mirrors src/storage/sqlite.rs:1352-1383, src/storage/postgres.rs:1570-1602 -/
def insertSeal (t : Tables H P) (position : Nat) (s : Seal H) : Option (Tables H P) :=
  -- PRIMARY KEY (period_id), UNIQUE (seal_hash), seals_single_genesis
  if (t.seals.all fun x => x.period ≠ s.period ∧ x.sealHash ≠ s.sealHash ∧ (x.prevSeal.isSome ∨ s.prevSeal.isSome)) ∧
      -- UNIQUE (chain_position), FOREIGN KEY (period_id)
      t.seals.length ≤ position ∧ t.periods.rows.contains s.period then
    some { t with seals := t.seals ++ [s], periods := t.periods.updateState s.period .sealed }
  else none

/-- What `prove_sealed_balance` fails with. -/
inductive ProveError
  | sealedBalance (e : SealedBalanceError)
  | account (e : AccountError)
  | store (e : SqlError)
  deriving DecidableEq

/-- mirrors src/storage.rs:510-535 -/
def proveSealedBalance (D : Dialect) (t : Tables H P) (period : PeriodId) (key : BalanceKey) :
    Except ProveError (SealedBalanceOutcome H P) :=
  match t.seals.find? fun s => s.period = period with
  | none => .error (.sealedBalance (.notSealed period))
  | some s => do
    let stored ← (L4.periods D t.periods).mapError .store
    match stored.find? fun p => p.id = s.period with
    | none => .error (.sealedBalance (.undefinedPeriod period))
    | some definition => do
      let closing ← (t.trialBalanceThroughDate D definition.end).mapError .store
      let accounts ← (AccountRegistry.fromRecords t.accountRecords).mapError .account
      (SealedBalance.assemble s closing accounts key).mapError .sealedBalance

end Tables

end

end DoubleEntry.L4
