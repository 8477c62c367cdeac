import DoubleEntry.L4Store.Columns

/-!
# Entries in the tables of SQLite

The statements of `append`, `get` and `page` on the three tables an entry is held
in. Tables that hold the columns of some entries (`Holds`) give each of them back:
`get` by its identifier (`Holds.get`), a page by its position (`Holds.page`), with
every axis on its posting (`Holds.load`).

A `NULL` position orders nothing here: every entry is placed when it is inserted.

**Assumptions.** For reading: tables that hold the columns of some entries, each identifier once.
Nothing is assumed of what an append is handed; it is refused by a constraint or a check, or
inserts its rows.

**Results.**
* `dimensionsFrom_spec`, `groupPostings_spec`: the loops that group rows, from rows in order.
* `Holds.load`: the postings of an entry with their axes.
* `Holds.get`, `Holds.page`: an entry by its identifier, and a page by position.
-/
namespace DoubleEntry.L4

open DoubleEntry.Core DoubleEntry.L1 DoubleEntry.L2 DoubleEntry.L3

/-- The tables `append` and `register_account` write. -/
structure SqliteTables (H : Type) where
  accounts : OrdMap AccountId Account
  entries : List EntryColumns
  postings : List PostingColumns
  dimensions : List DimensionColumns
  subtrees : List (Nat × H)

/-- `(entry_id, posting_index)` -/
def rowKey (entryId : Bytes) (position : Nat) : List Nat ×ₗ Nat := toLex (entryId.map UInt8.toNat, position)

/-- `(entry_id, posting_index)` to the axes attached to that posting. mirrors src/storage/sqlite.rs:777-778 -/
abbrev DimensionIndex := Bytes × Nat → Option Dimensions

/-- What an append fails with: as the tables of both backends refuse it, or on a row it reads. -/
inductive SqliteError (H : Type)
  | append (e : AppendError)
  | read (e : RowError H)
  deriving DecidableEq

section
variable {H : Type} {P : Scale}

/-! ## Loading postings -/

/-- mirrors src/storage/sqlite.rs:777-792 -/
def dimensionsFrom (out : DimensionIndex) : List DimensionColumns → Except (RowError H) DimensionIndex
  | [] => .ok out
  | row :: rows => do
    let axis ← readLabel row.axis
    let value ← readLabel row.value
    let key := (row.entryId, row.postingIndex)
    let slot ← (((out key).getD .none).set axis value).mapError fun e => .malformed (.dimension e)
    dimensionsFrom (Function.update out key (some slot)) rows

/-- A posting with the axes attached to it. -/
def attach (dimensions : DimensionIndex) (row : PostingColumns) (posting : Posting P) : Posting P :=
  match dimensions (row.entryId, row.postingIndex) with
  | some dims => { posting with dimensions := dims }
  | none => posting

/-- The loop over the rows of `postings`, by entry. -/
def groupPostings (dimensions : DimensionIndex) (grouped : Bytes → List (Posting P)) :
    List PostingColumns → Except (RowError H) (Bytes → List (Posting P))
  | [] => .ok grouped
  | row :: rows => do
    let posting ← buildPosting row
    let group := grouped row.entryId ++ [attach dimensions row posting]
    groupPostings dimensions (Function.update grouped row.entryId group) rows

namespace SqliteTables

/-- `WHERE entry_id IN (..) ORDER BY entry_id, posting_index` -/
def selectPostings (db : SqliteTables H) (ids : List Bytes) : List PostingColumns :=
  orderBy (fun r => rowKey r.entryId r.postingIndex) (db.postings.filter fun r => r.entryId ∈ ids)

/-- `WHERE entry_id IN (..) ORDER BY entry_id, posting_index, axis` -/
def selectDimensions (db : SqliteTables H) (ids : List Bytes) : List DimensionColumns :=
  orderBy (fun r => toLex (rowKey r.entryId r.postingIndex, r.axis)) (db.dimensions.filter fun r => r.entryId ∈ ids)

/-- mirrors src/storage/sqlite.rs:644-687, and 907-941 inside a transaction -/
def loadPostingsFor (db : SqliteTables H) (ids : List Bytes) : Except (RowError H) (Bytes → List (Posting P)) :=
  if ids = [] then .ok fun _ => []
  else do
    let dimensions ← dimensionsFrom (fun _ => none) (db.selectDimensions ids)
    groupPostings dimensions (fun _ => []) (db.selectPostings ids)

/-! ## Reads -/

/-- `COUNT(*) .. WHERE log_index IS NOT NULL` -/
def len (db : SqliteTables H) : Nat := (db.entries.filterMap (·.logIndex)).length

/-- `WHERE log_index > .. ORDER BY log_index LIMIT ..` -/
def selectPage (db : SqliteTables H) (cursor : Cursor) : List EntryColumns :=
  (orderBy (fun r => r.logIndex.getD 0) (db.entries.filter fun r => r.logIndex.any fun i =>
    cursor.after.all fun after => bigint after < i)).take cursor.effectiveLimit

variable [HashBytes H] [DecidableEq H]

/-- mirrors src/storage/sqlite.rs:1061-1075 -/
def get (db : SqliteTables H) (id : EntryId) : Except (RowError H) (Option (StoredEntry H P)) :=
  match db.entries.find? fun r => r.entryId = uuidBytes id with
  | none => .ok none
  | some row => do
    let grouped ← db.loadPostingsFor [uuidBytes id]
    (buildStoredEntry row (grouped (uuidBytes id))).map some

/-- The loop over the rows of a page. -/
def buildRecords (grouped : Bytes → List (Posting P)) : List EntryColumns → Except (RowError H) (List (StoredEntry H P))
  | [] => .ok []
  | row :: rows => do
    let record ← buildStoredEntry row (grouped row.entryId)
    let records ← buildRecords (Function.update grouped row.entryId []) rows
    .ok (record :: records)

/-- mirrors src/storage/sqlite.rs:1077-1115 -/
def page (db : SqliteTables H) (cursor : Cursor) : Except (RowError H) (Page H P) := do
  let rows := db.selectPage cursor
  let grouped ← db.loadPostingsFor (rows.map (·.entryId))
  let records ← buildRecords grouped rows
  let next := (records.getLast?.bind (·.index)).filter fun index => index + 1 < db.len
  .ok ⟨records, next.map fun index => ⟨some index, cursor.limit⟩⟩

/-! ## Inserting -/

/-- The CHECK constraints of `entries` that do not hold of any digest: entries_sequenced_pair,
entries_document_pair, entries_reversal_pair. -/
def checksHold (row : EntryColumns) : Bool :=
  row.logIndex.isSome = row.treeRoot.isSome ∧ (row.documentId.isSome ∨ row.documentContentHash = none) ∧
    row.reverses.isSome = row.originalBookingDate.isSome

omit [HashBytes H] [DecidableEq H] in
/-- `INSERT INTO entries`, where the idempotency key is new. -/
def insertEntry (db : SqliteTables H) (row : EntryColumns) : Option (SqliteTables H) :=
  -- PRIMARY KEY (entry_id), UNIQUE (log_index), entries_one_reversal_each
  if db.entries.all fun r => r.entryId ≠ row.entryId ∧ (row.logIndex = none ∨ r.logIndex ≠ row.logIndex) ∧
      (row.reverses = none ∨ r.reverses ≠ row.reverses) then
    some { db with entries := db.entries ++ [row] }
  else none

omit [HashBytes H] [DecidableEq H] in
/-- `INSERT INTO postings` -/
def insertPosting (db : SqliteTables H) (row : PostingColumns) : Option (SqliteTables H) :=
  -- PRIMARY KEY (entry_id, posting_index)
  if (db.postings.all fun r => r.entryId ≠ row.entryId ∨ r.postingIndex ≠ row.postingIndex) &&
      -- FOREIGN KEY (entry_id), FOREIGN KEY (account_index)
      (db.entries.any fun r => r.entryId = row.entryId) && (db.accounts.keys.any fun id => id.index = row.accountIndex) &&
      -- postings_direction, postings_layer, postings_amount_positive
      ["D", "C"].contains row.direction && ["settled", "pending"].contains row.layer && 0 < row.amountMinor then
    some { db with postings := db.postings ++ [row] }
  else none

omit [HashBytes H] [DecidableEq H] in
/-- `INSERT INTO posting_dimensions` -/
def insertDimension (db : SqliteTables H) (row : DimensionColumns) : Option (SqliteTables H) :=
  -- PRIMARY KEY (entry_id, posting_index, axis)
  if (db.dimensions.all fun r => r.entryId ≠ row.entryId ∨ r.postingIndex ≠ row.postingIndex ∨ r.axis ≠ row.axis) &&
      -- FOREIGN KEY (entry_id, posting_index)
      (db.postings.any fun r => r.entryId = row.entryId ∧ r.postingIndex = row.postingIndex) then
    some { db with dimensions := db.dimensions ++ [row] }
  else none

omit [HashBytes H] [DecidableEq H] in
/-- A posting and its axes. mirrors src/storage/sqlite.rs:523-554 -/
def insertBoth (id : EntryId) (db : SqliteTables H) (x : Posting P × Nat) : Option (SqliteTables H) := do
  let db ← db.insertPosting (postingColumns id x.2 x.1)
  (x.1.dimensions.axes.entries.map (dimensionColumns id x.2)).foldlM insertDimension db

/-! ## Appending -/

omit [HashBytes H] [DecidableEq H] in
/-- `COALESCE(MAX(log_index) + 1, 0)` -/
def nextIndex (db : SqliteTables H) : Nat := ((db.entries.filterMap (·.logIndex)).max?).elim 0 (· + 1)

omit [DecidableEq H] in
/-- mirrors src/storage/sqlite.rs:356-381 -/
def tail (db : SqliteTables H) : Except (SqliteError H) (Tail H) :=
  match MerkleAccumulator.tryFromParts db.subtrees db.len with
  | .error _ => .error (.append .malformedAccumulator)
  | .ok accumulator => .ok ⟨db.nextIndex, accumulator⟩

omit [HashBytes H] [DecidableEq H] in
/-- mirrors src/storage/sqlite.rs:426-436 -/
def inverts (target candidate : List (Posting P)) : Bool :=
  decide (target.length = candidate.length) && (target.zip candidate).all fun x =>
    x.2.account = x.1.account ∧ x.2.amount = x.1.amount ∧ x.2.currency = x.1.currency ∧ x.2.layer = x.1.layer ∧
      x.2.dimensions = x.1.dimensions ∧ x.2.direction = x.1.direction.inverse

omit [HashBytes H] [DecidableEq H] in
/-- mirrors src/storage/sqlite.rs:398-441 -/
def checkReversal (db : SqliteTables H) (e : Entry H .balanced P) (original : EntryId) : Except (SqliteError H) Unit :=
  match db.entries.find? fun r => r.entryId = uuidBytes original with
  | none => .error (.append (.unknownOriginal original))
  | some row =>
    if row.reverses.isSome then .error (.append (.reversalOfReversal original))
    else if db.entries.any fun r => r.reverses = some (uuidBytes original) ∧ r.entryId ≠ uuidBytes e.id then
      .error (.append (.alreadyReversed original))
    else do
      let grouped ← (db.loadPostingsFor [uuidBytes original]).mapError SqliteError.read
      if inverts (grouped (uuidBytes original)) e.postings then .ok () else .error (.append (.notAnInversion original))

omit [HashBytes H] [DecidableEq H] in
/-- `if let Some(original) = entry.reverses()` -/
def checkReverses (db : SqliteTables H) (e : Entry H .balanced P) : Except (SqliteError H) Unit :=
  match e.reverses with
  | some original => db.checkReversal e original
  | none => .ok ()

omit [HashBytes H] [DecidableEq H] in
/-- Debits less credits of every row of a key. -/
def netMinor (db : SqliteTables H) (key : BalanceKey) : Int :=
  ((db.postings.filter fun r => r.accountIndex = key.account.index ∧ r.currency = currencyCode key.currency ∧
    r.layer = layerStr key.layer).map fun r => if r.direction = "D" then r.amountMinor else -r.amountMinor).sum

omit [HashBytes H] [DecidableEq H] in
/-- The loop of `check_limits`, with the keys checked so far. mirrors src/storage/sqlite.rs:590-639 -/
def checkLimitsLoop (db : SqliteTables H) : List BalanceKey → List (Posting P) → Except (SqliteError H) Unit
  | _, [] => .ok ()
  | checked, posting :: postings =>
    let key := posting.key
    if checked.contains key then db.checkLimitsLoop checked postings
    else
      match (db.accounts.get? key.account).elim .unlimited (·.limit) with
      | .unlimited => db.checkLimitsLoop (key :: checked) postings
      | limit =>
        let net := db.netMinor key
        if ¬ FitsI64 net then .error (.append .database)
        else if (limit = .noCreditBalance ∧ 0 ≤ net) ∨ (limit = .noDebitBalance ∧ net ≤ 0) then
          db.checkLimitsLoop (key :: checked) postings
        else .error (.append (.limitBreached key.account key.currency key.layer limit net))

/-- mirrors src/storage/sqlite.rs:443-578 -/
def appendOne (db : SqliteTables H) (tail : Tail H) (e : Entry H .balanced P) :
    Except (SqliteError H) (Recorded H × SqliteTables H × Tail H) :=
  let row := entryColumns e e.contentHash (some (tail.place e.contentHash))
  if db.entries.any fun r => r.entryId = uuidBytes e.id ∧ r.idempotencyKey ≠ e.idempotencyKey.bytes then
    .error (.append (.duplicateId e.id))
  else do
    db.checkReverses e
    if !checksHold row then .error (.append .database)
    else
      match db.entries.find? fun r => r.idempotencyKey = e.idempotencyKey.bytes with
      | some existing => do
        let storedHash ← (hashFromBytes existing.contentHash).mapError SqliteError.read
        let storedId ← (uuidFromBytes existing.entryId).mapError SqliteError.read
        if storedHash ≠ e.contentHash then .error (.append (.idempotencyConflict storedId))
        else .ok (⟨storedId, existing.logIndex, e.contentHash, false⟩, db, tail)
      | none =>
        match (db.insertEntry row).bind fun db => e.postings.zipIdx.foldlM (insertBoth e.id) db with
        | none => .error (.append .database)
        | some db' => do
          db'.checkLimitsLoop [] e.postings
          .ok (⟨e.id, some tail.nextIndex, e.contentHash, true⟩, db', tail.push e.contentHash)

/-- The loop of `append`. -/
def appendEach : SqliteTables H → Tail H → List (Entry H .balanced P) →
    Except (SqliteError H) (List (Recorded H) × SqliteTables H × Tail H)
  | db, tail, [] => .ok ([], db, tail)
  | db, tail, e :: es => do
    let (recorded, db', tail') ← db.appendOne tail e
    let (out, db'', tail'') ← appendEach db' tail' es
    .ok (recorded :: out, db'', tail'')

/-- mirrors src/storage/sqlite.rs:1038-1059 -/
def append (db : SqliteTables H) (batch : List (Entry H .balanced P)) :
    Except (SqliteError H) (List (Recorded H) × SqliteTables H) := do
  let tail ← db.tail
  let (out, db', tail') ← db.appendEach tail batch
  .ok (out, { db' with subtrees := tail'.accumulator.subtrees })

omit [HashBytes H] [DecidableEq H] in
/-- mirrors src/storage/sqlite.rs:990-1024 -/
def registerAccount (db : SqliteTables H) (record : AccountRecord) : Except RegisterError (SqliteTables H) :=
  let written : SqliteTables H := { db with accounts := db.accounts.insert record.id record.account }
  -- accounts_window
  if record.account.closedOn.any fun closed => !sqlite.dateLE record.account.openedOn closed then .error .database
  else
    match db.accounts.get? record.id with
    | some stored => if stored.path = record.account.path then .ok written else .error (.accountRebound record.id)
    | none =>
      -- UNIQUE (path)
      if db.accounts.values.any fun a => a.path = record.account.path then .error .database else .ok written

end SqliteTables

/-! ## What loading postings returns -/

/-- The rows of `postings` of an entry. -/
def postingRows (e : Entry H .balanced P) : List PostingColumns :=
  e.postings.zipIdx.map fun x => postingColumns e.id x.2 x.1

/-- The rows of `posting_dimensions` of a posting. -/
def axisRows (id : EntryId) (x : Posting P × Nat) : List DimensionColumns :=
  x.1.dimensions.axes.entries.map (dimensionColumns id x.2)

/-- The rows of `posting_dimensions` of an entry. -/
def dimensionRows (e : Entry H .balanced P) : List DimensionColumns := e.postings.zipIdx.flatMap (axisRows e.id)

/-- The axes of a posting as text. -/
def texts (d : Dimensions) : List (String × String) := d.axes.entries.map fun e => (e.1.text, e.2.text)

/-- The rows of one posting as text. -/
def rowTexts (key : Bytes × Nat) (rows : List DimensionColumns) : List (String × String) :=
  (rows.filter fun r => (r.entryId, r.postingIndex) = key).map fun r => (r.axis, r.value)

theorem axis_injective : Function.Injective fun e : Label × Label => (e.1.text, e.2.text) := fun x y h => by
  obtain ⟨haxis, hvalue⟩ := Prod.mk.inj h
  exact Prod.ext (Label.text_injective haxis) (Label.text_injective hvalue)

theorem texts_injective {a b : Dimensions} (h : texts a = texts b) : a = b :=
  Dimensions.ext_entries (List.map_injective_iff.2 axis_injective h)

/-- Every posting gets its axes, when the rows spell them in order. -/
theorem dimensionsFrom_spec {target : Bytes × Nat → Dimensions} {rows : List DimensionColumns} :
    ∀ out : DimensionIndex, (∀ key, texts (target key) = texts ((out key).getD .none) ++ rowTexts key rows) →
      ∃ out', dimensionsFrom (H := H) out rows = .ok out' ∧ ∀ key, (out' key).getD .none = target key := by
  induction rows with
  | nil =>
    intro out h
    refine ⟨out, rfl, fun key => ?_⟩
    exact (texts_injective ((h key).trans (List.append_nil _))).symm
  | cons row rows ih =>
    intro out h
    have hkey := h (row.entryId, row.postingIndex)
    rw [rowTexts, List.filter_cons_of_pos (by simp), List.map_cons] at hkey
    obtain ⟨old, new, hentries, hold, hnew⟩ := List.map_eq_append_iff.1 hkey
    obtain ⟨⟨axis, value⟩, more, rfl, htext, hmore⟩ := List.map_eq_cons_iff.1 hnew
    obtain ⟨haxis, hvalue⟩ := Prod.mk.inj htext
    obtain rfl : old = ((out (row.entryId, row.postingIndex)).getD .none).axes.entries :=
      List.map_injective_iff.2 axis_injective hold
    obtain ⟨slot, hset, hslot⟩ := Dimensions.set_last hentries
    -- the posting of this row has one more axis, the others are as they were
    obtain ⟨out', hok, hout'⟩ := ih (Function.update out (row.entryId, row.postingIndex) (some slot)) fun key => by
      by_cases he : key = (row.entryId, row.postingIndex)
      · subst he
        rw [Function.update_self, Option.getD_some, texts, hentries, texts, hslot, rowTexts, ← hmore]
        simp
      · rw [Function.update_of_ne he, h key, rowTexts, List.filter_cons_of_neg (by simpa using fun e => he e.symm), ← rowTexts]
    refine ⟨out', ?_, hout'⟩
    have hread : ∀ l : Label, readLabel (H := H) l.text = .ok l := fun l => by simp [readLabel, Except.mapError]
    rw [dimensionsFrom, ← haxis, ← hvalue, hread, hread]
    simp only [bind, Except.bind, hset, Except.mapError]
    exact hok

theorem groupPostings_spec (dimensions : DimensionIndex) (xs : List (EntryId × Posting P × Nat)) :
    ∀ grouped : Bytes → List (Posting P), ∃ grouped',
      groupPostings (H := H) dimensions grouped (xs.map fun x => postingColumns x.1 x.2.2 x.2.1) = .ok grouped' ∧
      ∀ id, grouped' id = grouped id ++ (xs.filter fun x => uuidBytes x.1 = id).map fun x =>
        { x.2.1 with dimensions := (dimensions (uuidBytes x.1, x.2.2)).getD .none } := by
  induction xs with
  | nil => exact fun grouped => ⟨grouped, rfl, fun id => by simp⟩
  | cons x xs ih =>
    intro grouped
    have hattach : attach dimensions (postingColumns x.1 x.2.2 x.2.1) { x.2.1 with dimensions := .none } =
        { x.2.1 with dimensions := (dimensions (uuidBytes x.1, x.2.2)).getD .none } := by
      unfold attach
      simp only [postingColumns]
      cases dimensions (uuidBytes x.1, x.2.2) <;> rfl
    obtain ⟨grouped', hok, hgrouped⟩ := ih (Function.update grouped (uuidBytes x.1) (grouped (uuidBytes x.1) ++
      [{ x.2.1 with dimensions := (dimensions (uuidBytes x.1, x.2.2)).getD .none }]))
    refine ⟨grouped', ?_, fun id => ?_⟩
    · rw [List.map_cons, groupPostings, buildPosting_postingColumns]
      simp only [bind, Except.bind, hattach]
      exact hok
    · rw [hgrouped id]
      by_cases he : uuidBytes x.1 = id
      · subst he
        simp
      · rw [Function.update_of_ne (Ne.symm he), List.filter_cons_of_neg (by simpa using he)]

/-- The tables hold these rows. -/
structure Holds [HashBytes H] (db : SqliteTables H) (rows : List (EntryRow H P)) : Prop where
  entries : db.entries = rows.map fun r => entryColumns r.entry r.contentHash r.placed
  postings : db.postings = rows.flatMap fun r => postingRows r.entry
  dimensions : db.dimensions = rows.flatMap fun r => dimensionRows r.entry
  ids : (rows.map (·.entry.id)).Nodup
  hashed : ∀ r ∈ rows, r.contentHash = r.entry.contentHash
  paired : ∀ r ∈ rows, r.entry.reverses.isSome = r.entry.originalBookingDate.isSome

section
variable [HashBytes H] {db : SqliteTables H} {rows : List (EntryRow H P)}

theorem Holds.entry_unique (h : Holds db rows) {r r' : EntryRow H P} (hr : r ∈ rows) (hr' : r' ∈ rows)
    (he : uuidBytes r.entry.id = uuidBytes r'.entry.id) : r = r' :=
  List.inj_on_of_nodup_map h.ids hr hr' (uuidBytes_inj.1 he)

theorem rowTexts_axisRows (id : EntryId) (x : Posting P × Nat) :
    (axisRows id x).map (fun r => (r.axis, r.value)) = texts x.1.dimensions := by
  simp [axisRows, texts, dimensionColumns, Function.comp_def]

theorem axisRows_increasing (id : EntryId) (x : Posting P × Nat) :
    (axisRows id x).Pairwise fun a b =>
      toLex (rowKey a.entryId a.postingIndex, a.axis) < toLex (rowKey b.entryId b.postingIndex, b.axis) := by
  refine List.pairwise_map.2 (x.1.dimensions.axes.increasing.imp fun {a b} hab => ?_)
  exact Prod.Lex.toLex_lt_toLex.2 (.inr ⟨rfl, hab⟩)

theorem Holds.filter_dimensions (h : Holds db rows) {r : EntryRow H P} (hr : r ∈ rows) {x : Posting P × Nat}
    (hx : x ∈ r.entry.postings.zipIdx) :
    db.dimensions.filter (fun c => (c.entryId, c.postingIndex) = (uuidBytes r.entry.id, x.2)) = axisRows r.entry.id x := by
  have hposition : ((r.entry.postings.zipIdx).map Prod.snd).Nodup := by
    rw [List.zipIdx_map_snd]
    exact List.nodup_range'
  have hinner : (dimensionRows r.entry).filter (fun c => c.postingIndex = x.2) = axisRows r.entry.id x :=
    filter_flatMap_unique hposition hx fun y _ c hc => by
      obtain ⟨axis, -, rfl⟩ := List.mem_map.1 hc
      exact decide_eq_true_iff
  have houter : db.dimensions.filter (fun c => c.entryId = uuidBytes r.entry.id) = dimensionRows r.entry := by
    rw [h.dimensions]
    refine filter_flatMap_unique h.ids hr fun y hy c hc => ?_
    obtain ⟨z, -, hc⟩ := List.mem_flatMap.1 hc
    obtain ⟨axis, -, rfl⟩ := List.mem_map.1 hc
    simp [dimensionColumns, uuidBytes_inj]
  rw [← hinner, ← houter, List.filter_filter]
  refine List.filter_congr fun c _ => ?_
  simp [and_comm]

/-- The axes of every posting of these entries. -/
def axesOf (rows : List (EntryRow H P)) (ids : List Bytes) (key : Bytes × Nat) : Dimensions :=
  ((rows.find? fun r => uuidBytes r.entry.id = key.1 ∧ key.1 ∈ ids).bind fun r => r.entry.postings[key.2]?).elim .none
    (·.dimensions)

theorem Holds.rowTexts_select (h : Holds db rows) (ids : List Bytes) (key : Bytes × Nat) :
    rowTexts key (db.selectDimensions ids) = texts (axesOf rows ids key) := by
  have hnone : (∀ c ∈ db.dimensions, c.entryId ∈ ids → (c.entryId, c.postingIndex) ≠ key) → axesOf rows ids key = .none →
      rowTexts key (db.selectDimensions ids) = texts (axesOf rows ids key) := fun hno haxes => by
    have hempty : (db.selectDimensions ids).filter (fun c => (c.entryId, c.postingIndex) = key) = [] := by
      refine List.filter_eq_nil_iff.2 fun c hc => ?_
      obtain ⟨hc, hid⟩ := List.mem_filter.1 (mem_orderBy.1 hc)
      simpa using hno c hc (by simpa using hid)
    rw [rowTexts, hempty, haxes]
    rfl
  cases hfind : rows.find? fun r => uuidBytes r.entry.id = key.1 ∧ key.1 ∈ ids with
  | none =>
    refine hnone (fun c hc hid he => ?_) (by rw [axesOf, hfind]; rfl)
    rw [h.dimensions] at hc
    obtain ⟨r, hr, hc⟩ := List.mem_flatMap.1 hc
    obtain ⟨x, -, hc⟩ := List.mem_flatMap.1 hc
    obtain ⟨axis, -, rfl⟩ := List.mem_map.1 hc
    subst he
    exact absurd (List.find?_eq_none.1 hfind r hr) (by simpa [dimensionColumns] using hid)
  | some r =>
    have hr := List.mem_of_find?_eq_some hfind
    have hmatch := List.find?_some hfind
    obtain ⟨hkey, hids⟩ : uuidBytes r.entry.id = key.1 ∧ key.1 ∈ ids := by simpa using hmatch
    cases hposting : r.entry.postings[key.2]? with
    | none =>
      refine hnone (fun c hc hid he => ?_) (by rw [axesOf, hfind, Option.bind_some, hposting]; rfl)
      rw [h.dimensions] at hc
      obtain ⟨r', hr', hc⟩ := List.mem_flatMap.1 hc
      obtain ⟨x, hx, hc⟩ := List.mem_flatMap.1 hc
      obtain ⟨axis, -, rfl⟩ := List.mem_map.1 hc
      subst he
      obtain rfl := h.entry_unique hr hr' hkey
      rw [List.mem_zipIdx_iff_getElem?] at hx
      exact absurd (hx.symm.trans hposting) nofun
    | some posting =>
      have hx : (posting, key.2) ∈ r.entry.postings.zipIdx := List.mem_zipIdx_iff_getElem?.2 hposting
      have hdims := h.filter_dimensions hr hx
      have haxes : axesOf rows ids key = posting.dimensions := by
        rw [axesOf, hfind, Option.bind_some, hposting]
        rfl
      have hselect : (db.selectDimensions ids).filter (fun c => (c.entryId, c.postingIndex) = key) =
          axisRows r.entry.id (posting, key.2) := by
        refine filter_orderBy (List.Perm.of_eq ?_) (axisRows_increasing _ _)
        rw [← hdims, List.filter_filter]
        refine List.filter_congr fun c _ => ?_
        obtain ⟨id, position⟩ := key
        subst hkey
        by_cases hc : c.entryId = uuidBytes r.entry.id
        · simp [hc, hids]
        · simp [hc]
      rw [rowTexts, hselect, rowTexts_axisRows, haxes]

theorem Holds.axesOf_posting (h : Holds db rows) {ids : List Bytes} {r : EntryRow H P} (hr : r ∈ rows)
    (hid : uuidBytes r.entry.id ∈ ids) {x : Posting P × Nat} (hx : x ∈ r.entry.postings.zipIdx) :
    axesOf rows ids (uuidBytes r.entry.id, x.2) = x.1.dimensions := by
  have hfind : (rows.find? fun y => uuidBytes y.entry.id = uuidBytes r.entry.id ∧ uuidBytes r.entry.id ∈ ids) = some r := by
    cases hf : rows.find? fun y => uuidBytes y.entry.id = uuidBytes r.entry.id ∧ uuidBytes r.entry.id ∈ ids with
    | none => exact absurd (List.find?_eq_none.1 hf r hr) (by simpa using hid)
    | some y =>
      have hmatch := List.find?_some hf
      obtain ⟨he, -⟩ : uuidBytes y.entry.id = uuidBytes r.entry.id ∧ uuidBytes r.entry.id ∈ ids := by simpa using hmatch
      rw [h.entry_unique (List.mem_of_find?_eq_some hf) hr he]
  rw [axesOf, hfind, Option.bind_some, List.mem_zipIdx_iff_getElem?.1 hx]
  rfl

/-- The postings of an entry with their positions, in order. -/
theorem zipIdx_increasing (entryId : Bytes) (ps : List (Posting P)) :
    ps.zipIdx.Pairwise fun a b => rowKey entryId a.2 < rowKey entryId b.2 := by
  have hpositions : (ps.zipIdx.map Prod.snd).Pairwise (· < ·) := by
    rw [List.zipIdx_map_snd]
    exact List.pairwise_lt_range'
  refine (List.pairwise_map.1 hpositions).imp fun {a b} hlt => ?_
  exact Prod.Lex.toLex_lt_toLex.2 (.inr ⟨rfl, hlt⟩)

/-- **The postings of an entry are read back.** -/
theorem Holds.load (h : Holds db rows) (ids : List Bytes) : ∃ grouped, db.loadPostingsFor ids = .ok grouped ∧
    ∀ r ∈ rows, uuidBytes r.entry.id ∈ ids → grouped (uuidBytes r.entry.id) = r.entry.postings := by
  unfold SqliteTables.loadPostingsFor
  split
  · rename_i hnil
    subst hnil
    exact ⟨_, rfl, fun _ _ hm => absurd hm List.not_mem_nil⟩
  have hspell : ∀ key, texts (axesOf rows ids key) =
      texts (((none : Option Dimensions)).getD .none) ++ rowTexts key (db.selectDimensions ids) := fun key => by
    rw [h.rowTexts_select]
    rfl
  obtain ⟨dimensions, hdims, haxes⟩ := dimensionsFrom_spec (H := H) (fun _ => none) hspell
  -- the rows selected are the columns of the postings, in order
  let xs := (rows.flatMap fun r => r.entry.postings.zipIdx.map fun x => (r.entry.id, x)).filter fun x => uuidBytes x.1 ∈ ids
  have hselect : db.selectPostings ids =
      (orderBy (fun x => rowKey (uuidBytes x.1) x.2.2) xs).map fun x => postingColumns x.1 x.2.2 x.2.1 := by
    have hcolumns : db.postings = (rows.flatMap fun r => r.entry.postings.zipIdx.map fun x => (r.entry.id, x)).map
        fun x => postingColumns x.1 x.2.2 x.2.1 := by
      rw [h.postings, List.map_flatMap]
      simp [postingRows, Function.comp_def]
    rw [SqliteTables.selectPostings, hcolumns, List.filter_map]
    exact (map_orderBy (fun c : PostingColumns => rowKey c.entryId c.postingIndex) _ _).symm
  obtain ⟨grouped, hgroup, hgrouped⟩ := groupPostings_spec (H := H) dimensions
    (orderBy (fun x => rowKey (uuidBytes x.1) x.2.2) xs) fun _ => []
  refine ⟨grouped, ?_, fun r hr hid => ?_⟩
  · rw [hdims, hselect]
    exact hgroup
  · have hone : (orderBy (fun x => rowKey (uuidBytes x.1) x.2.2) xs).filter
        (fun x => uuidBytes x.1 = uuidBytes r.entry.id) = r.entry.postings.zipIdx.map fun x => (r.entry.id, x) := by
      refine filter_orderBy (List.Perm.of_eq ?_) (List.pairwise_map.2 (zipIdx_increasing (uuidBytes r.entry.id) r.entry.postings))
      have hall : (rows.flatMap fun r => r.entry.postings.zipIdx.map fun x => (r.entry.id, x)).filter
          (fun x => uuidBytes x.1 = uuidBytes r.entry.id) = r.entry.postings.zipIdx.map fun x => (r.entry.id, x) :=
        filter_flatMap_unique h.ids hr fun y _ x hx => by
          obtain ⟨z, -, rfl⟩ := List.mem_map.1 hx
          simp [uuidBytes_inj]
      rw [← hall, List.filter_filter]
      refine List.filter_congr fun x _ => ?_
      by_cases hx : uuidBytes x.1 = uuidBytes r.entry.id
      · simp [hx, hid]
      · simp [hx]
    have hback : ∀ x ∈ r.entry.postings.zipIdx,
        ({ x.1 with dimensions := (dimensions (uuidBytes r.entry.id, x.2)).getD .none } : Posting P) = x.1 := fun x hx => by
      rw [haxes, h.axesOf_posting hr hid hx]
    rw [hgrouped, hone, List.nil_append, List.map_map]
    exact (List.map_congr_left hback).trans (List.zipIdx_map_fst 0 _)

/-! ## What is read -/

/-- A row as it is returned. -/
def EntryRow.record (r : EntryRow H P) : StoredEntry H P := ⟨r.toLogged, r.placed.map Prod.fst⟩

/-- The rows of a page. -/
def pageRows (rows : List (EntryRow H P)) (cursor : Cursor) : List (EntryRow H P) :=
  (orderBy (fun r => (r.placed.map Prod.fst).getD 0) (rows.filter fun r => (r.placed.map Prod.fst).any fun i =>
    cursor.after.all fun after => bigint after < i)).take cursor.effectiveLimit

omit [HashBytes H] in
theorem mem_pageRows {cursor : Cursor} {r : EntryRow H P} (h : r ∈ pageRows rows cursor) : r ∈ rows :=
  (List.mem_filter.1 (mem_orderBy.1 (List.mem_of_mem_take h))).1

theorem Holds.selectPage (h : Holds db rows) (cursor : Cursor) :
    db.selectPage cursor = (pageRows rows cursor).map fun r => entryColumns r.entry r.contentHash r.placed := by
  rw [SqliteTables.selectPage, h.entries, List.filter_map, pageRows, List.map_take]
  exact congrArg _ (map_orderBy (fun c : EntryColumns => c.logIndex.getD 0) _ _).symm

variable [DecidableEq H]

theorem Holds.build (h : Holds db rows) {r : EntryRow H P} (hr : r ∈ rows) :
    buildStoredEntry (entryColumns r.entry r.contentHash r.placed) r.entry.postings = .ok r.record := by
  have hbuilt := buildStoredEntry_columns r.entry r.placed (h.paired r hr)
  rw [← h.hashed r hr] at hbuilt
  exact hbuilt

/-- **An entry is read back.** -/
theorem Holds.get (h : Holds db rows) {r : EntryRow H P} (hr : r ∈ rows) :
    db.get r.entry.id = .ok (some r.record) := by
  have hfind : (db.entries.find? fun c => c.entryId = uuidBytes r.entry.id) =
      some (entryColumns r.entry r.contentHash r.placed) := by
    rw [h.entries, List.find?_map]
    cases hf : rows.find? ((fun c : EntryColumns => decide (c.entryId = uuidBytes r.entry.id)) ∘
        fun r => entryColumns r.entry r.contentHash r.placed) with
    | none => exact absurd (List.find?_eq_none.1 hf r hr) (by simp [entryColumns])
    | some y =>
      have hmatch := List.find?_some hf
      have he : uuidBytes y.entry.id = uuidBytes r.entry.id := of_decide_eq_true hmatch
      rw [h.entry_unique (List.mem_of_find?_eq_some hf) hr he]
      rfl
  obtain ⟨grouped, hload, hgrouped⟩ := h.load [uuidBytes r.entry.id]
  unfold SqliteTables.get
  rw [hfind]
  simp only [hload, bind, Except.bind, hgrouped r hr List.mem_cons_self, h.build hr]
  rfl

theorem Holds.buildRecords (h : Holds db rows) {page : List (EntryRow H P)} (hu : (page.map (·.entry.id)).Nodup)
    (hsub : ∀ r ∈ page, r ∈ rows) : ∀ grouped : Bytes → List (Posting P),
      (∀ r ∈ page, grouped (uuidBytes r.entry.id) = r.entry.postings) →
      SqliteTables.buildRecords grouped (page.map fun r => entryColumns r.entry r.contentHash r.placed) =
        .ok (page.map EntryRow.record) := by
  induction page with
  | nil => exact fun _ _ => rfl
  | cons r page ih =>
    intro grouped hgrouped
    rw [List.map_cons, List.nodup_cons] at hu
    have hrest := ih hu.2 (fun y hy => hsub y (List.mem_cons_of_mem _ hy))
      (Function.update grouped (uuidBytes r.entry.id) []) fun y hy => by
        have hne : uuidBytes y.entry.id ≠ uuidBytes r.entry.id := fun e =>
          hu.1 (List.mem_map.2 ⟨y, hy, uuidBytes_inj.1 e⟩)
        rw [Function.update_of_ne hne]
        exact hgrouped y (List.mem_cons_of_mem _ hy)
    have hgroup : grouped (entryColumns r.entry r.contentHash r.placed).entryId = r.entry.postings :=
      hgrouped r List.mem_cons_self
    rw [List.map_cons, SqliteTables.buildRecords, hgroup, h.build (hsub r List.mem_cons_self)]
    simp only [bind, Except.bind]
    rw [show (entryColumns r.entry r.contentHash r.placed).entryId = uuidBytes r.entry.id from rfl, hrest]
    rfl

/-- **A page is read back.** -/
theorem Holds.page (h : Holds db rows) (cursor : Cursor) :
    ∃ p, db.page cursor = .ok p ∧ p.records = (pageRows rows cursor).map EntryRow.record := by
  obtain ⟨grouped, hload, hgrouped⟩ := h.load ((db.selectPage cursor).map (·.entryId))
  have hu : ((pageRows rows cursor).map (·.entry.id)).Nodup := by
    have hsub : (rows.filter fun r => (r.placed.map Prod.fst).any fun i =>
      cursor.after.all fun after => bigint after < i).Sublist rows := List.filter_sublist
    have hperm := orderBy_perm (fun r : EntryRow H P => (r.placed.map Prod.fst).getD 0) (rows.filter fun r =>
      (r.placed.map Prod.fst).any fun i => cursor.after.all fun after => bigint after < i)
    exact ((hperm.map _).nodup_iff.2 (h.ids.sublist (hsub.map _))).sublist ((List.take_sublist _ _).map _)
  have hbuild := h.buildRecords hu (fun r hr => mem_pageRows hr) grouped fun r hr => by
    refine hgrouped r (mem_pageRows hr) ?_
    rw [h.selectPage, List.map_map]
    exact List.mem_map.2 ⟨r, hr, rfl⟩
  unfold SqliteTables.page
  simp only [hload, bind, Except.bind]
  rw [h.selectPage, hbuild]
  exact ⟨_, rfl, rfl⟩

end

end

end DoubleEntry.L4
