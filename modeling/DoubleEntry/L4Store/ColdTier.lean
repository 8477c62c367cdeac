import DoubleEntry.Core.Text
import DoubleEntry.L2Merkle.Proofs
import DoubleEntry.L3Ledger.Seal
import DoubleEntry.L4Store.SqlReads

/-!
# The cold tier

`compact` copies the log up to a seal into an Iceberg table, a row for each
posting. Where the last call stopped, and the accumulator over everything before
it, are text in the properties of the current snapshot; a call reads them back,
collects the entries from there to the size of the seal page by page, and writes
only if the accumulator then has the root of the seal.

**Data files.** The rows of a call go into one file, named after the period of the
seal, before anything is committed. The name has a counter, but a generator serves
one call, so that it is always the first. A file of that name is overwritten,
whether the table lists it or not. The commit adds the name to the files that the
table lists, and a fast append refuses a name that is listed. The table is what its
listed files hold now (`Archive.rows`).

**The outside.** Loading the table, a page of the store, the write of the file and
the commit may each fail, as the environment decides. The object store puts a file
whole or not at all, and a commit is atomic.

**Results.**
* `parseHex_toHex`, `decodeAccumulator_encode`: what is written into the properties
  is read back.
* `rows_write`: a file that the table does not list changes no row of it.

Columns hold values; only the two properties that are read back are rendered.
-/
namespace DoubleEntry.L4

open DoubleEntry.Core DoubleEntry.L1 DoubleEntry.L2 DoubleEntry.L3

/-! ## Digests as text -/

/-- A digest is its bytes: `Hash([u8; 32])`. -/
class HashBytes (H : Type) extends Blake3 H where
  fromBytes : Bytes → Option H
  fromBytes_asBytes : ∀ h : H, fromBytes (asBytes h) = some h

section
variable {H : Type} [HashBytes H]

/-- mirrors src/hash.rs:90-98 -/
def toHex (h : H) : List Char := hexOfBytes (Blake3.asBytes h)

/-- The wrong number of digits is the wrong number of bytes. mirrors src/hash.rs:48-60 -/
def parseHex (s : List Char) : Option H := (bytesOfHex s).bind HashBytes.fromBytes

theorem parseHex_toHex (h : H) : parseHex (toHex h) = some h := by
  rw [parseHex, toHex, bytesOfHex_hexOfBytes, Option.bind_some, HashBytes.fromBytes_asBytes]

end

/-- The bytes behind their number. -/
instance : HashBytes Preimage where
  fromBytes b := some ⟨b.drop 8⟩
  fromBytes_asBytes h := by
    have hlen : (writeU64 h.bytes.length).length = 8 := length_leBytes 8 _
    simp only [Blake3.asBytes, writeBytes, List.drop_left' hlen]

/-! ## The accumulator as text -/

/-- What `ColdTierError::MalformedState` says. -/
inductive MalformedState
  | noArchiveState (snapshot : Int)
  | archivedThrough (text : List Char)
  | noHeight (part : List Char)
  | height (text : List Char)
  | node
  | accumulator (e : MalformedAccumulator)
  deriving DecidableEq

section
variable {H : Type} [HashBytes H]

def encodePart (p : Nat × H) : List Char := Nat.toDigits 10 p.1 ++ ':' :: toHex p.2

/-- mirrors src/storage/iceberg.rs:319-326 -/
def encodeAccumulator (accumulator : MerkleAccumulator H) : List Char :=
  [','].intercalate (accumulator.subtrees.map encodePart)

/-- One turn of the loop of `decode_accumulator`. -/
def decodePart (part : List Char) : Except MalformedState (Nat × H) :=
  match splitOnce ':' part with
  | none => .error (.noHeight part)
  | some (height, hex) =>
    match parseUnsigned 8 height with
    | none => .error (.height height)
    | some h =>
      match parseHex hex with
      | none => .error .node
      | some node => .ok (h, node)

/-- mirrors src/storage/iceberg.rs:329-350 -/
def decodeAccumulator (raw : List Char) (size : Nat) : Except MalformedState (MerkleAccumulator H) :=
  if raw = [] then (MerkleAccumulator.tryFromParts [] size).mapError .accumulator
  else do
    let subtrees ← (raw.splitOn ',').mapM decodePart
    (MerkleAccumulator.tryFromParts subtrees size).mapError .accumulator

theorem not_mem_toHex {c : Char} (hc : hexVal c = none) (h : H) : c ∉ toHex h := not_mem_hexOfBytes hc _

theorem decodePart_encoded {p : Nat × H} (hheight : p.1 < 2 ^ 8) : decodePart (encodePart p) = .ok p := by
  have hsplit := splitOnce_append (not_mem_decimal (n := p.1) (c := ':') (by decide)) (toHex p.2)
  unfold decodePart encodePart
  simp only [hsplit, parseUnsigned_toDigits hheight, parseHex_toHex]

theorem mapM_decodePart {subtrees : List (Nat × H)} (h : ∀ p ∈ subtrees, p.1 < 2 ^ 8) :
    (subtrees.map encodePart).mapM decodePart = .ok subtrees := mapM_map_ok fun p hp => decodePart_encoded (h p hp)

/-- **The accumulator is read back** from its text. -/
theorem decodeAccumulator_encode {accumulator : MerkleAccumulator H} {leaves : List H} (h : accumulator.Covers leaves)
    (hlen : leaves.length < 2 ^ 64) :
    decodeAccumulator (encodeAccumulator accumulator) leaves.length = .ok accumulator := by
  have hparts : MerkleAccumulator.tryFromParts accumulator.subtrees leaves.length = .ok accumulator := by
    rw [← h.size]
    exact h.tryFromParts_eq hlen
  have hheight : ∀ p ∈ accumulator.subtrees, p.1 < 2 ^ 8 := fun p hp => by
    have hmem : p.1 ∈ MerkleAccumulator.coverOf accumulator.size := by
      rw [← h.heights_eq hlen]
      exact List.mem_map_of_mem hp
    have hlt : p.1 < 64 := by simpa using (List.mem_filter.1 hmem).1
    omega
  unfold decodeAccumulator encodeAccumulator
  by_cases hnil : accumulator.subtrees = []
  · rw [hnil] at hparts
    rw [hnil, List.map_nil, if_pos (by rfl), hparts]
    rfl
  · have hne : (accumulator.subtrees.map encodePart) ≠ [] := by simpa using hnil
    have hcomma : ∀ part ∈ accumulator.subtrees.map encodePart, ',' ∉ part := by
      intro part hpart hc
      obtain ⟨p, -, rfl⟩ := List.mem_map.1 hpart
      rcases List.mem_append.1 hc with hc | hc
      · exact not_mem_decimal (by decide) hc
      · rcases List.mem_cons.1 hc with hc | hc
        · exact absurd hc (by decide)
        · exact not_mem_toHex (by decide) p.2 hc
    have hraw : [','].intercalate (accumulator.subtrees.map encodePart) ≠ [] := by
      intro h0
      have hsplit := List.splitOn_intercalate ',' hcomma hne
      rw [h0] at hsplit
      have hmem : ([] : List Char) ∈ accumulator.subtrees.map encodePart := by
        rw [← hsplit]
        simp
      simp [encodePart] at hmem
    rw [if_neg hraw, List.splitOn_intercalate ',' hcomma hne, mapM_decodePart hheight]
    simp only [bind, Except.bind, hparts]
    rfl

end

/-! ## Pages of the log -/

def defaultPageSize : Nat := 256

/-- mirrors src/storage.rs:126-170 -/
structure Cursor where
  after : Option Nat
  limit : Nat

namespace Cursor

def start : Cursor := ⟨none, defaultPageSize⟩

def effectiveLimit (c : Cursor) : Nat := max 1 (min c.limit maxPageSize)

/-- The first position the page may hold. -/
def first (c : Cursor) : Nat := c.after.elim 0 (· + 1)

end Cursor

/-- mirrors src/storage.rs:174-181 -/
structure StoredEntry (H : Type) (P : Scale) extends Logged H P where
  index : Option Nat

structure Page (H : Type) (P : Scale) where
  records : List (StoredEntry H P)
  next : Option Cursor

section
variable {H : Type} {P : Scale}

/-- The log as records. -/
def storedEntries (log : List (Logged H P)) : List (StoredEntry H P) := log.zipIdx.map fun x => ⟨x.1, some x.2⟩

/-- A page of a log, which has `total` entries when they are counted.
mirrors src/storage.rs:972-998, src/storage/sqlite.rs:1077-1115, src/storage/postgres.rs:1244-1284 -/
def page (log : List (Logged H P)) (total : Nat) (cursor : Cursor) : Page H P :=
  let records := ((storedEntries log).drop cursor.first).take cursor.effectiveLimit
  let next := (records.getLast?.bind (·.index)).filter fun index => index + 1 < total
  ⟨records, next.map fun index => ⟨some index, cursor.limit⟩⟩

end

/-! ## Rows -/

/-- The columns of a posting and of the entry it belongs to.
mirrors src/storage/iceberg.rs:176-215 -/
structure ArchivedPosting (H : Type) (P : Scale) where
  logIndex : Nat
  entryId : EntryId
  contentHash : H
  idempotencyKey : IdempotencyKey
  bookingDate : Date
  valueDate : Date
  description : Description
  kind : Option Label
  postingIndex : Nat
  accountIndex : Nat
  direction : Direction
  amountMinor : Int
  currency : Currency
  layer : Layer
  dimensions : Dimensions
  actor : Option Label
  source : Option Label
  correlation : Option Label
  documentId : Option Label
  documentHash : Option H
  reverses : Option EntryId
  originalBookingDate : Option Date
  deriving DecidableEq

structure ArchiveRow (H : Type) (P : Scale) extends ArchivedPosting H P where
  period : PeriodId
  deriving DecidableEq

/-- `ColdTierError`. -/
inductive ColdTierError (H : Type)
  | iceberg
  | store
  | notSequenced (entry : EntryId)
  | sealBehindArchive (period : PeriodId) (sealSize archived : Nat)
  | malformedState (e : MalformedState)
  | rootMismatch (period : PeriodId) (expected actual : H)
  deriving DecidableEq

section
variable {H : Type} {P : Scale}

/-- The rows of the entry at `index`, in the order of its postings. -/
def archivedPostings (index : Nat) (record : Logged H P) : List (ArchivedPosting H P) :=
  record.entry.postings.zipIdx.map fun x =>
    { logIndex := min index (2 ^ 63 - 1)
      entryId := record.entry.id
      contentHash := record.contentHash
      idempotencyKey := record.entry.idempotencyKey
      bookingDate := record.entry.bookingDate
      valueDate := record.entry.valueDate
      description := record.entry.description
      kind := record.entry.kind
      postingIndex := min x.2 (2 ^ 31 - 1)
      accountIndex := x.1.account.index
      direction := x.1.direction
      amountMinor := x.1.amount.minor
      currency := x.1.currency
      layer := x.1.layer
      dimensions := x.1.dimensions
      actor := record.entry.provenance.actor
      source := record.entry.provenance.source
      correlation := record.entry.provenance.correlation
      documentId := record.entry.document.map (·.id)
      documentHash := record.entry.document.bind (·.contentHash)
      reverses := record.entry.reverses
      originalBookingDate := record.entry.originalBookingDate }

/-- mirrors src/storage/iceberg.rs:608-720 -/
def buildBatch (period : PeriodId) : List (StoredEntry H P) → Except (ColdTierError H) (List (ArchiveRow H P))
  | [] => .ok []
  | record :: records =>
    match record.index with
    | none => .error (.notSequenced record.entry.id)
    | some index => (buildBatch period records).map fun rows =>
        ((archivedPostings index record.toLogged).map fun x => ⟨x, period⟩) ++ rows

/-! ## Collecting -/

/-- The loop over a page: the records below `stop`, and whether one at `stop` or past it came up. -/
def takeBelow (stop : Nat) : List (StoredEntry H P) → Except (ColdTierError H) (List (StoredEntry H P) × Bool)
  | [] => .ok ([], false)
  | record :: records =>
    match record.index with
    | none => .error (.notSequenced record.entry.id)
    | some index =>
      if stop ≤ index then .ok ([], true)
      else (takeBelow stop records).map fun x => (record :: x.1, x.2)

/-- What the store answers a page with: nothing, or the log when the rows are read and
the log when they are counted. -/
abbrev PageView (H : Type) (P : Scale) := Option (List (Logged H P) × List (Logged H P))

/-- The loop of `collect`, with a view for each page. It has not returned while the
views run out. -/
def collectLoop (stop : Nat) : List (PageView H P) → Cursor → Option (Except (ColdTierError H) (List (StoredEntry H P)))
  | [], _ => none
  | none :: _, _ => some (.error .store)
  | some (log, counted) :: views, cursor =>
    let p := page log counted.length cursor
    if p.records.isEmpty then some (.ok [])
    else
      match takeBelow stop p.records with
      | .error e => some (.error e)
      | .ok (out, true) => some (.ok out)
      | .ok (out, false) =>
        match p.next with
        | none => some (.ok out)
        | some next => (collectLoop stop views next).map fun rest => rest.map (out ++ ·)

/-- The entries from `start` to `stop`. mirrors src/storage/iceberg.rs:461-504 -/
def collect (start stop : Nat) (views : List (PageView H P)) :
    Option (Except (ColdTierError H) (List (StoredEntry H P))) :=
  if stop ≤ start then some (.ok [])
  else collectLoop stop views (if start = 0 then .start else ⟨some (start - 1), defaultPageSize⟩)

end

/-! ## The archive -/

/-- The properties of a snapshot: `doubleentry.period` and so on.
mirrors src/storage/iceberg.rs:77-112 -/
inductive Property
  | period
  | sealHash
  | treeRoot
  | trialBalanceRoot
  | trialBalanceSize
  | accountsRoot
  | accountsSize
  | entryCount
  | archivedThrough
  | accumulator
  deriving DecidableEq

structure Snapshot where
  id : Int
  properties : List (Property × List Char)

/-- The Iceberg table: the data files of its location by the period they are named after,
those that the current snapshot lists, and that snapshot. -/
structure Archive (H : Type) (P : Scale) where
  stored : OrdMap PeriodId (List (ArchiveRow H P))
  listed : List PeriodId
  current : Option Snapshot

namespace Archive

variable {H : Type} {P : Scale}

def empty : Archive H P := ⟨.empty, [], none⟩

/-- What a scan of the table reads. -/
def rows (table : Archive H P) : List (ArchiveRow H P) :=
  table.listed.flatMap fun period => (table.stored.get? period).getD []

/-- The data file is closed. Nothing asks whether there was one of its name.
mirrors src/storage/iceberg.rs:546-560 -/
def write (table : Archive H P) (period : PeriodId) (rows : List (ArchiveRow H P)) : Archive H P :=
  { table with stored := table.stored.insert period rows }

theorem rows_write {table : Archive H P} {period : PeriodId} (h : period ∉ table.listed) (rows : List (ArchiveRow H P)) :
    (table.write period rows).rows = table.rows := by
  refine List.flatMap_congr fun other hother => ?_
  have hne : period ≠ other := fun e => h (e ▸ hother)
  rw [write, OrdMap.get?_insert, if_neg hne]

end Archive

/-- mirrors src/storage/iceberg.rs:302-307 -/
structure ArchiveState (H : Type) where
  through : Nat
  accumulator : MerkleAccumulator H

/-- mirrors src/storage/iceberg.rs:283-298 -/
structure Compaction (H : Type) where
  period : PeriodId
  archivedThrough : Nat
  entries : Nat
  postings : Nat
  verifiedRoot : H
  snapshotId : Option Int

section
variable {H : Type} [HashBytes H] {P : Scale}

/-- mirrors src/storage/iceberg.rs:512-536 -/
def archiveState (table : Archive H P) : Except (ColdTierError H) (ArchiveState H) :=
  match table.current with
  | none => .ok ⟨0, .new⟩
  | some snapshot =>
    match snapshot.properties.lookup .archivedThrough, snapshot.properties.lookup .accumulator with
    | some through, some raw =>
      match parseUnsigned 64 through with
      | none => .error (.malformedState (.archivedThrough through))
      | some n => ((decodeAccumulator raw n).mapError .malformedState).map fun accumulator => ⟨n, accumulator⟩
    | _, _ => .error (.malformedState (.noArchiveState snapshot.id))

/-- What `write_snapshot` says of the seal. mirrors src/storage/iceberg.rs:562-594 -/
def snapshotProperties (s : Seal H) (accumulator : MerkleAccumulator H) : List (Property × List Char) :=
  [(.period, s.period.label.text.toList), (.sealHash, toHex s.sealHash), (.treeRoot, toHex s.treeHead.root),
    (.trialBalanceRoot, toHex s.trialBalance.root), (.trialBalanceSize, Nat.toDigits 10 s.trialBalance.size),
    (.accountsRoot, toHex s.accounts.root), (.accountsSize, Nat.toDigits 10 s.accounts.size),
    (.entryCount, Nat.toDigits 10 s.entryCount), (.archivedThrough, Nat.toDigits 10 s.treeHead.size),
    (.accumulator, encodeAccumulator accumulator)]

/-- A fast append of the file of the period, and a snapshot on top of the current one. A file
that the table lists is not added again. mirrors src/storage/iceberg.rs:596-605 -/
def Archive.commit (table : Archive H P) (s : Seal H) (accumulator : MerkleAccumulator H) (id : Int) : Option (Archive H P) :=
  if table.listed.contains s.period then none
  else some { table with
    listed := table.listed ++ [s.period]
    current := some ⟨id, snapshotProperties s accumulator⟩ }

/-- What a call holds once it has verified its delta. -/
structure Delta (H : Type) (P : Scale) where
  entries : Nat
  rows : List (ArchiveRow H P)
  accumulator : MerkleAccumulator H

variable [DecidableEq H]

/-- The first checks of `compact`, on the table it loads. mirrors src/storage/iceberg.rs:402-411 -/
def loadFor (table : Archive H P) (s : Seal H) : Except (ColdTierError H) (ArchiveState H) := do
  let state ← archiveState table
  if s.treeHead.size < state.through then .error (.sealBehindArchive s.period s.treeHead.size state.through)
  else .ok state

/-- The delta of a call, `none` if there is nothing new. mirrors src/storage/iceberg.rs:417-448 -/
def verifyDelta (state : ArchiveState H) (s : Seal H) (entries : List (StoredEntry H P)) :
    Except (ColdTierError H) (Option (Delta H P)) :=
  let accumulator := (entries.map (·.contentHash)).foldl MerkleAccumulator.push state.accumulator
  let reached := accumulator.root
  if reached ≠ s.treeHead.root then .error (.rootMismatch s.period s.treeHead.root reached)
  else if entries.isEmpty then .ok none
  else (buildBatch s.period entries).map fun rows => some ⟨entries.length, rows, accumulator⟩

/-- What one call is given: a seal, whether the table loads, the views of its pages, whether
the data file is written, and the snapshot of its commit, if the catalog takes it. -/
structure Attempt (H : Type) (P : Scale) where
  target : Seal H
  loads : Bool
  views : List (PageView H P)
  writes : Bool
  commits : Option Int

/-- A call up to where it writes, if it gets there. mirrors src/storage/iceberg.rs:399-448 -/
def verified (table : Archive H P) (x : Attempt H P) :
    Option (Except (ColdTierError H) (ArchiveState H × Option (Delta H P))) :=
  if ¬ x.loads then some (.error .iceberg)
  else
    match loadFor table x.target with
    | .error e => some (.error e)
    | .ok state => (collect state.through x.target.treeHead.size x.views).map fun collected =>
        (collected >>= verifyDelta state x.target).map fun delta => (state, delta)

/-- The end of a call, with the delta it verified. mirrors src/storage/iceberg.rs:437-458 -/
def finish (table : Archive H P) (state : ArchiveState H) (x : Attempt H P) :
    Option (Delta H P) → Except (ColdTierError H) (Compaction H) × Archive H P
  | none => (.ok ⟨x.target.period, state.through, 0, 0, state.accumulator.root, none⟩, table)
  | some delta =>
    if ¬ x.writes then (.error .iceberg, table)
    else
      let written := table.write x.target.period delta.rows
      match x.commits.bind fun id => (written.commit x.target delta.accumulator id).map fun committed => (id, committed) with
      -- the file stays
      | none => (.error .iceberg, written)
      | some (id, committed) =>
        (.ok ⟨x.target.period, x.target.treeHead.size, delta.entries, delta.rows.length, delta.accumulator.root, some id⟩, committed)

/-- One call, if it returns. mirrors src/storage/iceberg.rs:392-458 -/
def compact (table : Archive H P) (x : Attempt H P) :
    Option (Except (ColdTierError H) (Compaction H) × Archive H P) :=
  (verified table x).map fun
    | .error e => (.error e, table)
    | .ok (state, delta) => finish table state x delta

end

end DoubleEntry.L4
