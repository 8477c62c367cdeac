import DoubleEntry.Core.Json
import DoubleEntry.L1Values.Julian
import DoubleEntry.L4Store.ColdTierRun
import DoubleEntry.L4Store.Columns

/-!
# Archived rows as text

The archive has no hash column a reader could check its rows against without the rest of
them: whoever verifies it encodes the entries again. `ArchiveColumns` is a row as the
table holds it, with identifiers and digests in hex, dates as days since 1970 and the
axes of a posting as a JSON object, and `ContentColumns` are the columns the content hash
covers. Each column determines the value it renders, so do they all
(`contentColumns_eq`), and a sealed entry has a row to read them from: entries
whose rows agree on these columns have the same canonical bytes (`archive_lossless`).

**Assumptions.** Both entries were returned by `seal`, in contexts of their own; batches and
periods are any. Nothing is assumed of the hash.

**Results.**
* `parseHyphenated_hyphenated`, `dimensionsJson_injective`: single columns.
* `contentColumns_eq`, `entry_of_rows`: a posting, and an entry with its rows in no order.
* `archive_lossless`: entries with the same rows have the same bytes.
-/
namespace DoubleEntry.L4

open DoubleEntry.Core DoubleEntry.L1 DoubleEntry.L2 DoubleEntry.L3

/-! ## Columns -/

def uuidGroups : List Nat := [8, 4, 4, 4, 12]

/-- `Uuid` displays its digits in groups. -/
def hyphenated (id : EntryId) : List Char := ['-'].intercalate (uuidGroups.splitLengths (hexOfBytes (uuidBytes id)))

/-- `Uuid::parse_str` on such a text. -/
def parseHyphenated (s : List Char) : Option EntryId :=
  let groups := s.splitOn '-'
  if groups.map List.length = uuidGroups then
    (bytesOfHex groups.flatten).bind fun b => (uuidFromBytes (H := Unit) b).toOption
  else none

/-- `i32::saturating_sub` -/
def saturatingSub32 (a b : Int) : Int := max (-2 ^ 31) (min (2 ^ 31 - 1) (a - b))

/-- The day number of 1970-01-01. mirrors src/storage/iceberg.rs:275 -/
def date32Epoch : Date := ⟨1970, 1, 1, by decide⟩

/-- mirrors src/storage/iceberg.rs:277-280 -/
def date32 (date : Date) : Int := saturatingSub32 date.toJulianDay date32Epoch.toJulianDay

def labelText (l : Label) : List Char := l.text.toList

/-- mirrors src/storage/iceberg.rs:221-236 -/
def dimensionsJson (d : Dimensions) : Option (List Char) :=
  if d.axes.entries = [] then none
  else some (jsonObject (d.axes.entries.map fun e => (labelText e.1, labelText e.2)))

/-- The columns the content hash covers. mirrors src/storage/iceberg.rs:741-762 -/
structure ContentColumns where
  idempotencyKey : List Char
  bookingDate : Int
  valueDate : Int
  description : List Char
  kind : Option (List Char)
  postingIndex : Nat
  accountIndex : Nat
  direction : List Char
  amountMinor : Int
  currency : List Char
  layer : List Char
  dimensions : Option (List Char)
  provenanceActor : Option (List Char)
  provenanceSource : Option (List Char)
  provenanceCorrelation : Option (List Char)
  documentId : Option (List Char)
  documentContentHash : Option (List Char)
  reverses : Option (List Char)
  originalBookingDate : Option Int
  deriving DecidableEq

/-- A row of the table. mirrors src/storage/iceberg.rs:176-213 -/
structure ArchiveColumns extends ContentColumns where
  period : List Char
  logIndex : Nat
  entryId : List Char
  contentHash : List Char
  deriving DecidableEq

section
variable {H : Type} [HashBytes H] {P : Scale}

/-- What `build_batch` pushes of a posting. mirrors src/storage/iceberg.rs:641-688 -/
def contentColumns (x : ArchivedPosting H P) : ContentColumns where
  idempotencyKey := hexOfBytes x.idempotencyKey.bytes
  bookingDate := date32 x.bookingDate
  valueDate := date32 x.valueDate
  description := x.description.text.toList
  kind := x.kind.map labelText
  postingIndex := x.postingIndex
  accountIndex := x.accountIndex
  direction := (directionStr x.direction).toList
  amountMinor := x.amountMinor
  currency := (currencyCode x.currency).toList
  layer := (layerStr x.layer).toList
  dimensions := dimensionsJson x.dimensions
  provenanceActor := x.actor.map labelText
  provenanceSource := x.source.map labelText
  provenanceCorrelation := x.correlation.map labelText
  documentId := x.documentId.map labelText
  documentContentHash := x.documentHash.map toHex
  reverses := x.reverses.map hyphenated
  originalBookingDate := x.originalBookingDate.map date32

/-- mirrors src/storage/iceberg.rs:641-688 -/
def archiveColumns (row : ArchiveRow H P) : ArchiveColumns where
  toContentColumns := contentColumns row.toArchivedPosting
  period := labelText row.period.label
  logIndex := row.logIndex
  entryId := hyphenated row.entryId
  contentHash := toHex row.contentHash

/-- The batch as it is written. mirrors src/storage/iceberg.rs:608-721 -/
def recordBatch (period : PeriodId) (entries : List (StoredEntry H P)) : Except (ColdTierError H) (List ArchiveColumns) :=
  (buildBatch period entries).map fun rows => rows.map archiveColumns

end

/-! ## Columns determine their values -/

/-- **An identifier is read back from its text.** -/
theorem parseHyphenated_hyphenated (id : EntryId) : parseHyphenated (hyphenated id) = some id := by
  have hgroups : (hyphenated id).splitOn '-' = uuidGroups.splitLengths (hexOfBytes (uuidBytes id)) :=
    splitOn_groups (not_mem_hexOfBytes (by decide) _) (by decide)
  have hlen : (hexOfBytes (uuidBytes id)).length = uuidGroups.sum := by
    rw [length_hexOfBytes, length_uuidBytes]
    rfl
  simp only [parseHyphenated, hgroups, List.map_splitLengths_length _ _ hlen.ge, ↓reduceIte,
    List.flatten_splitLengths _ _ hlen.le, bytesOfHex_hexOfBytes, Option.bind_some, uuidFromBytes_uuidBytes]
  rfl

theorem hyphenated_injective : Function.Injective hyphenated := injective_of_read parseHyphenated_hyphenated

theorem toHex_injective {H : Type} [HashBytes H] : Function.Injective (toHex : H → List Char) :=
  injective_of_read parseHex_toHex

theorem date32_injective : Function.Injective date32 := by
  have hepoch : date32Epoch.toJulianDay = 2440588 := by decide
  intro a b h
  have ha := a.toJulianDay_bounds
  have hb := b.toJulianDay_bounds
  unfold date32 saturatingSub32 at h
  rw [hepoch] at h
  exact Date.toJulianDay_strictMono.injective (by omega)

theorem labelText_injective : Function.Injective labelText := fun _ _ h => Label.text_injective (String.toList_inj.1 h)

/-- No text is the text of two sets of axes, whatever the labels contain. -/
theorem dimensionsJson_injective : Function.Injective dimensionsJson := by
  have haxis : Function.Injective fun e : Label × Label => (labelText e.1, labelText e.2) := fun e e' h => by
    obtain ⟨haxis, hvalue⟩ := Prod.mk.inj h
    exact Prod.ext (labelText_injective haxis) (labelText_injective hvalue)
  intro a b h
  refine Dimensions.ext_entries ?_
  unfold dimensionsJson at h
  split_ifs at h with ha hb hb
  · rw [ha, hb]
  · exact List.map_injective_iff.2 haxis (jsonObject_injective (Option.some.inj h))

section
variable {H : Type} [HashBytes H] {P : Scale}

/-- **The columns of a posting determine it**, but for the three that say where it was archived. -/
theorem contentColumns_eq {x y : ArchivedPosting H P} (h : contentColumns x = contentColumns y) :
    x = { y with logIndex := x.logIndex, entryId := x.entryId, contentHash := x.contentHash } := by
  simp only [contentColumns, ContentColumns.mk.injEq] at h
  obtain ⟨hkey, hbooking, hvalue, hdescription, hkind, hindex, haccount, hdirection, hamount, hcurrency, hlayer, hdimensions,
    hactor, hsource, hcorrelation, hid, hhash, hreverses, horiginal⟩ := h
  have hlabel := Option.map_injective labelText_injective
  have hkey := IdempotencyKey.ext (hexOfBytes_injective hkey)
  have hbooking := date32_injective hbooking
  have hvalue := date32_injective hvalue
  have hdescription := Description.ext (String.toList_inj.1 hdescription)
  have hkind := hlabel hkind
  have hdirection := directionStr_injective (String.toList_inj.1 hdirection)
  have hcurrency := currencyCode_injective (String.toList_inj.1 hcurrency)
  have hlayer := layerStr_injective (String.toList_inj.1 hlayer)
  have hdimensions := dimensionsJson_injective hdimensions
  have hactor := hlabel hactor
  have hsource := hlabel hsource
  have hcorrelation := hlabel hcorrelation
  have hid := hlabel hid
  have hhash := Option.map_injective toHex_injective hhash
  have hreverses := Option.map_injective hyphenated_injective hreverses
  have horiginal := Option.map_injective date32_injective horiginal
  obtain ⟨⟩ := x
  simp_all

/-! ## The rows of an entry -/

omit [HashBytes H] in
theorem provenance_ext {p p' : Provenance} (hactor : p.actor = p'.actor) (hsource : p.source = p'.source)
    (hcorrelation : p.correlation = p'.correlation) : p = p' := by
  cases p
  cases p'
  simp_all

omit [HashBytes H] in
theorem document_ext {d d' : Option (DocumentRef H)} (hid : d.map (·.id) = d'.map (·.id))
    (hhash : (d.bind (·.contentHash)) = d'.bind (·.contentHash)) : d = d' := by
  cases d with
  | none =>
    cases d' with
    | none => rfl
    | some d' => cases hid
  | some d =>
    cases d' with
    | none => cases hid
    | some d' =>
      obtain ⟨id, hash⟩ := d
      obtain ⟨id', hash'⟩ := d'
      obtain rfl : id = id' := Option.some.inj hid
      obtain rfl : hash = hash' := hhash
      rfl

/-- A posting with a row among those of another entry is its posting at that position. -/
theorem posting_of_rows {index index' : Nat} {record record' : Logged H P}
    (hlen : record.entry.postings.length ≤ maxPostings)
    (h : ∀ c ∈ (archivedPostings index record).map contentColumns, c ∈ (archivedPostings index' record').map contentColumns)
    {position : Nat} {posting : Posting P} (hget : record.entry.postings[position]? = some posting) :
    record'.entry.postings[position]? = some posting ∧
      record.entry = { record'.entry with id := record.entry.id, postings := record.entry.postings } := by
  have hplace : (posting, position) ∈ record.entry.postings.zipIdx := List.mem_zipIdx_iff_getElem?.2 hget
  have hmem := h _ (List.mem_map_of_mem (List.mem_map_of_mem hplace))
  obtain ⟨x, hx, hcolumns⟩ := List.mem_map.1 hmem
  obtain ⟨⟨posting', position'⟩, hmem', rfl⟩ := List.mem_map.1 hx
  have hget' := List.mem_zipIdx_iff_getElem?.1 hmem'
  have hrow := contentColumns_eq hcolumns
  simp only [ArchivedPosting.mk.injEq] at hrow
  obtain ⟨-, -, -, hkey, hbooking, hvalue, hdescription, hkind, hindex, haccount, hdirection, hamount, hcurrency, hlayer,
    hdimensions, hactor, hsource, hcorrelation, hid, hhash, hreverses, horiginal⟩ := hrow
  have hposition : position' = position := by
    have hlt := (List.getElem?_eq_some_iff.1 hget).1
    unfold maxPostings at hlen
    omega
  have hposting : posting' = posting := by
    obtain ⟨⟨account, _⟩, direction, ⟨minor, _⟩, currency, layer, dimensions⟩ := posting
    obtain ⟨⟨account', _⟩, direction', ⟨minor', _⟩, currency', layer', dimensions'⟩ := posting'
    simp_all
  have hprovenance := provenance_ext hactor hsource hcorrelation
  have hdocument := document_ext hid hhash
  refine ⟨hposition ▸ hposting ▸ hget', ?_⟩
  simp only [hkey, hbooking, hvalue, hdescription, hkind, hprovenance, hdocument, hreverses, horiginal]

/-- **The rows of an entry determine it** but for its identifier, whatever their order. -/
theorem entry_of_rows {index index' : Nat} {record record' : Logged H P} (hne : record.entry.postings ≠ [])
    (hlen : record.entry.postings.length ≤ maxPostings) (hlen' : record'.entry.postings.length ≤ maxPostings)
    (h : ∀ c, c ∈ (archivedPostings index record).map contentColumns ↔
      c ∈ (archivedPostings index' record').map contentColumns) :
    record.entry = { record'.entry with id := record.entry.id } := by
  have hpostings : record.entry.postings = record'.entry.postings := by
    refine List.ext_getElem? fun position => Option.ext fun posting => ?_
    constructor
    · exact fun hget => (posting_of_rows hlen (fun c => (h c).1) hget).1
    · exact fun hget => (posting_of_rows hlen' (fun c => (h c).2) hget).1
  obtain ⟨posting, rest, hcons⟩ := List.exists_cons_of_ne_nil hne
  have hfirst : record.entry.postings[0]? = some posting := by rw [hcons, List.getElem?_cons_zero]
  have hfields := (posting_of_rows hlen (fun c => (h c).1) hfirst).2
  rw [hpostings] at hfields
  exact hfields

/-! ## The rows of a batch -/

omit [HashBytes H] in
theorem sequenced_of_buildBatch {period : PeriodId} {records : List (StoredEntry H P)} :
    ∀ {rows : List (ArchiveRow H P)}, buildBatch period records = .ok rows → ∀ r ∈ records, r.index.isSome := by
  induction records with
  | nil => exact fun _ r hr => absurd hr List.not_mem_nil
  | cons record records ih =>
    intro rows h r hr
    cases hindex : record.index with
    | none =>
      simp only [buildBatch, hindex] at h
      cases h
    | some index =>
      simp only [buildBatch, hindex] at h
      obtain ⟨more, hmore, -⟩ := map_eq_ok.1 h
      rcases List.mem_cons.1 hr with rfl | hr
      · rw [hindex]
        rfl
      · exact ih hmore r hr

/-- A batch holds the rows of its entries, one after another. -/
theorem contentColumns_recordBatch {period : PeriodId} {records : List (StoredEntry H P)} {batch : List ArchiveColumns}
    (h : recordBatch period records = .ok batch) : (∀ r ∈ records, r.index.isSome) ∧
      batch.map (·.toContentColumns) = (records.flatMap recordRows).map contentColumns := by
  obtain ⟨rows, hrows, rfl⟩ := map_eq_ok.1 h
  have hsequenced := sequenced_of_buildBatch hrows
  obtain ⟨rows', hrows', hpostings⟩ := buildBatch_spec period hsequenced
  obtain rfl : rows' = rows := Except.ok.inj (hrows'.symm.trans hrows)
  refine ⟨hsequenced, ?_⟩
  rw [← hpostings, List.map_map, List.map_map]
  rfl

/-- The rows of `record` in the batch of `before ++ record :: after`: a row for each posting. -/
def rowsOf (before : List (StoredEntry H P)) (record : StoredEntry H P) (batch : List ArchiveColumns) : List ArchiveColumns :=
  (batch.drop (before.flatMap (·.entry.postings)).length).take record.entry.postings.length

omit [HashBytes H] in
theorem length_recordRows {record : StoredEntry H P} (h : record.index.isSome) :
    (recordRows record).length = record.entry.postings.length := by
  obtain ⟨index, hindex⟩ := Option.isSome_iff_exists.1 h
  simp [recordRows, hindex, archivedPostings]

theorem contentColumns_rowsOf {period : PeriodId} {before after : List (StoredEntry H P)} {record : StoredEntry H P}
    {batch : List ArchiveColumns} (h : recordBatch period (before ++ record :: after) = .ok batch) :
    ∃ index, (rowsOf before record batch).map (·.toContentColumns) =
      (archivedPostings index record.toLogged).map contentColumns := by
  obtain ⟨hsequenced, hcolumns⟩ := contentColumns_recordBatch h
  have hbefore : (before.flatMap recordRows).length = (before.flatMap (·.entry.postings)).length := by
    rw [List.length_flatMap, List.length_flatMap]
    congr 1
    exact List.map_congr_left fun r hr => length_recordRows (hsequenced r (List.mem_append_left _ hr))
  have hrecord := hsequenced record (List.mem_append_right _ List.mem_cons_self)
  obtain ⟨index, hindex⟩ := Option.isSome_iff_exists.1 hrecord
  have hrows : recordRows record = archivedPostings index record.toLogged := by rw [recordRows, hindex, Option.elim_some]
  refine ⟨index, ?_⟩
  rw [rowsOf, List.map_take, List.map_drop, hcolumns, List.flatMap_append, List.flatMap_cons, ← List.map_drop,
    ← List.map_take, ← hbefore, List.drop_left, ← length_recordRows hrecord, List.take_left, hrows]

/-- **The archive is lossless.** Take two sealed entries, in any batches. If their rows are the
same but for `period`, `log_index`, `entry_id` and `content_hash`, as rows of a table are, in
no order, then the entries have the same canonical bytes and the same content hash. -/
theorem archive_lossless {draft draft' : Entry H .draft P} {ctx ctx' : SealContext} {record record' : StoredEntry H P}
    (hseal : draft.seal ctx = .ok record.entry) (hseal' : draft'.seal ctx' = .ok record'.entry)
    {period period' : PeriodId} {before after before' after' : List (StoredEntry H P)} {batch batch' : List ArchiveColumns}
    (hbatch : recordBatch period (before ++ record :: after) = .ok batch)
    (hbatch' : recordBatch period' (before' ++ record' :: after') = .ok batch')
    (hagree : ∀ c : ContentColumns, c ∈ (rowsOf before record batch).map (·.toContentColumns) ↔
      c ∈ (rowsOf before' record' batch').map (·.toContentColumns)) :
    Canonical.encode record.entry = Canonical.encode record'.entry ∧
      record.entry.contentHash = record'.entry.contentHash := by
  obtain ⟨hfew, hmany⟩ := Entry.length_of_seal hseal
  obtain ⟨-, hmany'⟩ := Entry.length_of_seal hseal'
  obtain ⟨index, hrows⟩ := contentColumns_rowsOf hbatch
  obtain ⟨index', hrows'⟩ := contentColumns_rowsOf hbatch'
  rw [hrows, hrows'] at hagree
  have hne : record.entry.postings ≠ [] := fun hnil => by
    rw [hnil, List.length_nil] at hfew
    omega
  have hencode : Canonical.encode record.entry = Canonical.encode record'.entry := by
    have hentry : record.entry = { record'.entry with id := record.entry.id } := entry_of_rows hne hmany hmany' hagree
    rw [hentry]
    rfl
  refine ⟨hencode, ?_⟩
  unfold Entry.contentHash Entry.digest
  rw [hencode]

end

/-! ## A sale archived twice -/

/-- A sale of March with a quote and a backslash in an axis of its postings. -/
def quotedSale : Entry Preimage .draft cents :=
  { saleOfMarch with
    postings := saleOfMarch.postings.map fun p =>
      { p with dimensions := (Dimensions.none.set books.label ⟨"a\"b\\c", by decide⟩).toOption.getD .none } }

/-- Under an identifier, at a position. -/
def archivedAs (id : EntryId) (index : Nat) : StoredEntry Preimage cents where
  entry := { quotedSale.withState .balanced with id := id }
  contentHash := quotedSale.digest
  index := some index

set_option maxRecDepth 10000 in
theorem exists_seal_archivedAs : ∃ ctx, ∀ id index, ({ quotedSale with id := id }).seal ctx = .ok (archivedAs id index).entry := by
  let ctx := (((Journal.new books).withPolicy .permissive).afterAll Journal.marchDefined : Journal Preimage cents).context
  have hvalid : quotedSale.violations ctx = [] := by decide
  exact ⟨ctx, fun id index => Entry.seal_eq_ok.2 ⟨hvalid, rfl⟩⟩

/-- The columns say neither where it was archived nor under which identifier. -/
theorem contentColumns_archivedAs (id : EntryId) (index position : Nat) :
    (archivedPostings position (archivedAs id index).toLogged).map contentColumns =
      (archivedPostings 0 (archivedAs saleOfMarch.id 0).toLogged).map contentColumns := by
  unfold archivedPostings
  rw [List.map_map, List.map_map]
  rfl

/-- Not vacuous: archived under two identifiers, in batches of two periods. -/
theorem quotedSale_lossless : ∃ first second : StoredEntry Preimage cents, first.entry.id ≠ second.entry.id ∧
    Canonical.encode first.entry = Canonical.encode second.entry ∧ first.entry.contentHash = second.entry.contentHash := by
  obtain ⟨ctx, hseal⟩ := exists_seal_archivedAs
  obtain ⟨rows, hrows, -⟩ := @buildBatch_spec Preimage cents march.id [archivedAs saleOfMarch.id 0] (by simp [archivedAs])
  obtain ⟨rows', hrows', -⟩ := @buildBatch_spec Preimage cents april.id
    [archivedAs nextSale.id 0, archivedAs saleOfApril.id 1] (by simp [archivedAs])
  have hbatch : recordBatch march.id ([] ++ archivedAs saleOfMarch.id 0 :: []) = .ok (rows.map archiveColumns) := by
    rw [recordBatch, List.nil_append, hrows]
    rfl
  have hbatch' : recordBatch april.id ([archivedAs nextSale.id 0] ++ archivedAs saleOfApril.id 1 :: []) =
      .ok (rows'.map archiveColumns) := by
    rw [recordBatch, List.singleton_append, hrows']
    rfl
  obtain ⟨index, hcolumns⟩ := contentColumns_rowsOf hbatch
  obtain ⟨index', hcolumns'⟩ := contentColumns_rowsOf hbatch'
  refine ⟨archivedAs saleOfMarch.id 0, archivedAs saleOfApril.id 1, by decide, ?_⟩
  refine archive_lossless (hseal _ 0) (hseal _ 1) hbatch hbatch' fun c => ?_
  rw [hcolumns, hcolumns', contentColumns_archivedAs _ _ index, contentColumns_archivedAs _ _ index']

end DoubleEntry.L4
