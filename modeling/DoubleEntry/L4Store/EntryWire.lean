import DoubleEntry.Core.Wire
import DoubleEntry.L1Values.AmountText
import DoubleEntry.L4Store.ArchiveText

/-!
# Entries on the wire

An entry is a record of its fields, each written by a codec of its own: keys and digests
in hex, amounts as decimals, labels and currencies as their text, the axes of a posting as
a map. Reading goes through the constructors, with their bounds, and yields a draft. Each
codec is lossless, the one of amounts for all but the smallest amount, so a sealed entry is
read back as the draft it was sealed from (`wire_round_trip`).

Identifiers and dates are written by the crates they come from; `uuid` and `date` stand for
that.

**Assumptions.** The two codecs that come from other crates, for identifiers and for dates, are
lossless. The entry was returned by `seal`, in any context.

**Results.**
* `deserialize_serialize`: any entry without the smallest amount.
* `wire_round_trip`: the draft that is read seals to the entry it was written from.
-/
namespace DoubleEntry.L4

open DoubleEntry.Core DoubleEntry.L1 DoubleEntry.L2 DoubleEntry.L3

/-! ## Text -/

/-- mirrors src/serde_support.rs:14-34, src/dimensions.rs:85 -/
def labelCodec : Codec Label := .text Label.text fun s => (Label.new s).toOption

/-- mirrors src/serde_support.rs:14-34, src/entry.rs:214 -/
def descriptionCodec : Codec Description := .text Description.text fun s => (Description.new s).toOption

/-- mirrors src/entry.rs:121-134, 159-185 -/
def idempotencyKeyCodec : Codec IdempotencyKey :=
  .text (fun k => String.ofList (hexOfBytes k.bytes)) fun s =>
    (bytesOfHex s.toList).bind fun b => (IdempotencyKey.new b).toOption

/-- mirrors src/hash.rs:17-30 -/
def hashCodec {H : Type} [HashBytes H] : Codec H := .text (fun h => String.ofList (toHex h)) fun s => parseHex s.toList

/-- mirrors src/money.rs:47-63 -/
def currencyCodec : Codec Currency := .text currencyCode fun s => (Currency.new s).toOption

/-- mirrors src/money.rs:152-171 -/
def amountCodec {P : Scale} : Codec (Amount P) := .text Amount.display fun s => (Amount.parse P s).toOption

theorem lossless_labelCodec : labelCodec.Lossless fun _ => True := .text fun l _ => by
  rw [new_text]
  rfl

theorem lossless_descriptionCodec : descriptionCodec.Lossless fun _ => True := .text fun d _ => by
  rw [Description.new_text]
  rfl

theorem lossless_idempotencyKeyCodec : idempotencyKeyCodec.Lossless fun _ => True := .text fun k _ => by
  rw [String.toList_ofList, bytesOfHex_hexOfBytes, Option.bind_some, IdempotencyKey.new_bytes]
  rfl

theorem lossless_hashCodec {H : Type} [HashBytes H] : (hashCodec : Codec H).Lossless fun _ => True := .text fun h _ => by
  rw [String.toList_ofList, parseHex_toHex]

theorem lossless_currencyCodec : currencyCodec.Lossless fun _ => True := .text fun c _ => by
  rw [new_currencyCode]
  rfl

theorem lossless_amountCodec {P : Scale} : (amountCodec : Codec (Amount P)).Lossless fun a => a.minor ≠ i64Min :=
  .text fun a ha => by
    rw [Amount.parse_display, if_neg ha]
    rfl

/-! ## Parts of a posting -/

def directionName : Direction → String
  | .debit => "Debit"
  | .credit => "Credit"

def layerName : Layer → String
  | .settled => "Settled"
  | .pending => "Pending"

/-- mirrors src/posting.rs:14-21 -/
def directionCodec : Codec Direction := .variants [.debit, .credit] directionName

/-- mirrors src/posting.rs:64-72 -/
def layerCodec : Codec Layer := .variants [.settled, .pending] layerName

/-- mirrors src/account.rs:389-391 -/
def accountIdCodec : Codec AccountId :=
  (Codec.unsigned 32).wrapped (fun n => if h : n < 2 ^ 32 then some ⟨n, h⟩ else none) AccountId.index

/-- mirrors src/dimensions.rs:252-270 -/
def dimensionsCodec : Codec Dimensions where
  write d := (labelCodec.map labelCodec).write d.axes
  read t := ((labelCodec.map labelCodec).read t).bind fun axes => (Dimensions.fromPairs axes.entries).toOption

theorem lossless_directionCodec : directionCodec.Lossless fun _ => True := fun d _ =>
  Codec.lossless_variants (fun a b h => by cases a <;> cases b <;> first | rfl | exact absurd h (by decide)) d (by cases d <;> simp)

theorem lossless_layerCodec : layerCodec.Lossless fun _ => True := fun l _ =>
  Codec.lossless_variants (fun a b h => by cases a <;> cases b <;> first | rfl | exact absurd h (by decide)) l (by cases l <;> simp)

theorem lossless_accountIdCodec : accountIdCodec.Lossless fun _ => True :=
  (Codec.lossless_unsigned 32).wrapped fun a _ => ⟨a.fits, dif_pos a.fits⟩

theorem lossless_dimensionsCodec : dimensionsCodec.Lossless fun _ => True := fun d _ => by
  have haxes := lossless_labelCodec.map lossless_labelCodec d.axes fun _ _ => ⟨trivial, trivial⟩
  simp only [dimensionsCodec, haxes, Option.bind_some, Dimensions.fromPairs_entries]
  rfl

section
variable {H : Type} [HashBytes H] {P : Scale}

/-! ## Records -/

/-- mirrors src/posting.rs:100-115 -/
def postingFields (p : Posting P) : List (String × Tree) :=
  [("account", accountIdCodec.write p.account), ("direction", directionCodec.write p.direction),
    ("amount", amountCodec.write p.amount), ("currency", currencyCodec.write p.currency),
    ("layer", layerCodec.write p.layer), ("dimensions", dimensionsCodec.write p.dimensions)]

/-- mirrors src/posting.rs:100-115 -/
def postingCodec : Codec (Posting P) where
  write p := .record (postingFields p)
  read t := do
    let account ← accountIdCodec.required "account" t
    let direction ← directionCodec.required "direction" t
    let amount ← amountCodec.required "amount" t
    let currency ← currencyCodec.required "currency" t
    let layer ← layerCodec.required "layer" t
    let dimensions ← dimensionsCodec.required "dimensions" t
    some ⟨account, direction, amount, currency, layer, dimensions⟩

/-- mirrors src/entry.rs:240-249 -/
def provenanceFields (p : Provenance) : List (String × Tree) :=
  [("actor", labelCodec.option.write p.actor), ("source", labelCodec.option.write p.source),
    ("correlation", labelCodec.option.write p.correlation)]

/-- mirrors src/entry.rs:240-249 -/
def provenanceCodec : Codec Provenance where
  write p := .record (provenanceFields p)
  read t := do
    let actor ← labelCodec.optional "actor" t
    let source ← labelCodec.optional "source" t
    let correlation ← labelCodec.optional "correlation" t
    some ⟨actor, source, correlation⟩

/-- mirrors src/entry.rs:300-307 -/
def documentFields (d : DocumentRef H) : List (String × Tree) :=
  [("id", labelCodec.write d.id), ("content_hash", hashCodec.option.write d.contentHash)]

/-- mirrors src/entry.rs:300-307 -/
def documentCodec : Codec (DocumentRef H) where
  write d := .record (documentFields d)
  read t := do
    let id ← labelCodec.required "id" t
    let contentHash ← hashCodec.optional "content_hash" t
    some ⟨id, contentHash⟩

theorem lossless_postingCodec : (postingCodec : Codec (Posting P)).Lossless fun p => p.amount.minor ≠ i64Min := by
  intro p hp
  have hnodup : ((postingFields p).map Prod.fst).Nodup := by simp [postingFields]
  have haccount : accountIdCodec.required "account" (.record (postingFields p)) = some p.account :=
    Codec.required_record hnodup lossless_accountIdCodec trivial (by simp [postingFields])
  have hdirection : directionCodec.required "direction" (.record (postingFields p)) = some p.direction :=
    Codec.required_record hnodup lossless_directionCodec trivial (by simp [postingFields])
  have hamount : amountCodec.required "amount" (.record (postingFields p)) = some p.amount :=
    Codec.required_record hnodup lossless_amountCodec hp (by simp [postingFields])
  have hcurrency : currencyCodec.required "currency" (.record (postingFields p)) = some p.currency :=
    Codec.required_record hnodup lossless_currencyCodec trivial (by simp [postingFields])
  have hlayer : layerCodec.required "layer" (.record (postingFields p)) = some p.layer :=
    Codec.required_record hnodup lossless_layerCodec trivial (by simp [postingFields])
  have hdimensions : dimensionsCodec.required "dimensions" (.record (postingFields p)) = some p.dimensions :=
    Codec.required_record hnodup lossless_dimensionsCodec trivial (by simp [postingFields])
  simp only [postingCodec, haccount, hdirection, hamount, hcurrency, hlayer, hdimensions, Option.bind_eq_bind, Option.bind_some]

theorem lossless_provenanceCodec : provenanceCodec.Lossless fun _ => True := by
  intro p _
  have hnodup : ((provenanceFields p).map Prod.fst).Nodup := by simp [provenanceFields]
  have hlabel : ∀ {name : String} {value : Option Label}, (name, labelCodec.option.write value) ∈ provenanceFields p →
      labelCodec.optional name (.record (provenanceFields p)) = some value := fun h =>
    Codec.optional_record hnodup lossless_labelCodec (fun _ _ => trivial) h
  have hactor := hlabel (show ("actor", labelCodec.option.write p.actor) ∈ _ by simp [provenanceFields])
  have hsource := hlabel (show ("source", labelCodec.option.write p.source) ∈ _ by simp [provenanceFields])
  have hcorrelation := hlabel (show ("correlation", labelCodec.option.write p.correlation) ∈ _ by simp [provenanceFields])
  simp only [provenanceCodec, hactor, hsource, hcorrelation, Option.bind_eq_bind, Option.bind_some]

theorem lossless_documentCodec : (documentCodec : Codec (DocumentRef H)).Lossless fun _ => True := by
  intro d _
  have hnodup : ((documentFields d).map Prod.fst).Nodup := by simp [documentFields]
  have hid : labelCodec.required "id" (.record (documentFields d)) = some d.id :=
    Codec.required_record hnodup lossless_labelCodec trivial (by simp [documentFields])
  have hhash : hashCodec.optional "content_hash" (.record (documentFields d)) = some d.contentHash :=
    Codec.optional_record hnodup lossless_hashCodec (fun _ _ => trivial) (by simp [documentFields])
  simp only [documentCodec, hid, hhash, Option.bind_eq_bind, Option.bind_some]

/-! ## Entries -/

section
variable (uuid : Codec Uuid) (date : Codec Date)

/-- mirrors src/entry.rs:78-80 -/
def entryIdCodec : Codec EntryId := uuid.wrapped (fun u => some ⟨u⟩) EntryId.uuid

/-- mirrors src/entry.rs:1057-1103 -/
def entryFields {S : EntryState} (e : Entry H S P) : List (String × Tree) :=
  [("id", (entryIdCodec uuid).write e.id), ("idempotency_key", idempotencyKeyCodec.write e.idempotencyKey),
    ("booking_date", date.write e.bookingDate), ("value_date", date.write e.valueDate),
    ("description", descriptionCodec.write e.description), ("postings", postingCodec.list.write e.postings),
    ("kind", labelCodec.option.write e.kind), ("provenance", provenanceCodec.write e.provenance),
    ("document", documentCodec.option.write e.document), ("reverses", (entryIdCodec uuid).option.write e.reverses),
    ("original_booking_date", date.option.write e.originalBookingDate)]

/-- mirrors src/entry.rs:1085-1103 -/
def serialize {S : EntryState} (e : Entry H S P) : Tree := .record (entryFields uuid date e)

/-- mirrors src/entry.rs:1116-1135 -/
def deserialize (t : Tree) : Option (Entry H .draft P) := do
  let id ← (entryIdCodec uuid).required "id" t
  let idempotencyKey ← idempotencyKeyCodec.required "idempotency_key" t
  let bookingDate ← date.required "booking_date" t
  let valueDate ← date.required "value_date" t
  let description ← descriptionCodec.required "description" t
  let postings ← postingCodec.list.required "postings" t
  let kind ← labelCodec.optional "kind" t
  let provenance ← provenanceCodec.required "provenance" t
  let document ← documentCodec.optional "document" t
  let reverses ← (entryIdCodec uuid).optional "reverses" t
  let originalBookingDate ← date.optional "original_booking_date" t
  some ⟨id, idempotencyKey, bookingDate, valueDate, description, postings, kind, provenance, document, reverses,
    originalBookingDate⟩

end

section
variable {uuid : Codec Uuid} {date : Codec Date}

theorem lossless_entryIdCodec (huuid : uuid.Lossless fun _ => True) : (entryIdCodec uuid).Lossless fun _ => True :=
  huuid.wrapped fun _ _ => ⟨trivial, rfl⟩

/-- **What is written of an entry is read as a draft**, if it is short of the smallest amount. -/
theorem deserialize_serialize (huuid : uuid.Lossless fun _ => True) (hdate : date.Lossless fun _ => True) {S : EntryState}
    {e : Entry H S P} (hamounts : ∀ p ∈ e.postings, p.amount.minor ≠ i64Min) :
    deserialize uuid date (serialize uuid date e) = some (e.withState .draft) := by
  have hnodup : ((entryFields uuid date e).map Prod.fst).Nodup := by simp [entryFields]
  have hid : (entryIdCodec uuid).required "id" (.record (entryFields uuid date e)) = some e.id :=
    Codec.required_record hnodup (lossless_entryIdCodec huuid) trivial (by simp [entryFields])
  have hkey : idempotencyKeyCodec.required "idempotency_key" (.record (entryFields uuid date e)) = some e.idempotencyKey :=
    Codec.required_record hnodup lossless_idempotencyKeyCodec trivial (by simp [entryFields])
  have hbooking : date.required "booking_date" (.record (entryFields uuid date e)) = some e.bookingDate :=
    Codec.required_record hnodup hdate trivial (by simp [entryFields])
  have hvalue : date.required "value_date" (.record (entryFields uuid date e)) = some e.valueDate :=
    Codec.required_record hnodup hdate trivial (by simp [entryFields])
  have hdescription : descriptionCodec.required "description" (.record (entryFields uuid date e)) = some e.description :=
    Codec.required_record hnodup lossless_descriptionCodec trivial (by simp [entryFields])
  have hpostings : postingCodec.list.required "postings" (.record (entryFields uuid date e)) = some e.postings :=
    Codec.required_record hnodup lossless_postingCodec.list hamounts (by simp [entryFields])
  have hkind : labelCodec.optional "kind" (.record (entryFields uuid date e)) = some e.kind :=
    Codec.optional_record hnodup lossless_labelCodec (fun _ _ => trivial) (by simp [entryFields])
  have hprovenance : provenanceCodec.required "provenance" (.record (entryFields uuid date e)) = some e.provenance :=
    Codec.required_record hnodup lossless_provenanceCodec trivial (by simp [entryFields])
  have hdocument : documentCodec.optional "document" (.record (entryFields uuid date e)) = some e.document :=
    Codec.optional_record hnodup lossless_documentCodec (fun _ _ => trivial) (by simp [entryFields])
  have hreverses : (entryIdCodec uuid).optional "reverses" (.record (entryFields uuid date e)) = some e.reverses :=
    Codec.optional_record hnodup (lossless_entryIdCodec huuid) (fun _ _ => trivial) (by simp [entryFields])
  have horiginal : date.optional "original_booking_date" (.record (entryFields uuid date e)) = some e.originalBookingDate :=
    Codec.optional_record hnodup hdate (fun _ _ => trivial) (by simp [entryFields])
  simp only [serialize, deserialize, hid, hkey, hbooking, hvalue, hdescription, hpostings, hkind, hprovenance, hdocument,
    hreverses, horiginal, Option.bind_eq_bind, Option.bind_some]
  rfl

/-- **The round trip.** A sealed entry is read back from the wire as a draft with its identifier
and its canonical bytes; the draft is sealed again where the entry was, and its content hash is
that of the entry wherever it is. -/
theorem wire_round_trip (huuid : uuid.Lossless fun _ => True) (hdate : date.Lossless fun _ => True)
    {draft : Entry H .draft P} {ctx : SealContext} {e : Entry H .balanced P} (hseal : draft.seal ctx = .ok e) :
    ∃ received : Entry H .draft P, deserialize uuid date (serialize uuid date e) = some received ∧ received.id = e.id ∧
      Canonical.encode received = Canonical.encode e ∧ received.seal ctx = .ok e ∧
      ∀ (ctx' : SealContext) (again : Entry H .balanced P), received.seal ctx' = .ok again →
        again.contentHash = e.contentHash := by
  have hpositive := (Entry.sealed_of_seal hseal).positive
  obtain ⟨hvalid, rfl⟩ := Entry.seal_eq_ok.1 hseal
  refine ⟨draft, deserialize_serialize huuid hdate fun p hp => ?_, rfl, rfl, hseal, fun ctx' again hagain => ?_⟩
  · have hp := hpositive p hp
    unfold i64Min
    omega
  · obtain ⟨-, rfl⟩ := Entry.seal_eq_ok.1 hagain
    rfl

end

end

/-! ## Text and pairs -/

/-- How `uuid` writes to formats that people read. -/
def uuidText : Codec Uuid :=
  .text (fun u => String.ofList (hyphenated ⟨u⟩)) fun s => (parseHyphenated s.toList).map EntryId.uuid

/-- `Date::from_ordinal_date` -/
def fromOrdinalDate (year : Int) (ordinal : Nat) : Option Date :=
  ((List.range' 1 12).filterMap fun m => dateOf year m (ordinal - Date.daysBefore year m)).find? fun d => d.ordinal = ordinal

/-- `time` writes the year and the ordinal. -/
def ordinalDate : Codec Date where
  write d := .seq [.int d.year, .int d.ordinal]
  read
    | .seq [.int year, .int ordinal] => if 0 ≤ ordinal then fromOrdinalDate year ordinal.toNat else none
    | _ => none

theorem lossless_uuidText : uuidText.Lossless fun _ => True := .text fun u _ => by
  rw [String.toList_ofList, parseHyphenated_hyphenated, Option.map_some]

theorem dateOf_eq_some {year : Int} {month day : Nat} {d : Date} (h : dateOf year month day = some d) : d.year = year := by
  unfold dateOf at h
  split at h
  · cases h
    rfl
  · cases h

theorem fromOrdinalDate_ordinal (d : Date) : fromOrdinalDate d.year d.ordinal = some d := by
  have hmem : d ∈ (List.range' 1 12).filterMap fun m => dateOf d.year m (d.ordinal - Date.daysBefore d.year m) := by
    obtain ⟨-, -, hm, hm12, -⟩ := d.valid
    refine List.mem_filterMap.2 ⟨d.month, List.mem_range'_1.2 ⟨hm, by omega⟩, ?_⟩
    have hday : d.ordinal - Date.daysBefore d.year d.month = d.day := Nat.add_sub_cancel_left ..
    rw [hday, dateOf_self]
  unfold fromOrdinalDate
  cases h : List.find? (fun x : Date => decide (x.ordinal = d.ordinal)) _ with
  | none => exact absurd (List.find?_eq_none.1 h d hmem) (by simp)
  | some found =>
    obtain ⟨m, -, hm⟩ := List.mem_filterMap.1 (List.mem_of_find?_eq_some h)
    have hordinal : found.ordinal = d.ordinal := by simpa using List.find?_some h
    rw [Date.ordinal_inj (dateOf_eq_some hm) hordinal]

theorem lossless_ordinalDate : ordinalDate.Lossless fun _ => True := fun d _ => by
  simp only [ordinalDate, Int.natCast_nonneg, ↓reduceIte, Int.toNat_natCast, fromOrdinalDate_ordinal]

/-- Not vacuous: identifiers in hex and dates as pairs. -/
theorem quotedSale_received : ∃ (sold : Entry Preimage .balanced cents) (received : Entry Preimage .draft cents),
    deserialize uuidText ordinalDate (serialize uuidText ordinalDate sold) = some received ∧ received.id = sold.id ∧
      Canonical.encode received = Canonical.encode sold := by
  obtain ⟨ctx, hseal⟩ := exists_seal_archivedAs
  obtain ⟨received, hread, hid, hbytes, -⟩ := wire_round_trip lossless_uuidText lossless_ordinalDate (hseal saleOfMarch.id 0)
  exact ⟨(archivedAs saleOfMarch.id 0).entry, received, hread, hid, hbytes⟩

end DoubleEntry.L4
