import DoubleEntry.L1Values.Encoding
import DoubleEntry.L3Ledger.Entry

/-!
# What an entry's canonical bytes determine

Two entries with the same canonical bytes have the same postings
(`Entry.postings_of_encode`), and when the bytes of a digest are self-delimiting
they differ in their identifier at most (`Entry.eq_of_encode`): the identifier is
the one field that `encode` leaves out.

**Assumptions.** Lists and texts that a `u64` can count, and bytes of a digest that can be told
from what follows. `EntryCollisionFree` is what the hash of an entry needs besides, and
`Preimage` has it (`entryCollisionFree_preimage`).

**Results.**
* `selfDelimiting_posting`, `selfDelimiting_provenance`, `selfDelimiting_document`: the parts.
* `encode_cut`: the fields in front of the document, and the bytes from there.
* `Entry.encode_of_contentHash`: equal hashes are of equal bytes.
-/
namespace DoubleEntry.L3

open DoubleEntry.Core DoubleEntry.L1

variable {H : Type} {S : EntryState} {P : Scale}

/-! ## Fields -/

theorem Direction.discriminant_injective {a b : Direction} (h : a.discriminant = b.discriminant) : a = b := by
  cases a <;> cases b <;> first | rfl | cases h

theorem Layer.discriminant_injective {a b : Layer} (h : a.discriminant = b.discriminant) : a = b := by
  cases a <;> cases b <;> first | rfl | cases h

theorem Direction.discriminant_lt (d : Direction) : d.discriminant < 256 := by cases d <;> decide

theorem Layer.discriminant_lt (l : Layer) : l.discriminant < 256 := by cases l <;> decide

theorem selfDelimiting_posting : SelfDelimiting (fun _ => True) (Canonical.encode : Posting P → Bytes) := by
  intro a b x y _ _ h
  simp only [Canonical.encode, List.append_assoc] at h
  obtain ⟨haccount, h⟩ := selfDelimiting_leBytes 4 _ _ _ _ a.account.fits b.account.fits h
  obtain ⟨hdirection, h⟩ := selfDelimiting_writeU8 _ _ _ _ a.direction.discriminant_lt b.direction.discriminant_lt h
  obtain ⟨hamount, h⟩ := selfDelimiting_writeI64 _ _ _ _ a.amount.fits b.amount.fits h
  obtain ⟨hcurrency, h⟩ := selfDelimiting_currency _ _ _ _ trivial trivial h
  obtain ⟨hlayer, h⟩ := selfDelimiting_writeU8 _ _ _ _ a.layer.discriminant_lt b.layer.discriminant_lt h
  obtain ⟨hdimensions, hxy⟩ := selfDelimiting_dimensions a.dimensions b.dimensions _ _ trivial trivial h
  refine ⟨?_, hxy⟩
  cases a
  cases b
  simp only [Posting.mk.injEq]
  exact ⟨AccountId.ext haccount, Direction.discriminant_injective hdirection, Amount.ext hamount, hcurrency,
    Layer.discriminant_injective hlayer, hdimensions⟩

theorem selfDelimiting_date : SelfDelimiting (fun _ => True) encodeDate := by
  intro a b x y _ _ h
  obtain ⟨hly, hyu, -, hm, -, hd⟩ := a.valid
  obtain ⟨hly', hyu', -, hm', -, hd'⟩ := b.valid
  have ha := daysInMonth_le a.year a.month
  have hb := daysInMonth_le b.year b.month
  simp only [encodeDate, List.append_assoc] at h
  obtain ⟨hyear, h⟩ := selfDelimiting_writeI32 _ _ _ _ (by omega) (by omega) h
  obtain ⟨hmonth, h⟩ := selfDelimiting_writeU8 _ _ _ _ (by omega) (by omega) h
  obtain ⟨hday, hxy⟩ := selfDelimiting_writeU8 _ _ _ _ (by omega) (by omega) h
  refine ⟨?_, hxy⟩
  cases a
  cases b
  simp only [Date.mk.injEq]
  exact ⟨hyear, hmonth, hday⟩

theorem selfDelimiting_provenance : SelfDelimiting (fun _ => True) (Canonical.encode : Provenance → Bytes) := by
  have hlabel := selfDelimiting_writeOption selfDelimiting_label
  intro a b x y _ _ h
  simp only [Canonical.encode, List.append_assoc] at h
  obtain ⟨hactor, h⟩ := hlabel a.actor b.actor _ _ (fun _ _ => trivial) (fun _ _ => trivial) h
  obtain ⟨hsource, h⟩ := hlabel a.source b.source _ _ (fun _ _ => trivial) (fun _ _ => trivial) h
  obtain ⟨hcorrelation, hxy⟩ := hlabel a.correlation b.correlation _ _ (fun _ _ => trivial) (fun _ _ => trivial) h
  refine ⟨?_, hxy⟩
  cases a
  cases b
  simp only [Provenance.mk.injEq]
  exact ⟨hactor, hsource, hcorrelation⟩

theorem selfDelimiting_document [Blake3 H] (hbytes : SelfDelimiting (fun _ => True) (Blake3.asBytes : H → Bytes)) :
    SelfDelimiting (fun _ => True) (Canonical.encode : DocumentRef H → Bytes) := by
  intro a b x y _ _ h
  simp only [Canonical.encode, List.append_assoc] at h
  obtain ⟨hid, h⟩ := selfDelimiting_label a.id b.id _ _ trivial trivial h
  obtain ⟨hhash, hxy⟩ := selfDelimiting_writeOption hbytes _ _ _ _ (fun _ _ => trivial) (fun _ _ => trivial) h
  refine ⟨?_, hxy⟩
  cases a
  cases b
  simp only [DocumentRef.mk.injEq]
  exact ⟨hid, hhash⟩

theorem selfDelimiting_uuid : SelfDelimiting (fun _ => True) Uuid.asBytes := by
  have hlen : ∀ u : Uuid, u.asBytes.length = 16 := fun u => by simp [Uuid.asBytes, length_leBytes]
  refine .ofWidth hlen fun a b _ _ h => ?_
  have hvalue := leBytes_injective (w := 16) a.fits b.fits (List.reverse_injective h)
  cases a
  cases b
  simpa using hvalue

theorem IdempotencyKey.ext {a b : IdempotencyKey} (h : a.bytes = b.bytes) : a = b := by
  cases a
  cases b
  congr

theorem Description.ext {a b : Description} (h : a.text = b.text) : a = b := by
  cases a
  cases b
  congr

theorem IdempotencyKey.length_le (k : IdempotencyKey) : k.bytes.length ≤ maxIdempotencyKeyLen := by
  have h := k.checked
  unfold IdempotencyKey.check at h
  split at h
  · cases h
  · split at h
    · cases h
    · omega

theorem Description.length_utf8_lt (d : Description) : (utf8 d.text).length < 2 ^ 64 := by
  have hle : d.text.toList.length ≤ maxDescriptionLen := by
    have h := d.checked
    unfold Description.check at h
    split at h
    · cases h
    · omega
  have hbytes := length_utf8_le d.text
  unfold maxDescriptionLen at hle
  omega

namespace Entry

/-! ## Entries -/

theorem encode_eq [Blake3 H] (e : Entry H S P) : Canonical.encode e =
    writeU8 P.val ++ writeBytes e.idempotencyKey.bytes ++ encodeDate e.bookingDate ++ encodeDate e.valueDate ++
    writeStr e.description.text ++ writeSeq Canonical.encode e.postings ++ writeOption Canonical.encode e.kind ++
    Canonical.encode e.provenance ++ writeOption Canonical.encode e.document ++
    writeOption (fun id => id.uuid.asBytes) e.reverses ++ writeOption encodeDate e.originalBookingDate := rfl

/-- The fields before the document, and the bytes from there. -/
theorem encode_cut [Blake3 H] {e e' : Entry H S P} (hlen : e.postings.length < 2 ^ 64)
    (hlen' : e'.postings.length < 2 ^ 64) (h : Canonical.encode e = Canonical.encode e') :
    (e.idempotencyKey = e'.idempotencyKey ∧ e.bookingDate = e'.bookingDate ∧ e.valueDate = e'.valueDate ∧
      e.description = e'.description ∧ e.postings = e'.postings ∧ e.kind = e'.kind ∧
      e.provenance = e'.provenance) ∧
    writeOption Canonical.encode e.document ++ (writeOption (fun id => id.uuid.asBytes) e.reverses ++
        writeOption encodeDate e.originalBookingDate) =
      writeOption Canonical.encode e'.document ++ (writeOption (fun id => id.uuid.asBytes) e'.reverses ++
        writeOption encodeDate e'.originalBookingDate) := by
  have hkeys : ∀ k : IdempotencyKey, k.bytes.length < 2 ^ 64 := fun k => by
    have hle := k.length_le
    unfold maxIdempotencyKeyLen at hle
    omega
  simp only [encode_eq, List.append_assoc] at h
  have h := List.append_cancel_left h
  obtain ⟨hkey, h⟩ := selfDelimiting_writeBytes _ _ _ _ (hkeys _) (hkeys _) h
  obtain ⟨hbooking, h⟩ := selfDelimiting_date _ _ _ _ trivial trivial h
  obtain ⟨hvalue, h⟩ := selfDelimiting_date _ _ _ _ trivial trivial h
  obtain ⟨htext, h⟩ := selfDelimiting_writeStr _ _ _ _ e.description.length_utf8_lt e'.description.length_utf8_lt h
  obtain ⟨hpostings, h⟩ := selfDelimiting_writeSeq selfDelimiting_posting _ _ _ _ ⟨hlen, fun _ _ => trivial⟩
    ⟨hlen', fun _ _ => trivial⟩ h
  obtain ⟨hkind, h⟩ := selfDelimiting_writeOption selfDelimiting_label e.kind e'.kind _ _ (fun _ _ => trivial)
    (fun _ _ => trivial) h
  obtain ⟨hprovenance, h⟩ := selfDelimiting_provenance e.provenance e'.provenance _ _ trivial trivial h
  exact ⟨⟨IdempotencyKey.ext hkey, hbooking, hvalue, Description.ext htext, hpostings, hkind, hprovenance⟩, h⟩

theorem postings_of_encode [Blake3 H] {e e' : Entry H S P} (hlen : e.postings.length < 2 ^ 64)
    (hlen' : e'.postings.length < 2 ^ 64) (h : Canonical.encode e = Canonical.encode e') :
    e.postings = e'.postings := by
  obtain ⟨⟨-, -, -, -, hpostings, -, -⟩, -⟩ := encode_cut hlen hlen' h
  exact hpostings

/-- **The encoding binds the content.** Entries with the same canonical bytes
differ in their identifier at most. -/
theorem eq_of_encode [Blake3 H] (hbytes : SelfDelimiting (fun _ => True) (Blake3.asBytes : H → Bytes))
    {e e' : Entry H S P} (hlen : e.postings.length < 2 ^ 64) (hlen' : e'.postings.length < 2 ^ 64)
    (h : Canonical.encode e = Canonical.encode e') : e' = { e with id := e'.id } := by
  obtain ⟨⟨hkey, hbooking, hvalue, hdescription, hpostings, hkind, hprovenance⟩, h⟩ := encode_cut hlen hlen' h
  obtain ⟨hdocument, h⟩ := selfDelimiting_writeOption (selfDelimiting_document hbytes) _ _ _ _ (fun _ _ => trivial)
    (fun _ _ => trivial) h
  have huuid : SelfDelimiting (fun _ => True) fun id : EntryId => id.uuid.asBytes := by
    refine selfDelimiting_uuid.comp (k := EntryId.uuid) (fun _ _ => trivial) fun a b h => ?_
    cases a
    cases b
    exact congrArg EntryId.mk h
  obtain ⟨hreverses, h⟩ := selfDelimiting_writeOption huuid _ _ _ _ (fun _ _ => trivial) (fun _ _ => trivial) h
  obtain ⟨horiginal, -⟩ := selfDelimiting_writeOption selfDelimiting_date _ _ [] [] (fun _ _ => trivial)
    (fun _ _ => trivial) (by simpa using h)
  cases e
  cases e'
  simp only [Entry.mk.injEq]
  exact ⟨trivial, hkey.symm, hbooking.symm, hvalue.symm, hdescription.symm, hpostings.symm, hkind.symm, hprovenance.symm,
    hdocument.symm, hreverses.symm, horiginal.symm⟩

end Entry

/-! ## Content hashes -/

/-- No two payloads share a hash under the entry tag. -/
def EntryCollisionFree (H : Type) [Blake3 H] : Prop :=
  ∀ a b : Bytes, (tagged Tag.entryV1 a : H) = tagged Tag.entryV1 b → a = b

theorem Entry.encode_of_contentHash [Blake3 H] (hfree : EntryCollisionFree H) {e e' : Entry H .balanced P}
    (h : e.contentHash = e'.contentHash) : Canonical.encode e = Canonical.encode e' := hfree _ _ h

/-- A digest that is its preimage has no collisions. -/
theorem entryCollisionFree_preimage : EntryCollisionFree Preimage := fun _ _ h =>
  List.append_cancel_left (congrArg Preimage.bytes h)

end DoubleEntry.L3
