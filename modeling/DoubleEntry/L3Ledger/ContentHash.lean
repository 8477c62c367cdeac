import DoubleEntry.L2Merkle.Proofs
import DoubleEntry.L3Ledger.Typestate

/-!
# What a content hash commits to

`Content` is an entry without its identifier, at a scale of its own, so that entries
of different scales can be compared. Entries of any scales and type states have the
same canonical bytes exactly when they have the same content (`encode_eq_iff`), and
then the same hash; a draft is adopted by the hash of an entry exactly when it has its
content (`contentHash_binds`).

**Assumptions.** `Binding`: no two payloads share a digest under a tag. Entries have fewer than
`2 ^ 64` postings, which is what the encoding counts them with.

**Results.**
* `scale_of_encode`: entries of two scales never have the same bytes.
* `encode_eq_iff`, `contentHash_binds`: bytes, hashes and adoption, each exactly when the
  content is the same.
-/
namespace DoubleEntry.L3

open DoubleEntry.Core DoubleEntry.L1 DoubleEntry.L2

variable {H : Type} {S T : EntryState} {P Q : Scale}

/-- Every field of an entry but its identifier, and its scale. -/
structure Content (H : Type) where
  scale : Scale
  idempotencyKey : IdempotencyKey
  bookingDate : Date
  valueDate : Date
  description : Description
  postings : List (Posting scale)
  kind : Option Label
  provenance : Provenance
  document : Option (DocumentRef H)
  reverses : Option EntryId
  originalBookingDate : Option Date

namespace Entry

def content (e : Entry H S P) : Content H where
  scale := P
  idempotencyKey := e.idempotencyKey
  bookingDate := e.bookingDate
  valueDate := e.valueDate
  description := e.description
  postings := e.postings
  kind := e.kind
  provenance := e.provenance
  document := e.document
  reverses := e.reverses
  originalBookingDate := e.originalBookingDate

@[simp] theorem content_withState (e : Entry H S P) (T : EntryState) : (e.withState T).content = e.content := rfl

variable [Blake3 H]

@[simp] theorem encode_withState (e : Entry H S P) (T : EntryState) :
    Canonical.encode (e.withState T) = Canonical.encode e := rfl

theorem scale_of_encode {e : Entry H S P} {e' : Entry H T Q} (h : Canonical.encode e = Canonical.encode e') : P = Q := by
  simp only [encode_eq, List.append_assoc] at h
  have hP : P.val < 256 := by omega
  have hQ : Q.val < 256 := by omega
  obtain ⟨hscale, -⟩ := selfDelimiting_writeU8 _ _ _ _ hP hQ h
  exact Fin.ext hscale

/-- **The bytes are those of the content**, and the content is read off the bytes. -/
theorem encode_eq_iff (hbytes : SelfDelimiting (fun _ => True) (Blake3.asBytes : H → Bytes)) {e : Entry H S P}
    {e' : Entry H T Q} (hlen : e.postings.length < 2 ^ 64) (hlen' : e'.postings.length < 2 ^ 64) :
    Canonical.encode e = Canonical.encode e' ↔ e.content = e'.content := by
  constructor
  · intro h
    obtain rfl := scale_of_encode h
    have heq : e' = { e.withState T with id := e'.id } := eq_of_encode (e := e.withState T) hbytes hlen hlen' h
    rw [heq]
    rfl
  · intro h
    have hscale : P = Q := congrArg Content.scale h
    subst hscale
    simp only [content, Content.mk.injEq, heq_eq_eq, true_and] at h
    obtain ⟨hkey, hbooking, hvalue, hdescription, hpostings, hkind, hprovenance, hdocument, hreverses, horiginal⟩ := h
    simp only [encode_eq, hkey, hbooking, hvalue, hdescription, hpostings, hkind, hprovenance, hdocument, hreverses,
      horiginal]

theorem digest_eq_iff (hb : Binding H) {e : Entry H S P} {e' : Entry H T Q} (hlen : e.postings.length < 2 ^ 64)
    (hlen' : e'.postings.length < 2 ^ 64) : e.digest = e'.digest ↔ e.content = e'.content := by
  rw [← encode_eq_iff hb.bytes hlen hlen']
  constructor
  · exact hb.tagged _ _ _
  · intro h
    unfold digest
    rw [h]

variable [DecidableEq H]

/-- The only hash that adopts a draft is its own. -/
theorem adoptVerified_eq_ok {e : Entry H .draft P} {expected : H} {adopted : Entry H .balanced P} :
    e.adoptVerified expected = .ok adopted ↔ e.digest = expected ∧ adopted = e.withState .balanced := by
  have hown : (e.withState .balanced).contentHash = e.digest := rfl
  unfold adoptVerified
  rw [hown]
  by_cases h : e.digest = expected
  · simp [h, eq_comm]
  · simp [h]

/-- **A content hash commits to the content.** Entries of any scales with the same bytes
agree in every field but the identifier; content hashes are equal exactly for entries of
equal content; and the hash of an entry adopts exactly the drafts of its content. -/
theorem contentHash_binds (hb : Binding H) :
    (∀ {S T : EntryState} {P Q : Scale} (e : Entry H S P) (e' : Entry H T Q), e.postings.length < 2 ^ 64 →
      e'.postings.length < 2 ^ 64 → Canonical.encode e = Canonical.encode e' → e.content = e'.content) ∧
    (∀ {P Q : Scale} (e : Entry H .balanced P) (e' : Entry H .balanced Q), e.postings.length < 2 ^ 64 →
      e'.postings.length < 2 ^ 64 → (e.contentHash = e'.contentHash ↔ e.content = e'.content)) ∧
    ∀ {S : EntryState} {P Q : Scale} (e : Entry H .draft P) (hashed : Entry H S Q) (adopted : Entry H .balanced P),
      e.postings.length < 2 ^ 64 → hashed.postings.length < 2 ^ 64 →
      (e.adoptVerified hashed.digest = .ok adopted ↔
        e.content = hashed.content ∧ adopted = e.withState .balanced) := by
  refine ⟨fun e e' hlen hlen' h => (encode_eq_iff hb.bytes hlen hlen').1 h,
    fun e e' hlen hlen' => digest_eq_iff hb hlen hlen', fun e hashed adopted hlen hlen' => ?_⟩
  rw [adoptVerified_eq_ok, digest_eq_iff hb hlen hlen']

/-- A draft without postings. -/
def blank (P : Scale) : Entry Framed .draft P := .new saleOfMarch.id saleOfMarch.idempotencyKey march.end

/-- The correction of an invoice, with a cost centre and every other field. -/
def invoice (P : Scale) (centre : Label) : Entry Framed .draft P :=
  { blank P with
    description := ⟨"Invoice 17, corrected", rfl⟩
    postings :=
      [{ Posting.debit salesId ⟨tenEuro.minor, tenEuro.fits⟩ .eur with
          dimensions := (Dimensions.fromPairs [(⟨"centre", rfl⟩, centre)]).toOption.getD .none },
        .credit cashId ⟨tenEuro.minor, tenEuro.fits⟩ .eur]
    kind := some ⟨"correction", rfl⟩
    provenance := ⟨some ⟨"clerk", rfl⟩, none, some ⟨"order 17", rfl⟩⟩
    document := some ⟨⟨"scan 17", rfl⟩, some ⟨[1]⟩⟩
    reverses := some saleOfApril.id
    originalBookingDate := some march.start }

def north : Label := ⟨"north", rfl⟩
def south : Label := ⟨"south", rfl⟩

/-- Not vacuous: at another scale the invoice has another hash, and so it has with another cost
centre; under another identifier it has the same one. -/
theorem invoice_hashes : (invoice 2 north).digest ≠ (invoice 3 north).digest ∧
    ((invoice 2 north).withState .balanced).contentHash ≠ ((invoice 2 south).withState .balanced).contentHash ∧
    (∃ adopted, ({ invoice 2 north with id := nextSale.id } : Entry Framed .draft 2).adoptVerified (invoice 2 north).digest =
      .ok adopted) ∧
    ∀ adopted, (invoice 2 south).adoptVerified (invoice 2 north).digest ≠ .ok adopted := by
  have hlen : ∀ (P : Scale) (centre : Label), (invoice P centre).postings.length < 2 ^ 64 := fun _ _ => by
    show 2 < 2 ^ 64
    decide
  have hcentre : (invoice 2 north).content ≠ (invoice 2 south).content := fun h => by
    have hdimensions := congrArg (fun c : Content Framed => c.postings.map (·.dimensions)) h
    exact absurd hdimensions (by decide)
  obtain ⟨hbytes, hhash, hadopt⟩ := contentHash_binds binding_framed
  have hagain := (hadopt { invoice 2 north with id := nextSale.id } (invoice 2 north) _ (hlen 2 north) (hlen 2 north)).2
    ⟨rfl, rfl⟩
  refine ⟨fun h => ?_, fun h => ?_, ⟨_, hagain⟩, fun adopted h => ?_⟩
  · have hcontent := hbytes (invoice 2 north) (invoice 3 north) (hlen 2 north) (hlen 3 north) (binding_framed.tagged _ _ _ h)
    have hscale : (2 : Scale) = 3 := congrArg Content.scale hcontent
    exact absurd hscale (by decide)
  · exact hcentre ((hhash ((invoice 2 north).withState .balanced) ((invoice 2 south).withState .balanced)
      (hlen 2 north) (hlen 2 south)).1 h)
  · exact hcentre ((hadopt (invoice 2 south) (invoice 2 north) adopted (hlen 2 south) (hlen 2 north)).1 h).1.symm

end Entry

end DoubleEntry.L3
