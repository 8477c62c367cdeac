import DoubleEntry.L3Ledger.EntryEncoding
import DoubleEntry.L3Ledger.VerifyBalanced

/-!
# The balanced entry as a witness

`Entry<Balanced, P>` says that validation ran: at least two postings, positive
amounts, and debits that equal credits in every currency (`Witnessed`). `seal`
gives an entry that is (`witnessed_of_seal`). The other constructor is
`adopt_verified`, which compares a draft with a content hash. It is a witness as
long as the hash is that of a sealed entry (`balanced_is_witness`); but a refused
adoption reports the hash of the draft, and with it any draft is adopted
(`draft_adopted_by_its_own_hash`).

`Caller` is what a user of the API holds, `Request` a call of it, and `api` the
system of all sessions.

**Assumptions.** `EntryCollisionFree`: no two payloads share a hash under the tag of entries.
`Vouched`: the hash handed to `adopt_verified` is that of a sealed entry. A caller calls with
what it holds, and a vector has fewer than `2 ^ 64` elements (`Holds`).

**Results.**
* `Sound.respond`: one call of a session.
* `balanced_is_witness`: every session that adopts what was vouched for.
* `forged`: any other draft can be had as a balanced entry, by at most two adoptions.
-/
namespace DoubleEntry.L3

open DoubleEntry.Core DoubleEntry.L1 DoubleEntry.L2

variable {H : Type} {S : EntryState} {P : Scale}

/-! ## What validation establishes -/

/-- What the postings move on one side in a currency. -/
def currencyTotal (d : Direction) (currency : Currency) (ps : List (Posting P)) : Int :=
  ((ps.filter fun p => p.currency = currency ∧ p.direction = d).map (·.amount.minor)).sum

theorem currencyTotal_concat (d : Direction) (currency : Currency) (ps : List (Posting P)) (p : Posting P) :
    currencyTotal d currency (ps ++ [p]) =
      currencyTotal d currency ps + if p.currency = currency ∧ p.direction = d then p.amount.minor else 0 := by
  unfold currencyTotal
  rw [List.filter_append, List.map_append, List.sum_append]
  by_cases h : p.currency = currency ∧ p.direction = d <;> simp [h]

namespace Entry

/-- The invariants of a balanced entry. -/
structure Witnessed (e : Entry H S P) : Prop where
  two : 2 ≤ e.postings.length
  positive : ∀ p ∈ e.postings, 0 < p.amount.minor
  balanced : ∀ currency, currencyTotal .debit currency e.postings = currencyTotal .credit currency e.postings

/-- The totals of the loop over the postings are those of the postings read so far. -/
structure TallyOf (ps : List (Posting P)) (t : Tally P) : Prop where
  side : ∀ currency d, ((t.totals.get? currency).getD .zero).side d = currencyTotal d currency ps
  row : ∀ p ∈ ps, (t.totals.get? p.currency).isSome

/-- A turn that reports nothing adds the posting to its currency. -/
theorem TallyOf.turn {ctx : SealContext} {bookingDate : Date} {ps : List (Posting P)} {t : Tally P}
    {x : Posting P × Nat} (h : TallyOf ps t) (hx : (tallyPosting ctx bookingDate t x).errors = []) :
    TallyOf (ps ++ [x.1]) (tallyPosting ctx bookingDate t x) := by
  unfold tallyPosting at hx ⊢
  cases hb : ((t.totals.get? x.1.currency).getD .zero).add x.1.direction x.1.amount with
  | error e => simp [hb] at hx
  | ok b =>
    simp only [hb]
    refine ⟨fun currency d => ?_, fun p hp => ?_⟩
    · rw [OrdMap.get?_insert, currencyTotal_concat, ← h.side currency d]
      by_cases hc : x.1.currency = currency
      · subst hc
        simp [Balance.side_add hb]
      · simp [hc]
    · rw [OrdMap.get?_insert]
      by_cases hc : x.1.currency = p.currency
      · simp [hc]
      · rw [if_neg hc]
        rcases List.mem_append.1 hp with hp | hp
        · exact h.row p hp
        · exact absurd (congrArg Posting.currency (List.mem_singleton.1 hp)).symm hc

theorem tallyOf_foldl {ctx : SealContext} {bookingDate : Date} {l : List (Posting P × Nat)}
    (h : (l.foldl (tallyPosting ctx bookingDate) ⟨[], .empty⟩).errors = []) :
    TallyOf (l.map Prod.fst) (l.foldl (tallyPosting ctx bookingDate) ⟨[], .empty⟩) := by
  induction l using List.reverseRecOn with
  | nil => exact ⟨fun currency d => by simp [currencyTotal], fun p hp => by cases hp⟩
  | append_singleton l x ih =>
    rw [List.foldl_concat] at h ⊢
    have hpre : (l.foldl (tallyPosting ctx bookingDate) ⟨[], .empty⟩).errors = [] := by
      refine List.eq_nil_iff_forall_not_mem.2 fun err herr => ?_
      have hmem : err ∈ (tallyPosting ctx bookingDate _ x).errors := mem_errors_tallyPosting (.inl herr)
      rw [h] at hmem
      cases hmem
    rw [List.map_append]
    exact (ih hpre).turn h

/-- The totals balance when the sides of every currency do. -/
theorem TallyOf.unbalancedErrors_eq_nil {ps : List (Posting P)} {t : Tally P} (h : TallyOf ps t) :
    unbalancedErrors t.totals = [] ↔ ∀ currency, currencyTotal .debit currency ps = currencyTotal .credit currency ps := by
  have hrow : ∀ {currency : Currency} {b : Balance P}, t.totals.get? currency = some b →
      (b.isBalanced = true ↔ currencyTotal .debit currency ps = currencyTotal .credit currency ps) := by
    intro currency b hget
    rw [← h.side, ← h.side, hget, Option.getD_some, Balance.isBalanced, decide_eq_true_iff]
    exact ⟨congrArg Amount.minor, Amount.ext⟩
  simp only [unbalancedErrors, List.map_eq_nil_iff, List.filter_eq_nil_iff, Bool.not_eq_true, Bool.not_eq_false']
  constructor
  · intro htotals currency
    cases hget : t.totals.get? currency with
    | none => rw [← h.side, ← h.side, hget, Option.getD_none, Balance.side_zero, Balance.side_zero]
    | some b => exact (hrow hget).1 (htotals (currency, b) (OrdMap.mem_entries.2 hget))
  · exact fun hbalanced e he => (hrow (OrdMap.mem_entries.1 he)).2 (hbalanced e.1)

/-- **Validation balances.** What `seal` returns has at least two postings, positive
amounts, and debits that equal credits in every currency. -/
theorem witnessed_of_seal {e : Entry H .draft P} {ctx : SealContext} {e' : Entry H .balanced P}
    (h : e.seal ctx = .ok e') : Witnessed e' := by
  obtain ⟨hv, rfl⟩ := seal_eq_ok.1 h
  simp only [violations, List.append_eq_nil_iff] at hv
  obtain ⟨⟨⟨⟨-, herrors⟩, htotals⟩, -⟩, -⟩ := hv
  have htally := tallyOf_foldl herrors
  rw [List.zipIdx_map_fst] at htally
  exact ⟨(length_of_seal h).1, (sealed_of_seal h).positive, htally.unbalancedErrors_eq_nil.1 htotals⟩

/-! ## The other calls on entries -/

/-- mirrors src/entry.rs:674-677 -/
def withValueDate (e : Entry H .draft P) (date : Date) : Entry H .draft P := { e with valueDate := date }

/-- mirrors src/entry.rs:681-684 -/
def withDescription (e : Entry H .draft P) (description : Description) : Entry H .draft P :=
  { e with description := description }

/-- mirrors src/entry.rs:696-699 -/
def withKind (e : Entry H .draft P) (kind : Label) : Entry H .draft P := { e with kind := some kind }

/-- mirrors src/entry.rs:703-706 -/
def withProvenance (e : Entry H .draft P) (provenance : Provenance) : Entry H .draft P :=
  { e with provenance := provenance }

/-- mirrors src/entry.rs:710-713 -/
def withDocument (e : Entry H .draft P) (document : DocumentRef H) : Entry H .draft P :=
  { e with document := some document }

/-- mirrors src/entry.rs:717-721 -/
def reversing (e : Entry H .draft P) (original : EntryId) (originalBookingDate : Date) : Entry H .draft P :=
  { e with reverses := some original, originalBookingDate := some originalBookingDate }

end Entry

/-! ## Fields that are checked -/

/-- mirrors src/entry.rs:138-147 -/
def IdempotencyKey.new (bytes : Bytes) : Except EntryFieldError IdempotencyKey :=
  match h : IdempotencyKey.check bytes with
  | .ok () => .ok ⟨bytes, h⟩
  | .error e => .error e

/-- mirrors src/entry.rs:221-230 -/
def Description.new (s : String) : Except EntryFieldError Description :=
  match h : Description.check s with
  | .ok () => .ok ⟨s, h⟩
  | .error e => .error e

@[simp] theorem IdempotencyKey.new_bytes (key : IdempotencyKey) : IdempotencyKey.new key.bytes = .ok key := by
  unfold IdempotencyKey.new
  split
  · rfl
  · rename_i e h
    rw [key.checked] at h
    cases h

@[simp] theorem Description.new_text (d : Description) : Description.new d.text = .ok d := by
  unfold Description.new
  split
  · rfl
  · rename_i e h
    rw [d.checked] at h
    cases h

namespace Provenance

/-- mirrors src/entry.rs:262-265 -/
def withActor (p : Provenance) (actor : String) : Except DimensionError Provenance :=
  (Label.new actor).map fun l => { p with actor := some l }

/-- mirrors src/entry.rs:268-271 -/
def withSource (p : Provenance) (source : String) : Except DimensionError Provenance :=
  (Label.new source).map fun l => { p with source := some l }

/-- mirrors src/entry.rs:274-277 -/
def withCorrelation (p : Provenance) (correlation : String) : Except DimensionError Provenance :=
  (Label.new correlation).map fun l => { p with correlation := some l }

end Provenance

/-- mirrors src/entry.rs:318-323 -/
def DocumentRef.new (id : String) (contentHash : H) : Except DimensionError (DocumentRef H) :=
  (Label.new id).map fun l => ⟨l, some contentHash⟩

/-- mirrors src/entry.rs:334-339 -/
def DocumentRef.unverified (id : String) : Except DimensionError (DocumentRef H) :=
  (Label.new id).map fun l => ⟨l, none⟩

/-- mirrors src/posting.rs:167-176 -/
def Posting.inverted (p : Posting P) : Posting P := { p with direction := p.direction.inverse }

/-- mirrors src/entry.rs:1027-1035 -/
def Entry.reverse (e : Entry H .balanced P) (id : EntryId) (key : IdempotencyKey) (bookingDate : Date) :
    Entry H .draft P :=
  e.postings.foldl (fun draft p => draft.post p.inverted)
    (((Entry.new id key bookingDate).withDescription e.description).reversing e.id e.bookingDate)

theorem Entry.foldl_post (ps : List (Posting P)) (d : Entry H .draft P) :
    ps.foldl (fun draft p => draft.post p.inverted) d = { d with postings := d.postings ++ ps.map (·.inverted) } := by
  induction ps generalizing d with
  | nil => simp
  | cons p ps ih =>
    rw [List.foldl_cons, ih]
    simp [Entry.post]

/-- mirrors src/entry.rs:1041-1046 -/
structure IntegrityError (H : Type) where
  expected : H
  actual : H
  deriving DecidableEq

/-- mirrors src/entry.rs:741-762 -/
def Entry.adoptVerified [Blake3 H] [DecidableEq H] (e : Entry H .draft P) (expected : H) :
    Except (IntegrityError H) (Entry H .balanced P) :=
  if (e.withState .balanced).contentHash = expected then .ok (e.withState .balanced)
  else .error ⟨expected, (e.withState .balanced).contentHash⟩

/-! ## Sessions -/

/-- What a caller holds, and the journal it calls. -/
structure Caller (H : Type) [Blake3 H] (P : Scale) where
  drafts : List (Entry H .draft P)
  balanced : List (Entry H .balanced P)
  hashes : List H
  journal : Journal H P

/-- A call of the public API. -/
inductive Request (H : Type) (P : Scale)
  | new (id : EntryId) (key : IdempotencyKey) (bookingDate : Date)
  | post (e : Entry H .draft P) (posting : Posting P)
  | withValueDate (e : Entry H .draft P) (date : Date)
  | withDescription (e : Entry H .draft P) (description : Description)
  | withKind (e : Entry H .draft P) (kind : Label)
  | withProvenance (e : Entry H .draft P) (provenance : Provenance)
  | withDocument (e : Entry H .draft P) (document : DocumentRef H)
  | reversing (e : Entry H .draft P) (original : EntryId) (originalBookingDate : Date)
  | deserialize (raw : Entry H .draft P)
  | seal (e : Entry H .draft P) (ctx : SealContext)
  | reverse (e : Entry H .balanced P) (id : EntryId) (key : IdempotencyKey) (bookingDate : Date)
  | fromBytes (hash : H)
  | digest (domain payload : Bytes)
  | contentHash (e : Entry H .balanced P)
  | adoptVerified (e : Entry H .draft P) (expected : H)
  | mutate (m : Journal.Mutation H P)
  | read (index : Nat)

/-- What a call hands to the caller. -/
structure Answer (H : Type) (P : Scale) where
  drafts : List (Entry H .draft P) := []
  balanced : List (Entry H .balanced P) := []
  hashes : List H := []

namespace Caller

variable [Blake3 H] [DecidableEq H]

omit [DecidableEq H] in
def start (ledger : LedgerId) (policy : LedgerPolicy) : Caller H P :=
  ⟨[], [], [], (Journal.new ledger).withPolicy policy⟩

/-- The hashes in the outcome of recording a draft. -/
def outcomeHashes (outcome : Except (JournalError H) (Recorded H × Journal H P)) : List H :=
  match outcome with
  | .ok (recorded, _) => [recorded.contentHash]
  | .error (.idempotencyConflict _ stored submitted) => [stored, submitted]
  | .error _ => []

def answer (s : Caller H P) : Request H P → Answer H P
  | .new id key bookingDate => { drafts := [.new id key bookingDate] }
  | .post e posting => { drafts := [e.post posting] }
  | .withValueDate e date => { drafts := [e.withValueDate date] }
  | .withDescription e description => { drafts := [e.withDescription description] }
  | .withKind e kind => { drafts := [e.withKind kind] }
  | .withProvenance e provenance => { drafts := [e.withProvenance provenance] }
  | .withDocument e document => { drafts := [e.withDocument document] }
  | .reversing e original date => { drafts := [e.reversing original date] }
  | .deserialize raw => { drafts := [raw] }
  | .seal e ctx => { balanced := (e.seal ctx).toOption.toList }
  | .reverse e id key bookingDate => { drafts := [e.reverse id key bookingDate] }
  | .fromBytes hash => { hashes := [hash] }
  | .digest domain payload => { hashes := [tagged domain payload] }
  | .contentHash e => { hashes := [e.contentHash] }
  | .adoptVerified e expected =>
    match e.adoptVerified expected with
    | .ok adopted => { balanced := [adopted] }
    | .error err => { hashes := [err.expected, err.actual] }
  | .mutate (.call (.record draft)) => { hashes := outcomeHashes (s.journal.record draft) }
  | .mutate _ => {}
  | .read index => { balanced := (s.journal.at index).toList }

def respond (s : Caller H P) (r : Request H P) : Caller H P where
  drafts := (s.answer r).drafts ++ s.drafts
  balanced := (s.answer r).balanced ++ s.balanced
  hashes := (s.answer r).hashes ++ s.hashes
  journal := match r with
    | .mutate m => s.journal.mutate m
    | _ => s.journal

omit [DecidableEq H] in
/-- The caller holds the arguments, and a vector of postings has fewer than `2 ^ 64`
elements: growing one further panics. -/
def Holds (s : Caller H P) : Request H P → Prop
  | .post e _ => e ∈ s.drafts ∧ e.postings.length + 1 < 2 ^ 64
  | .withValueDate e _ => e ∈ s.drafts
  | .withDescription e _ => e ∈ s.drafts
  | .withKind e _ => e ∈ s.drafts
  | .withProvenance e _ => e ∈ s.drafts
  | .withDocument e _ => e ∈ s.drafts
  | .reversing e _ _ => e ∈ s.drafts
  | .deserialize raw => raw.postings.length < 2 ^ 64
  | .seal e _ => e ∈ s.drafts
  | .reverse e _ _ _ => e ∈ s.balanced
  | .contentHash e => e ∈ s.balanced
  | .adoptVerified e expected => e ∈ s.drafts ∧ expected ∈ s.hashes
  | .mutate (.call (.record draft)) => draft ∈ s.drafts
  | .mutate (.recordValidated e) => e ∈ s.balanced
  | .mutate (.recordBatch entries) => ∀ e ∈ entries, e ∈ s.balanced
  | _ => True

/-- All sessions of a caller with a new journal. -/
def api (ledger : LedgerId) : LTS (Caller H P) (Request H P) where
  init s := ∃ policy, s = start ledger policy
  step s r t := s.Holds r ∧ t = s.respond r

/-! ## Adoption with the hash of a sealed entry -/

omit [DecidableEq H] in
/-- The hash handed to `adopt_verified` is that of an entry `seal` returned. -/
def Vouched (_ : Caller H P) : Request H P → Prop
  | .adoptVerified _ expected => ∃ e : Entry H .balanced P, Journal.FromSeal e ∧ e.contentHash = expected
  | _ => True

/-- What sessions keep: validated entries, in vectors a `usize` counts. -/
structure Sound (s : Caller H P) : Prop where
  drafts : ∀ e ∈ s.drafts, e.postings.length < 2 ^ 64
  balanced : ∀ e ∈ s.balanced, e.Witnessed ∧ e.postings.length < 2 ^ 64
  recorded : ∀ e ∈ s.journal.entries, e.Witnessed ∧ e.postings.length < 2 ^ 64

omit [Blake3 H] [DecidableEq H] in
theorem witnessed_of_fromSeal {e : Entry H .balanced P} (h : Journal.FromSeal e) :
    e.Witnessed ∧ e.postings.length < 2 ^ 64 := by
  obtain ⟨draft, ctx, h⟩ := h
  have hlen := (Entry.length_of_seal h).2
  unfold maxPostings at hlen
  exact ⟨Entry.witnessed_of_seal h, by omega⟩

omit [Blake3 H] [DecidableEq H] in
theorem length_reverse (e : Entry H .balanced P) (id : EntryId) (key : IdempotencyKey) (bookingDate : Date) :
    (e.reverse id key bookingDate).postings.length = e.postings.length := by
  rw [Entry.reverse, Entry.foldl_post]
  simp [Entry.reversing, Entry.withDescription, Entry.new]

/-- A draft with the content hash of a sealed entry has its postings. -/
theorem witnessed_of_adopted (hfree : EntryCollisionFree H) {e : Entry H .draft P} {adopted b : Entry H .balanced P}
    (hlen : e.postings.length < 2 ^ 64) (hb : Journal.FromSeal b) (h : e.adoptVerified b.contentHash = .ok adopted) :
    adopted.Witnessed ∧ adopted.postings.length < 2 ^ 64 := by
  obtain ⟨hwitness, hcount⟩ := witnessed_of_fromSeal hb
  unfold Entry.adoptVerified at h
  split at h
  · rename_i hhash
    cases h
    have hpostings := Entry.postings_of_encode (e := e.withState .balanced) hlen hcount
      (Entry.encode_of_contentHash hfree hhash)
    refine ⟨⟨?_, ?_, ?_⟩, hlen⟩
    · rw [hpostings]
      exact hwitness.two
    · rw [hpostings]
      exact hwitness.positive
    · rw [hpostings]
      exact hwitness.balanced
  · cases h

omit [DecidableEq H] in
theorem Sound.submitted {s : Caller H P} (h : s.Sound) {m : Journal.Mutation H P} (hm : s.Holds (.mutate m)) :
    ∀ e ∈ s.journal.submitted m, e.Witnessed ∧ e.postings.length < 2 ^ 64 := by
  cases m with
  | call k => exact fun e he => witnessed_of_fromSeal (Journal.fromSeal_call s.journal k e he)
  | recordValidated e =>
    intro e' he
    rw [List.mem_singleton.1 he]
    exact h.balanced e hm
  | recordBatch entries => exact fun e he => h.balanced e (hm e he)

/-- A call of the journal hands out hashes only. -/
theorem answer_mutate (s : Caller H P) (m : Journal.Mutation H P) :
    (s.answer (.mutate m)).drafts = [] ∧ (s.answer (.mutate m)).balanced = [] := by
  cases m with
  | call k => cases k <;> exact ⟨rfl, rfl⟩
  | recordValidated e => exact ⟨rfl, rfl⟩
  | recordBatch entries => exact ⟨rfl, rfl⟩

theorem Sound.respond (hfree : EntryCollisionFree H) {s : Caller H P} (h : s.Sound) {r : Request H P} (hr : s.Holds r)
    (hv : s.Vouched r) : (s.respond r).Sound where
  drafts := by
    suffices hnew : ∀ e ∈ (s.answer r).drafts, e.postings.length < 2 ^ 64 from
      fun e he => (List.mem_append.1 he).elim (hnew e) (h.drafts e)
    cases r with
    | post e posting =>
      intro e' he
      rw [List.mem_singleton.1 he]
      simpa [Entry.post] using hr.2
    | deserialize raw =>
      intro e' he
      rw [List.mem_singleton.1 he]
      exact hr
    | reverse e id key bookingDate =>
      intro e' he
      rw [List.mem_singleton.1 he, length_reverse]
      exact (h.balanced e hr).2
    | new id key bookingDate =>
      intro e' he
      rw [List.mem_singleton.1 he]
      exact Nat.two_pow_pos 64
    | withValueDate e _ | withDescription e _ | withKind e _ | withProvenance e _ | withDocument e _ | reversing e _ _ =>
      intro e' he
      rw [List.mem_singleton.1 he]
      exact h.drafts e hr
    | adoptVerified e expected =>
      intro e' he
      simp only [answer] at he
      split at he <;> cases he
    | mutate m =>
      rw [(s.answer_mutate m).1]
      exact fun e he => (List.not_mem_nil he).elim
    | _ => exact fun e he => (List.not_mem_nil he).elim
  balanced := by
    suffices hnew : ∀ e ∈ (s.answer r).balanced, e.Witnessed ∧ e.postings.length < 2 ^ 64 from
      fun e he => (List.mem_append.1 he).elim (hnew e) (h.balanced e)
    cases r with
    | «seal» e ctx =>
      intro e' he
      exact witnessed_of_fromSeal ⟨e, ctx, toOption_eq_some.1 (Option.mem_toList.1 he)⟩
    | adoptVerified e expected =>
      obtain ⟨b, hb, rfl⟩ := hv
      intro e' he
      simp only [answer] at he
      split at he
      · rename_i adopted hadopted
        rw [List.mem_singleton.1 he]
        exact witnessed_of_adopted hfree (h.drafts e hr.1) hb hadopted
      · cases he
    | read index =>
      intro e' he
      exact h.recorded e' (List.mem_of_getElem? (Option.mem_toList.1 he))
    | mutate m =>
      rw [(s.answer_mutate m).2]
      exact fun e he => (List.not_mem_nil he).elim
    | _ => exact fun e he => (List.not_mem_nil he).elim
  recorded := by
    cases r with
    | mutate m =>
      obtain ⟨new, hn, hsub⟩ := s.journal.mutate_entries m
      intro e he
      rw [show (s.respond (.mutate m)).journal.entries = _ from hn] at he
      exact (List.mem_append.1 he).elim (h.recorded e) fun he => h.submitted hr e (hsub.subset he)
    | _ => exact h.recorded

/-- **The witness.** In every session whose adoptions are handed the content hash of a
sealed entry, every balanced entry has at least two postings, positive amounts, and
debits that equal credits in every currency. -/
theorem balanced_is_witness (hfree : EntryCollisionFree H) {ledger : LedgerId} {s : Caller H P}
    (hs : ((api ledger).restrict Vouched).Reachable s) : ∀ e ∈ s.balanced, e.Witnessed := by
  have hsound : s.Sound := by
    refine LTS.Inductive.reachable ⟨fun s h => ?_, fun s r t h st => ?_⟩ hs
    · obtain ⟨policy, rfl⟩ := h
      exact ⟨fun e he => (List.not_mem_nil he).elim, fun e he => (List.not_mem_nil he).elim,
        fun e he => (List.not_mem_nil he).elim⟩
    · obtain ⟨⟨hr, rfl⟩, hv⟩ := LTS.restrict_step.1 st
      exact h.respond hfree hr hv
  exact fun e he => (hsound.balanced e he).1

set_option maxRecDepth 10000 in
theorem exists_seal_saleOfMarch : ∃ ctx sold, saleOfMarch.seal ctx = .ok sold :=
  ⟨(((Journal.new books).withPolicy .permissive).afterAll Journal.marchDefined : Journal Preimage cents).context,
    saleOfMarch.withState .balanced, toOption_eq_some.1 (by decide)⟩

/-- Not vacuous: the sale is sealed, and adopted again by its hash. -/
theorem sale_adopted : ∃ s : Caller Preimage cents, (∃ e, e ∈ s.balanced) ∧ ∀ e ∈ s.balanced, e.Witnessed := by
  obtain ⟨ctx, sold, hseal⟩ := exists_seal_saleOfMarch
  obtain ⟨s, hs⟩ : ∃ s : Caller Preimage cents, s = start books .permissive := ⟨_, rfl⟩
  let s₁ := s.respond (.deserialize saleOfMarch)
  let s₂ := s₁.respond (.seal saleOfMarch ctx)
  let s₃ := s₂.respond (.contentHash sold)
  let s₄ := s₃.respond (.adoptVerified saleOfMarch sold.contentHash)
  have hdraft : saleOfMarch ∈ s₁.drafts := List.mem_append_left _ List.mem_cons_self
  have hsealed : sold ∈ s₂.balanced := List.mem_append_left _ (Option.mem_toList.2 (toOption_eq_some.2 hseal))
  have hhash : sold.contentHash ∈ s₃.hashes := List.mem_append_left _ List.mem_cons_self
  have hdraft₃ : saleOfMarch ∈ s₃.drafts := List.mem_append_right _ (List.mem_append_right _ hdraft)
  have hrun : ((api books).restrict Vouched).Run s
      [.deserialize saleOfMarch, .seal saleOfMarch ctx, .contentHash sold, .adoptVerified saleOfMarch sold.contentHash] s₄ :=
    .cons ⟨⟨show 2 < 2 ^ 64 by decide, rfl⟩, trivial⟩ <| .cons ⟨⟨hdraft, rfl⟩, trivial⟩ <|
      .cons ⟨⟨hsealed, rfl⟩, trivial⟩ <| .cons ⟨⟨⟨hdraft₃, hhash⟩, rfl⟩, _, ⟨_, _, hseal⟩, rfl⟩ (.nil _)
  exact ⟨s₄, ⟨sold, List.mem_append_right _ (List.mem_append_right _ hsealed)⟩,
    balanced_is_witness entryCollisionFree_preimage ⟨_, _, ⟨_, hs⟩, hrun⟩⟩

/-! ## Adoption with the hash of a refused one -/

/-- A draft is adopted by its own hash, and any other hash is answered with it. -/
theorem adoptVerified_cases (e : Entry H .draft P) (expected : H) :
    e.adoptVerified expected = .ok (e.withState .balanced) ∨
    ∃ actual, e.adoptVerified expected = .error ⟨expected, actual⟩ ∧
      e.adoptVerified actual = .ok (e.withState .balanced) := by
  unfold Entry.adoptVerified
  by_cases h : (e.withState .balanced).contentHash = expected
  · exact .inl (if_pos h)
  · exact .inr ⟨_, if_neg h, if_pos rfl⟩

/-- Whatever a caller holds as a draft, it can hold as a balanced entry: at most two
adoptions, with a hash of its choice and the one reported back. -/
theorem forged {ledger : LedgerId} {s : Caller H P} {e : Entry H .draft P} (he : e ∈ s.drafts) :
    ∃ rs t, (api ledger).Run s rs t ∧ e.withState .balanced ∈ t.balanced := by
  let s₁ := s.respond (.digest [] [])
  have hdigest : (api ledger).Run s [.digest [] []] s₁ := .single ⟨trivial, rfl⟩
  have hguess : s₁.Holds (.adoptVerified e (tagged [] [])) := ⟨he, List.mem_cons_self⟩
  let s₂ := s₁.respond (.adoptVerified e (tagged [] []))
  have htry : (api ledger).Run s₁ [.adoptVerified e (tagged [] [])] s₂ := .single ⟨hguess, rfl⟩
  rcases adoptVerified_cases e (tagged [] []) with h | ⟨actual, h, hown⟩
  · refine ⟨_, s₂, hdigest.append htry, List.mem_append_left _ ?_⟩
    simp [answer, h]
  · have hlearnt : actual ∈ s₂.hashes := by
      refine List.mem_append_left _ ?_
      simp [answer, h]
    have hheld : e ∈ s₂.drafts := List.mem_append_right _ (List.mem_append_right _ he)
    have hretry : (api ledger).Run s₂ [.adoptVerified e actual] (s₂.respond (.adoptVerified e actual)) :=
      .single ⟨⟨hheld, hlearnt⟩, rfl⟩
    refine ⟨_, _, hdigest.append (htry.append hretry), List.mem_append_left _ ?_⟩
    simp [answer, hown]

/-- Ten euro debited, and nothing credited. -/
def halfSale : Entry Preimage .draft cents :=
  (Entry.new ⟨⟨1, by decide⟩⟩ ⟨[1], rfl⟩ march.end).post (.debit cashId tenEuro .eur)

/-- **A draft adopted by its own hash.** A session whose hashes are all answers of the
API holds a balanced entry with a single posting. -/
theorem draft_adopted_by_its_own_hash : ¬ ∀ s : Caller Preimage cents, (api books).Reachable s →
    ∀ e ∈ s.balanced, e.Witnessed := by
  intro hall
  let s : Caller Preimage cents := (start books .permissive).respond (.deserialize halfSale)
  have hdraft : (api books).Run (start books .permissive) [.deserialize halfSale] s :=
    .single ⟨show 1 < 2 ^ 64 by decide, rfl⟩
  obtain ⟨rs, t, hrun, hmem⟩ := @forged _ _ _ _ books s halfSale List.mem_cons_self
  have htwo : 2 ≤ 1 := (hall t ⟨_, _, ⟨_, rfl⟩, hdraft.append hrun⟩ _ hmem).two
  omega

end Caller

end DoubleEntry.L3
