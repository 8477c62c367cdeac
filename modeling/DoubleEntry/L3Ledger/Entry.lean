import DoubleEntry.L3Ledger.Account
import DoubleEntry.L3Ledger.Period

/-!
# Entries and their validation

An entry is a draft or a balanced entry; the state is a type parameter and the
fields are the same. `Entry.seal` collects every violation
against the accounts, the calendar and the policy of a context, and returns the
entry as balanced when there is none. `Sealed ctx e` is what the rest of the
ledger relies on: the dates and postings `e` was checked for
(`sealed_of_seal`).

`seal` counts the postings, then goes through them once, in order: what is wrong with one by
itself (`postingErrors`), and the gross totals per currency (`Tally`). A total that overflows is
an error and stays as it was. Then come the balance of each currency, the period and the
value date.

**Results.**
* `mem_errors_foldl`: the loop over the postings drops no error.
* `postingErrors_of_seal`, `length_of_seal`, `sealed_of_seal`: what a sealed entry was checked
  for. Exactly which drafts are sealed is in `SealingEntries`.
-/
namespace DoubleEntry.L3

open DoubleEntry.Core DoubleEntry.L1 DoubleEntry.L2

/-! ## Identifiers and bounded fields -/

structure Uuid where
  value : Nat
  fits : value < 2 ^ 128

instance : LinearOrder Uuid := LinearOrder.lift' Uuid.value fun ⟨_, _⟩ ⟨_, _⟩ h => by cases h; rfl

/-- The sixteen bytes, most significant first. -/
def Uuid.asBytes (u : Uuid) : Bytes := (leBytes 16 u.value).reverse

/-- mirrors src/entry.rs:80 -/
structure EntryId where
  uuid : Uuid

instance : LinearOrder EntryId := LinearOrder.lift' EntryId.uuid fun ⟨_⟩ ⟨_⟩ h => congrArg _ h

/-- mirrors src/entry.rs:34,38,53 -/
def maxDescriptionLen : Nat := 512
def maxIdempotencyKeyLen : Nat := 128
def maxPostings : Nat := 32767

/-- mirrors src/entry.rs:348-364 -/
inductive EntryFieldError
  | emptyIdempotencyKey
  | idempotencyKeyTooLong
  | descriptionTooLong
  | descriptionControlCharacter
  deriving DecidableEq, Repr

/-- mirrors src/entry.rs:142-151 -/
def IdempotencyKey.check (bytes : Bytes) : Except EntryFieldError Unit :=
  if bytes.isEmpty then .error .emptyIdempotencyKey
  else if maxIdempotencyKeyLen < bytes.length then .error .idempotencyKeyTooLong
  else .ok ()

/-- mirrors src/entry.rs:118 -/
structure IdempotencyKey where
  bytes : Bytes
  checked : IdempotencyKey.check bytes = .ok ()

/-- Byte order, as `Vec<u8>` compares. -/
instance : LinearOrder IdempotencyKey :=
  LinearOrder.lift' (fun k => k.bytes.map UInt8.toNat) fun ⟨a, _⟩ ⟨b, _⟩ h => by
    cases List.map_injective_iff.2 (fun _ _ e => UInt8.toNat_inj.1 e) h
    rfl

/-- mirrors src/entry.rs:218-227 -/
def Description.check (s : String) : Except EntryFieldError Unit :=
  if maxDescriptionLen < s.toList.length then .error .descriptionTooLong
  else if s.toList.any fun c => isControl c && c ≠ '\n' then .error .descriptionControlCharacter
  else .ok ()

/-- mirrors src/entry.rs:215 -/
structure Description where
  text : String
  checked : Description.check text = .ok ()
  deriving DecidableEq

/-- `Description::default` -/
def Description.empty : Description := ⟨"", rfl⟩

/-- mirrors src/entry.rs:242-249 -/
structure Provenance where
  actor : Option Label
  source : Option Label
  correlation : Option Label
  deriving DecidableEq

/-- mirrors src/entry.rs:257-259 -/
def Provenance.none : Provenance := ⟨Option.none, Option.none, Option.none⟩

/-- mirrors src/entry.rs:277-283 -/
instance : Canonical Provenance :=
  ⟨fun p => writeOption Canonical.encode p.actor ++ writeOption Canonical.encode p.source ++
    writeOption Canonical.encode p.correlation⟩

/-- mirrors src/entry.rs:302-307 -/
structure DocumentRef (H : Type) where
  id : Label
  contentHash : Option H
  deriving DecidableEq

/-- mirrors src/entry.rs:337-344 -/
instance {H : Type} [Blake3 H] : Canonical (DocumentRef H) :=
  ⟨fun d => Canonical.encode d.id ++ writeOption Blake3.asBytes d.contentHash⟩

/-! ## Policy and context -/

/-- mirrors src/entry.rs:380-386 -/
inductive CurrencyPolicy
  | multi
  | single (currency : Currency)

/-- mirrors src/entry.rs:381-397 -/
structure LedgerPolicy where
  currency : CurrencyPolicy
  requiredDimensions : List Label
  maxValueDateDriftDays : Option Int

/-- `LedgerPolicy::default` -/
def LedgerPolicy.permissive : LedgerPolicy := ⟨.multi, [], none⟩

/-- mirrors src/entry.rs:443-450 -/
structure SealContext where
  accounts : AccountRegistry
  calendar : PeriodCalendar
  policy : LedgerPolicy

/-- mirrors src/entry.rs:444-564 -/
inductive ValidationError where
  | tooFewPostings (count : Nat)
  | tooManyPostings (count : Nat)
  | zeroAmount (index : Nat)
  | negativeAmount (index : Nat)
  | unknownAccount (index : Nat) (account : AccountId)
  | nonLeafAccount (index : Nat) (account : AccountId)
  | accountNotOpen (index : Nat) (account : AccountId) (on : Date)
  | unbalanced (currency : Currency) (debitsMinor creditsMinor differenceMinor : Int) (scale : Nat)
  | closedPeriod (on : Date) (state : PeriodState)
  | currencyNotAllowed (currency : Currency)
  | missingDimension (index : Nat) (axis : Label)
  | valueDateDrift (booking value : Date) (maxDays : Int)
  | overflow (currency : Currency)
  deriving DecidableEq

/-! ## Entries -/

/-- The type states. mirrors src/entry.rs:66-72 -/
inductive EntryState
  | draft
  | balanced

/-- mirrors src/entry.rs:612-625 -/
structure Entry (H : Type) (S : EntryState) (P : Scale) where
  id : EntryId
  idempotencyKey : IdempotencyKey
  bookingDate : Date
  valueDate : Date
  description : Description
  postings : List (Posting P)
  kind : Option Label
  provenance : Provenance
  document : Option (DocumentRef H)
  reverses : Option EntryId
  originalBookingDate : Option Date
  deriving DecidableEq

namespace Entry

variable {H : Type} {S : EntryState} {P : Scale}

/-- mirrors src/entry.rs:632-647 -/
def new (id : EntryId) (key : IdempotencyKey) (bookingDate : Date) : Entry H .draft P where
  id := id
  idempotencyKey := key
  bookingDate := bookingDate
  valueDate := bookingDate
  description := .empty
  postings := []
  kind := none
  provenance := .none
  document := none
  reverses := none
  originalBookingDate := none

/-- mirrors src/entry.rs:655-658 -/
def post (e : Entry H .draft P) (posting : Posting P) : Entry H .draft P :=
  { e with postings := e.postings ++ [posting] }

/-- The same fields in another type state. -/
def withState (e : Entry H S P) (T : EntryState) : Entry H T P where
  id := e.id
  idempotencyKey := e.idempotencyKey
  bookingDate := e.bookingDate
  valueDate := e.valueDate
  description := e.description
  postings := e.postings
  kind := e.kind
  provenance := e.provenance
  document := e.document
  reverses := e.reverses
  originalBookingDate := e.originalBookingDate

/-- mirrors src/entry.rs:1131-1157 -/
instance [Blake3 H] : Canonical (Entry H S P) :=
  ⟨fun e => writeU8 P.val ++ writeBytes e.idempotencyKey.bytes ++ encodeDate e.bookingDate ++
    encodeDate e.valueDate ++ writeStr e.description.text ++ writeSeq Canonical.encode e.postings ++
    writeOption Canonical.encode e.kind ++ Canonical.encode e.provenance ++
    writeOption Canonical.encode e.document ++ writeOption (fun id => id.uuid.asBytes) e.reverses ++
    writeOption encodeDate e.originalBookingDate⟩

/-- mirrors src/entry.rs:908-910 -/
def digest [Blake3 H] (e : Entry H S P) : H := tagged Tag.entryV1 (Canonical.encode e)

/-- mirrors src/entry.rs:998-1000 -/
def contentHash [Blake3 H] (e : Entry H .balanced P) : H := e.digest

/-! ## Validation -/

/-- The checks of one posting that stand for themselves, in order.
mirrors src/entry.rs:796-834 -/
def postingErrors (ctx : SealContext) (bookingDate : Date) (index : Nat) (posting : Posting P) :
    List ValidationError :=
  (if posting.amount.isZero then [.zeroAmount index] else []) ++
  (if posting.amount.isNegative then [.negativeAmount index] else []) ++
  (match ctx.accounts.get posting.account with
    | none => [.unknownAccount index posting.account]
    | some account =>
      (if ctx.accounts.isLeaf posting.account then [] else [.nonLeafAccount index posting.account]) ++
      (if account.isOpenOn bookingDate then [] else [.accountNotOpen index posting.account bookingDate])) ++
  (match ctx.policy.currency with
    | .single allowed => if posting.currency = allowed then [] else [.currencyNotAllowed posting.currency]
    | .multi => []) ++
  (ctx.policy.requiredDimensions.filter fun axis => !posting.dimensions.contains axis).map (.missingDimension index)

/-- The gross totals per currency, and the errors found so far. -/
structure Tally (P : Scale) where
  errors : List ValidationError
  totals : OrdMap Currency (Balance P)

/-- One turn of the loop over the postings. An overflow leaves the total as it
was. mirrors src/entry.rs:795-841 -/
def tallyPosting (ctx : SealContext) (bookingDate : Date) (t : Tally P) (e : Posting P × Nat) : Tally P :=
  let errors := t.errors ++ postingErrors ctx bookingDate e.2 e.1
  let balance := (t.totals.get? e.1.currency).getD .zero
  match balance.add e.1.direction e.1.amount with
  | .ok b => ⟨errors, t.totals.insert e.1.currency b⟩
  | .error _ => ⟨errors ++ [.overflow e.1.currency], t.totals.insert e.1.currency balance⟩

/-- `i64::saturating_sub` -/
def saturatingSub (a b : Int) : Int := max i64Min (min i64Max (a - b))

/-- mirrors src/entry.rs:843-855 -/
def unbalancedErrors (totals : OrdMap Currency (Balance P)) : List ValidationError :=
  (totals.entries.filter fun e => !e.2.isBalanced).map fun e =>
    .unbalanced e.1 e.2.debits.minor e.2.credits.minor (saturatingSub e.2.debits.minor e.2.credits.minor) P.val

/-- mirrors src/entry.rs:857-863 -/
def periodErrors (ctx : SealContext) (bookingDate : Date) : List ValidationError :=
  if (ctx.calendar.stateOn bookingDate).acceptsPostings then []
  else [.closedPeriod bookingDate (ctx.calendar.stateOn bookingDate)]

/-- mirrors src/entry.rs:865-876 -/
def driftErrors (ctx : SealContext) (booking value : Date) : List ValidationError :=
  match ctx.policy.maxValueDateDriftDays with
  | none => []
  | some maxDays =>
    if maxDays < |value.toJulianDay - booking.toJulianDay| then [.valueDateDrift booking value maxDays] else []

/-- Every violation, in the order the source finds them. mirrors src/entry.rs:779-876 -/
def violations (e : Entry H S P) (ctx : SealContext) : List ValidationError :=
  let count := e.postings.length
  let tally := e.postings.zipIdx.foldl (tallyPosting ctx e.bookingDate) ⟨[], .empty⟩
  (if count < 2 then [.tooFewPostings count] else []) ++
  (if maxPostings < count then [.tooManyPostings count] else []) ++
  tally.errors ++ unbalancedErrors tally.totals ++ periodErrors ctx e.bookingDate ++
  driftErrors ctx e.bookingDate e.valueDate

end Entry

/-- mirrors src/entry.rs:769-894 -/
def Entry.seal {H : Type} {P : Scale} (e : Entry H .draft P) (ctx : SealContext) :
    Except (List ValidationError) (Entry H .balanced P) :=
  if (e.violations ctx).isEmpty then .ok (e.withState .balanced) else .error (e.violations ctx)

/-! ## What a sealed entry is -/

namespace Entry

variable {H : Type} {S : EntryState} {P : Scale}

/-- The calendar accepted the booking date, and every posting is a positive
amount on a registered account. -/
structure Sealed (ctx : SealContext) (e : Entry H S P) : Prop where
  accepted : ctx.calendar.accepts e.bookingDate = true
  positive : ∀ p ∈ e.postings, 0 < p.amount.minor
  registered : ∀ p ∈ e.postings, p.account.index < ctx.accounts.len

theorem mem_errors_tallyPosting {ctx : SealContext} {bookingDate : Date} {t : Tally P} {x : Posting P × Nat}
    {err : ValidationError} (h : err ∈ t.errors ∨ err ∈ postingErrors ctx bookingDate x.2 x.1) :
    err ∈ (tallyPosting ctx bookingDate t x).errors := by
  have hmem := List.mem_append.2 h
  unfold tallyPosting
  simp only
  split
  · exact hmem
  · exact List.mem_append_left _ hmem

theorem mem_errors_foldl {ctx : SealContext} {bookingDate : Date} {l : List (Posting P × Nat)} :
    ∀ {t : Tally P} {err : ValidationError},
      (err ∈ t.errors ∨ ∃ x ∈ l, err ∈ postingErrors ctx bookingDate x.2 x.1) →
      err ∈ (l.foldl (tallyPosting ctx bookingDate) t).errors := by
  induction l with
  | nil => intro t err h; simpa using h
  | cons x l ih =>
    intro t err h
    refine ih ?_
    rcases h with h | ⟨y, hy, h⟩
    · exact .inl (mem_errors_tallyPosting (.inl h))
    · rcases List.mem_cons.1 hy with rfl | hy
      · exact .inl (mem_errors_tallyPosting (.inr h))
      · exact .inr ⟨y, hy, h⟩

theorem postingErrors_nil {ctx : SealContext} {bookingDate : Date} {index : Nat} {p : Posting P}
    (h : postingErrors ctx bookingDate index p = []) :
    0 < p.amount.minor ∧ p.account.index < ctx.accounts.len := by
  simp only [postingErrors, List.append_eq_nil_iff, ite_eq_right_iff, List.cons_ne_nil, imp_false] at h
  obtain ⟨⟨⟨⟨hz, hn⟩, ha⟩, -⟩, -⟩ := h
  have hz' : ¬ p.amount.minor = 0 := by simpa [Amount.isZero] using hz
  have hn' : ¬ p.amount.minor < 0 := by simpa [Amount.isNegative] using hn
  refine ⟨by omega, ?_⟩
  cases hg : ctx.accounts.get p.account with
  | none => simp [hg] at ha
  | some a => exact (List.getElem?_eq_some_iff.1 hg).1

theorem seal_eq_ok {e : Entry H .draft P} {ctx : SealContext} {e' : Entry H .balanced P} :
    e.seal ctx = .ok e' ↔ e.violations ctx = [] ∧ e' = e.withState .balanced := by
  unfold Entry.seal
  split
  · rename_i h
    rw [List.isEmpty_iff] at h
    simp [h, eq_comm]
  · rename_i h
    rw [List.isEmpty_iff] at h
    simp [h]

/-- A sealed entry passed the checks of each posting. -/
theorem postingErrors_of_seal {e : Entry H .draft P} {ctx : SealContext} {e' : Entry H .balanced P}
    (h : e.seal ctx = .ok e') {p : Posting P} (hp : p ∈ e'.postings) :
    ∃ index, postingErrors ctx e'.bookingDate index p = [] := by
  obtain ⟨hv, rfl⟩ := seal_eq_ok.1 h
  simp only [violations, List.append_eq_nil_iff] at hv
  obtain ⟨⟨⟨⟨-, htally⟩, -⟩, -⟩, -⟩ := hv
  obtain ⟨i, hi⟩ := List.mem_iff_getElem?.1 (show p ∈ e.postings from hp)
  refine ⟨i, List.eq_nil_iff_forall_not_mem.2 fun err herr => ?_⟩
  have herr : err ∈ postingErrors ctx e.bookingDate i p := herr
  have hmem := mem_errors_foldl (t := ⟨[], .empty⟩) (.inr ⟨(p, i), List.mem_zipIdx_iff_getElem?.2 hi, herr⟩)
  rw [htally] at hmem
  cases hmem

/-- **Validation.** An entry that was sealed against a context was checked for
its booking date, its amounts and its accounts there. -/
theorem sealed_of_seal {e : Entry H .draft P} {ctx : SealContext} {e' : Entry H .balanced P}
    (h : e.seal ctx = .ok e') : Sealed ctx e' := by
  have hposting : ∀ p ∈ e'.postings, 0 < p.amount.minor ∧ p.account.index < ctx.accounts.len := fun p hp => by
    obtain ⟨index, hnil⟩ := postingErrors_of_seal h hp
    exact postingErrors_nil hnil
  obtain ⟨hv, rfl⟩ := seal_eq_ok.1 h
  simp only [violations, List.append_eq_nil_iff] at hv
  obtain ⟨⟨-, hperiod⟩, -⟩ := hv
  refine ⟨?_, fun p hp => (hposting p hp).1, fun p hp => (hposting p hp).2⟩
  unfold periodErrors at hperiod
  split at hperiod
  · assumption
  · cases hperiod

/-- A sealed entry has at least two postings, and no more than the bound. -/
theorem length_of_seal {e : Entry H .draft P} {ctx : SealContext} {e' : Entry H .balanced P}
    (h : e.seal ctx = .ok e') : 2 ≤ e'.postings.length ∧ e'.postings.length ≤ maxPostings := by
  obtain ⟨hv, rfl⟩ := seal_eq_ok.1 h
  simp only [violations, List.append_eq_nil_iff, ite_eq_right_iff, List.cons_ne_nil, imp_false, not_lt] at hv
  obtain ⟨⟨⟨⟨⟨hfew, hmany⟩, -⟩, -⟩, -⟩, -⟩ := hv
  exact ⟨hfew, hmany⟩

end Entry

end DoubleEntry.L3
