import DoubleEntry.Core.Except
import DoubleEntry.L3Ledger.Clearing
import DoubleEntry.L3Ledger.PeriodIndex
import DoubleEntry.L3Ledger.Seal

/-!
# The in-memory journal

`src/journal.rs`: accounts, calendar, policy, entries in append order, the Merkle
log over their content hashes, the maps derived from the entries, the seals and
the clearings. Log indices are positions in `entries`.

Every mutator but `sealPeriod` writes only when nothing can fail any more, so it
returns the journal or an error. `sealPeriod` pushes the seal and then moves the
period, so it returns an outcome and the journal it leaves behind.

`record_validated` takes its checks in this order: the idempotency key, the identifier, the
original of a reversal, the balances, the limits (`recordValidated`, `accept`). It never asks the
calendar; `record` does, through `seal`.

**Results.**
* `record_eq_ok`: a recorded draft is a replay, or a sealed entry at the end of the log.
* `recordEach_frame`, `recordBatch_frame`: what recording leaves alone (`SameBooks`).
* `sealPeriod_cases`: everything that a call of `seal_period` can do.
-/
namespace DoubleEntry.L3

open DoubleEntry.Core DoubleEntry.L1 DoubleEntry.L2

/-- mirrors src/journal.rs:96-113 -/
structure Recorded (H : Type) where
  id : EntryId
  index : Option Nat
  contentHash : H
  isNew : Bool
  deriving DecidableEq

/-- mirrors src/journal.rs:138-243 -/
inductive JournalError (H : Type)
  | invalid (errors : List ValidationError)
  | idempotencyConflict (existing : EntryId) (stored submitted : H)
  | duplicateId (id : EntryId)
  | unknownOriginal (id : EntryId)
  | alreadyReversed (id «by» : EntryId)
  | reversalOfReversal (id : EntryId)
  | notAnInversion (id : EntryId)
  | limitBreached (account : AccountId) (currency : Currency) (layer : Layer) (limit : BalanceLimit)
      (netMinor : Int) (scale : Nat)
  | money (e : MoneyError)
  | clearing (e : ClearingError)
  | period (e : PeriodError)
  | sealChain (e : SealChainError)
  | sealedBalance (e : SealedBalanceError)
  deriving DecidableEq

/-- mirrors src/journal.rs:247-250 -/
structure Site where
  index : Nat
  posting : Nat

/-- mirrors src/journal.rs:256-275 -/
structure Journal (H : Type) [Blake3 H] (P : Scale) where
  ledger : LedgerId
  accounts : AccountRegistry
  calendar : PeriodCalendar
  policy : LedgerPolicy
  entries : List (Entry H .balanced P)
  log : MerkleLog H
  byId : OrdMap EntryId Nat
  byKey : OrdMap IdempotencyKey (EntryId × Nat × H)
  reversedBy : OrdMap EntryId EntryId
  balances : TrialBalance P
  sites : OrdMap BalanceKey (List Site)
  seals : SealChain H
  clearings : ClearingRegister P

/-! ## Folds of entries -/

section
variable {H : Type} {P : Scale}

/-- The postings of entries, in log order. -/
def postingsOf (entries : List (Entry H .balanced P)) : List (Posting P) := entries.flatMap (·.postings)

/-- The entries booked on or before `stop`. -/
def through (stop : Date) (entries : List (Entry H .balanced P)) : List (Entry H .balanced P) :=
  entries.filter fun e => e.bookingDate ≤ stop

/-- The trial balance of the entries booked on or before `stop`.
mirrors src/journal.rs:958-966 -/
def closingBalance (entries : List (Entry H .balanced P)) (stop : Date) : Except MoneyError (TrialBalance P) :=
  TrialBalance.new.applyAll (postingsOf (through stop entries))

/-- One turn of the loop of `coverage`. mirrors src/journal.rs:1116-1124 -/
def coverEntry (start stop : Date) (c : PeriodCoverage) (e : Entry H .balanced P × Nat) : PeriodCoverage :=
  if start ≤ e.1.bookingDate ∧ e.1.bookingDate ≤ stop then
    ⟨c.firstIndex.or (some e.2), some e.2, c.entryCount + 1⟩
  else c

/-- The span of the entries booked in a range, and how many there are.
mirrors src/journal.rs:1114-1126 -/
def coverageOf (entries : List (Entry H .balanced P)) (start stop : Date) : PeriodCoverage :=
  entries.zipIdx.foldl (coverEntry start stop) .empty

theorem through_append (stop : Date) (l l' : List (Entry H .balanced P)) :
    through stop (l ++ l') = through stop l ++ through stop l' := List.filter_append _ _

/-- Entries booked after `stop` do not count. -/
theorem through_eq_nil {stop : Date} {l : List (Entry H .balanced P)} (h : ∀ e ∈ l, stop < e.bookingDate) :
    through stop l = [] := List.filter_eq_nil_iff.2 fun e he => by simpa using h e he

theorem closingBalance_append {stop : Date} {l l' : List (Entry H .balanced P)}
    (h : ∀ e ∈ l', stop < e.bookingDate) : closingBalance (l ++ l') stop = closingBalance l stop := by
  rw [closingBalance, through_append, through_eq_nil h, List.append_nil, closingBalance]

/-- A row of a closing balance comes from a posting. -/
theorem exists_posting_of_row {l : List (Entry H .balanced P)} {stop : Date} {tb : TrialBalance P} {key : BalanceKey}
    {b : Balance P} (h : closingBalance l stop = .ok tb) (hb : tb.get key = some b) :
    ∃ e ∈ l, ∃ p ∈ e.postings, p.key = key := by
  obtain ⟨p, hp, hk⟩ := ((totals_of_applyAll h).row key).1 (by rw [hb]; rfl)
  obtain ⟨e, he, hpe⟩ := List.mem_flatMap.1 hp
  exact ⟨e, (List.mem_filter.1 he).1, p, hpe, hk⟩

end

namespace Journal

variable {H : Type} [Blake3 H] [DecidableEq H] {P : Scale}

omit [DecidableEq H] in
/-- mirrors src/journal.rs:288-304 -/
def new (ledger : LedgerId) : Journal H P where
  ledger := ledger
  accounts := .new
  calendar := .new
  policy := .permissive
  entries := []
  log := .new
  byId := .empty
  byKey := .empty
  reversedBy := .empty
  balances := .new
  sites := .empty
  seals := .new ledger
  clearings := .new

/-- mirrors src/journal.rs:312-315 -/
def withPolicy (j : Journal H P) (policy : LedgerPolicy) : Journal H P := { j with policy := policy }

/-- mirrors src/journal.rs:392-398 -/
def context (j : Journal H P) : SealContext := ⟨j.accounts, j.calendar, j.policy⟩

/-- mirrors src/journal.rs:701-704 -/
def «at» (j : Journal H P) (index : Nat) : Option (Entry H .balanced P) := j.entries[index]?

/-- mirrors src/journal.rs:708-710 -/
def get (j : Journal H P) (id : EntryId) : Option (Entry H .balanced P) := (j.byId.get? id).bind j.at

/-- mirrors src/journal.rs:728-730 -/
def head (j : Journal H P) : TreeHead H := j.log.head

/-! ## Recording -/

/-- The outcome on file for an idempotency key. mirrors src/journal.rs:421-439,464-479 -/
def replay (j : Journal H P) (key : IdempotencyKey) (contentHash : H) :
    Option (Except (JournalError H) (Recorded H)) :=
  match j.byKey.get? key with
  | none => none
  | some (existing, index, stored) =>
    if stored = contentHash then some (.ok ⟨existing, some index, contentHash, false⟩)
    else some (.error (.idempotencyConflict existing stored contentHash))

/-- mirrors src/journal.rs:1344-1358 -/
def isInversionOf (original candidate : Entry H .balanced P) : Bool :=
  decide (original.postings.length = candidate.postings.length) &&
    (original.postings.zip candidate.postings).all fun (o, r) =>
      r.account = o.account ∧ r.amount = o.amount ∧ r.currency = o.currency ∧ r.layer = o.layer ∧
        r.dimensions = o.dimensions ∧ r.direction = o.direction.inverse

/-- mirrors src/journal.rs:656-678 -/
def checkReversal (j : Journal H P) (entry : Entry H .balanced P) (original : EntryId) :
    Except (JournalError H) Unit :=
  match j.get original with
  | none => .error (.unknownOriginal original)
  | some target =>
    match j.reversedBy.get? original with
    | some existing => .error (.alreadyReversed original existing)
    | none =>
      if target.reverses.isSome then .error (.reversalOfReversal original)
      else if isInversionOf target entry then .ok ()
      else .error (.notAnInversion original)

/-- The loop of `check_limits`, with the keys checked so far. mirrors src/journal.rs:629-652 -/
def checkLimitsLoop (accounts : AccountRegistry) (after : TrialBalance P) :
    List BalanceKey → List (Posting P) → Except (JournalError H) Unit
  | _, [] => .ok ()
  | checked, posting :: postings =>
    let key := posting.key
    if key ∈ checked then checkLimitsLoop accounts after checked postings
    else
      let limit := accounts.limitOf key.account
      let balance := after.getOrZero key
      if limit.permits balance then checkLimitsLoop accounts after (key :: checked) postings
      else
        .error (.limitBreached key.account key.currency key.layer limit
          (balance.signedNet.toOption.elim 0 (·.minor)) P.val)

/-- mirrors src/journal.rs:624-653 -/
def checkLimits (j : Journal H P) (entry : Entry H .balanced P) (after : TrialBalance P) :
    Except (JournalError H) Unit := checkLimitsLoop j.accounts after [] entry.postings

/-- mirrors src/journal.rs:506-511 -/
def addSites (sites : OrdMap BalanceKey (List Site)) (index : Nat) (postings : List (Posting P)) :
    OrdMap BalanceKey (List Site) :=
  postings.zipIdx.foldl (fun sites e =>
    sites.insert e.1.key ((sites.get? e.1.key).getD [] ++ [⟨index, min e.2 65535⟩])) sites

/-- The writes of `record_validated`. mirrors src/journal.rs:502-519 -/
def store (j : Journal H P) (entry : Entry H .balanced P) (balances : TrialBalance P) : Journal H P :=
  let index := j.log.accumulator.size
  { j with
    log := j.log.append entry.contentHash
    reversedBy := entry.reverses.elim j.reversedBy fun original => j.reversedBy.insert original entry.id
    sites := addSites j.sites index entry.postings
    balances := balances
    byId := j.byId.insert entry.id index
    byKey := j.byKey.insert entry.idempotencyKey (entry.id, index, entry.contentHash)
    entries := j.entries ++ [entry] }

/-- The checks of `record_validated` behind the idempotency check, and the
balances the entry would leave. mirrors src/journal.rs:481-500 -/
def accept (j : Journal H P) (entry : Entry H .balanced P) : Except (JournalError H) (TrialBalance P) :=
  if j.byId.contains entry.id then .error (.duplicateId entry.id)
  else do
    match entry.reverses with
    | some original => j.checkReversal entry original
    | none => .ok ()
    let balances ← (j.balances.applyAll entry.postings).mapError .money
    j.checkLimits entry balances
    .ok balances

/-- mirrors src/journal.rs:456-527 -/
def recordValidated (j : Journal H P) (entry : Entry H .balanced P) :
    Except (JournalError H) (Recorded H × Journal H P) :=
  match j.replay entry.idempotencyKey entry.contentHash with
  | some outcome => outcome.map fun recorded => (recorded, j)
  | none =>
    match j.accept entry with
    | .error e => .error e
    | .ok balances =>
      .ok (⟨entry.id, some j.log.accumulator.size, entry.contentHash, true⟩, j.store entry balances)

/-- mirrors src/journal.rs:420-444 -/
def record (j : Journal H P) (draft : Entry H .draft P) : Except (JournalError H) (Recorded H × Journal H P) :=
  match j.replay draft.idempotencyKey draft.digest with
  | some outcome => outcome.map fun recorded => (recorded, j)
  | none =>
    match draft.seal j.context with
    | .error errors => .error (.invalid errors)
    | .ok entry => j.recordValidated entry

/-! ## Batches -/

/-- mirrors src/journal.rs:1014-1018 -/
def resolve (j : Journal H P) (site : Site) : Option (Posting P) :=
  (j.at site.index).bind fun entry => entry.postings[site.posting]?

/-- The loop over one undone posting. mirrors src/journal.rs:577-583 -/
def dropSites (index : Nat) (sites : OrdMap BalanceKey (List Site)) (posting : Posting P) :
    OrdMap BalanceKey (List Site) :=
  match sites.get? posting.key with
  | some l => sites.insert posting.key (l.filter fun site => site.index ≠ index)
  | none => sites

/-- Undoes the last append, and adds the keys it touched. mirrors src/journal.rs:569-585 -/
def undoLast (st : Journal H P × OrdMap BalanceKey Unit) : Journal H P × OrdMap BalanceKey Unit :=
  match st.1.entries.getLast? with
  | none => st
  | some entry =>
    ({ st.1 with
        entries := st.1.entries.dropLast
        byId := st.1.byId.erase entry.id
        byKey := st.1.byKey.erase entry.idempotencyKey
        reversedBy := entry.reverses.elim st.1.reversedBy st.1.reversedBy.erase
        sites := entry.postings.foldl (dropSites (st.1.entries.length - 1)) st.1.sites },
      entry.postings.foldl (fun touched posting => touched.insert posting.key ()) st.2)

/-- Recomputes the balance of a touched key from the postings that remain.
mirrors src/journal.rs:588-608 -/
def rebuildBalance (j : Journal H P) (key : BalanceKey) : Journal H P :=
  let sites := (j.sites.get? key).getD []
  let balance := match (sites.filterMap j.resolve).foldlM (fun b p => b.add p.direction p.amount) Balance.zero with
    | .ok b => b
    | .error _ => .zero
  if sites.isEmpty then { j with sites := j.sites.erase key, balances := ⟨j.balances.entries.erase key⟩ }
  else { j with balances := ⟨j.balances.entries.insert key balance⟩ }

/-- mirrors src/journal.rs:586 -/
def truncateLog (j : Journal H P) : Journal H P := { j with log := j.log.truncate j.entries.length }

/-- mirrors src/journal.rs:566-609 -/
def rollbackTo (j : Journal H P) (mark : Nat) : Journal H P :=
  let (undone, touched) := undoLast^[j.entries.length - mark] (j, .empty)
  touched.keys.foldl rebuildBalance undone.truncateLog

/-- Records entries in order, up to the first that is refused. mirrors src/journal.rs:546-553 -/
def recordEach (j : Journal H P) : List (Entry H .balanced P) →
    Except (JournalError H) (List (Recorded H)) × Journal H P
  | [] => (.ok [], j)
  | entry :: entries =>
    match j.recordValidated entry with
    | .error e => (.error e, j)
    | .ok (recorded, j') => ((recordEach j' entries).1.map (recorded :: ·), (recordEach j' entries).2)

/-- All of the entries, or none. mirrors src/journal.rs:540-556 -/
def recordBatch (j : Journal H P) (entries : List (Entry H .balanced P)) :
    Except (JournalError H) (List (Recorded H)) × Journal H P :=
  match j.recordEach entries with
  | (.ok out, j') => (.ok out, j')
  | (.error e, j') => (.error e, j'.rollbackTo j.entries.length)

/-! ## Master data, periods and clearings -/

/-- mirrors src/journal.rs:367-370 -/
def definePeriod (j : Journal H P) (period : Period) : Except (JournalError H) (Journal H P) :=
  ((j.calendar.define period).mapError .period).map fun calendar => { j with calendar := calendar }

/-- mirrors src/journal.rs:377-384 -/
def transitionPeriod (j : Journal H P) (id : PeriodId) (target : PeriodState) :
    Except (JournalError H) (Journal H P) :=
  ((j.calendar.transition id target).mapError .period).map fun calendar => { j with calendar := calendar }

/-- mirrors src/journal.rs:1324-1338 -/
def postingLookup (j : Journal H P) (reference : PostingRef) : Option (Posting P) :=
  ((j.byId.get? reference.entry).bind fun index => j.entries[index]?).bind fun entry =>
    entry.postings[reference.index]?

/-- mirrors src/journal.rs:1050-1059 -/
def clear (j : Journal H P) (clearing : Clearing P) : Except (JournalError H) (Journal H P) :=
  ((j.clearings.clear clearing j.postingLookup).mapError .clearing).map fun clearings =>
    { j with clearings := clearings }

/-- mirrors src/journal.rs:1066-1069 -/
def resetClearing (j : Journal H P) (id : ClearingId) (on : Date) : Except (JournalError H) (Journal H P) :=
  ((j.clearings.reset id on).mapError .clearing).map fun clearings => { j with clearings := clearings }

/-! ## Sealing -/

/-- mirrors src/journal.rs:958-966 -/
def trialBalanceThroughDate (j : Journal H P) (stop : Date) : Except MoneyError (TrialBalance P) :=
  closingBalance j.entries stop

/-- The seal `seal_period` builds for a sealable period. mirrors src/journal.rs:1155-1168 -/
def buildSeal (j : Journal H P) (definition : Period) (closing : TrialBalance P) (period : PeriodId) : Seal H :=
  .build j.ledger period (coverageOf j.entries definition.start definition.end) j.head closing
    j.accounts.commitment j.seals.head

/-- The chain is written before the calendar. mirrors src/journal.rs:1151-1173 -/
def sealPeriod (j : Journal H P) (period : PeriodId) : Except (JournalError H) (Seal H) × Journal H P :=
  match j.calendar.checkSealable period with
  | .error e => (.error (.period e), j)
  | .ok definition =>
    match j.trialBalanceThroughDate definition.end with
    | .error e => (.error (.money e), j)
    | .ok closing =>
      match j.seals.push (j.buildSeal definition closing period) with
      | .error e => (.error (.sealChain e), j)
      | .ok seals =>
        match j.calendar.transition period .sealed with
        | .error e => (.error (.period e), { j with seals := seals })
        | .ok calendar => (.ok (j.buildSeal definition closing period), { j with seals := seals, calendar := calendar })

/-- mirrors src/journal.rs:1218-1242 -/
def proveSealedBalance (j : Journal H P) (period : PeriodId) (key : BalanceKey) :
    Except (JournalError H) (SealedBalanceOutcome H P) :=
  match j.seals.get period with
  | none => .error (.sealedBalance (.notSealed period))
  | some s =>
    match j.calendar.get s.period with
    | none => .error (.sealedBalance (.undefinedPeriod period))
    | some definition =>
      match j.trialBalanceThroughDate definition.end with
      | .error e => .error (.money e)
      | .ok closing => (SealedBalance.assemble s closing j.accounts key).mapError .sealedBalance

/-! ## What a successful call does -/

theorem recordValidated_eq_ok {j j' : Journal H P} {entry : Entry H .balanced P} {recorded : Recorded H}
    (h : j.recordValidated entry = .ok (recorded, j')) :
    j' = j ∨ ∃ balances, j.accept entry = .ok balances ∧ j' = j.store entry balances := by
  unfold recordValidated at h
  split at h
  · rename_i outcome _
    cases outcome with
    | error e => cases h
    | ok r => cases h; exact .inl rfl
  · split at h
    · cases h
    · cases h
      exact .inr ⟨_, by assumption, rfl⟩

/-- A recorded draft is a replay, or a sealed entry at the end of the log. -/
theorem record_eq_ok {j j' : Journal H P} {draft : Entry H .draft P} {recorded : Recorded H}
    (h : j.record draft = .ok (recorded, j')) :
    j' = j ∨ ∃ entry balances, draft.seal j.context = .ok entry ∧ j.accept entry = .ok balances ∧
      j' = j.store entry balances := by
  unfold record at h
  split at h
  · rename_i outcome _
    cases outcome with
    | error e => cases h
    | ok r => cases h; exact .inl rfl
  · split at h
    · cases h
    · rename_i entry hseal
      rcases recordValidated_eq_ok h with h | ⟨balances, haccept, h⟩
      · exact .inl h
      · exact .inr ⟨entry, balances, hseal, haccept, h⟩

/-- What recording leaves alone. -/
structure SameBooks (j j' : Journal H P) : Prop where
  accounts : j'.accounts = j.accounts
  calendar : j'.calendar = j.calendar
  policy : j'.policy = j.policy
  seals : j'.seals = j.seals
  ledger : j'.ledger = j.ledger

omit [DecidableEq H] in
theorem SameBooks.refl (j : Journal H P) : SameBooks j j := ⟨rfl, rfl, rfl, rfl, rfl⟩

omit [DecidableEq H] in
theorem SameBooks.trans {j j' j'' : Journal H P} (h : SameBooks j j') (h' : SameBooks j' j'') : SameBooks j j'' :=
  ⟨h'.accounts.trans h.accounts, h'.calendar.trans h.calendar, h'.policy.trans h.policy, h'.seals.trans h.seals,
    h'.ledger.trans h.ledger⟩

omit [DecidableEq H] in
theorem sameBooks_store (j : Journal H P) (entry : Entry H .balanced P) (balances : TrialBalance P) :
    SameBooks j (j.store entry balances) := ⟨rfl, rfl, rfl, rfl, rfl⟩

omit [DecidableEq H] in
theorem undoLast_iterate (n : Nat) (st : Journal H P × OrdMap BalanceKey Unit) :
    SameBooks st.1 (undoLast^[n] st).1 ∧ (undoLast^[n] st).1.entries = st.1.entries.take (st.1.entries.length - n) := by
  induction n generalizing st with
  | zero => exact ⟨.refl _, by simp⟩
  | succ n ih =>
    rw [Function.iterate_succ_apply]
    obtain ⟨hs, he⟩ := ih (undoLast st)
    have hone : SameBooks st.1 (undoLast st).1 ∧ (undoLast st).1.entries = st.1.entries.dropLast := by
      unfold undoLast
      split
      · rename_i h
        rw [List.getLast?_eq_none_iff] at h
        exact ⟨.refl _, by rw [h]; rfl⟩
      · exact ⟨⟨rfl, rfl, rfl, rfl, rfl⟩, rfl⟩
    refine ⟨hone.1.trans hs, ?_⟩
    rw [he, hone.2, List.dropLast_eq_take, List.take_take, List.length_take]
    congr 1
    omega

omit [DecidableEq H] in
theorem rebuildBalance_foldl (keys : List BalanceKey) (j : Journal H P) :
    SameBooks j (keys.foldl rebuildBalance j) ∧ (keys.foldl rebuildBalance j).entries = j.entries := by
  induction keys generalizing j with
  | nil => exact ⟨.refl _, rfl⟩
  | cons key keys ih =>
    have hone : SameBooks j (j.rebuildBalance key) ∧ (j.rebuildBalance key).entries = j.entries := by
      unfold rebuildBalance
      simp only
      split <;> exact ⟨⟨rfl, rfl, rfl, rfl, rfl⟩, rfl⟩
    obtain ⟨hs, he⟩ := ih (j.rebuildBalance key)
    exact ⟨hone.1.trans hs, he.trans hone.2⟩

omit [DecidableEq H] in
theorem rollbackTo_frame (j : Journal H P) {mark : Nat} (h : mark ≤ j.entries.length) :
    SameBooks j (j.rollbackTo mark) ∧ (j.rollbackTo mark).entries = j.entries.take mark := by
  obtain ⟨hs, he⟩ := undoLast_iterate (j.entries.length - mark) (j, .empty)
  unfold rollbackTo
  simp only
  obtain ⟨hs', he'⟩ := rebuildBalance_foldl (undoLast^[j.entries.length - mark] (j, .empty)).2.keys
    (undoLast^[j.entries.length - mark] (j, .empty)).1.truncateLog
  have hlog : SameBooks (undoLast^[j.entries.length - mark] (j, .empty)).1
      (undoLast^[j.entries.length - mark] (j, .empty)).1.truncateLog := ⟨rfl, rfl, rfl, rfl, rfl⟩
  refine ⟨(hs.trans hlog).trans hs', he'.trans (he.trans ?_)⟩
  congr 1
  have : ((j, (.empty : OrdMap BalanceKey Unit)).1.entries.length) = j.entries.length := rfl
  omega

theorem recordEach_frame (entries : List (Entry H .balanced P)) (j : Journal H P) :
    SameBooks j (j.recordEach entries).2 ∧
      ∃ new, (j.recordEach entries).2.entries = j.entries ++ new ∧ new.Sublist entries := by
  induction entries generalizing j with
  | nil => exact ⟨.refl _, [], (List.append_nil _).symm, .slnil⟩
  | cons entry entries ih =>
    unfold recordEach
    split
    · exact ⟨.refl _, [], (List.append_nil _).symm, List.nil_sublist _⟩
    · rename_i recorded j' h
      obtain ⟨hs, new, hn, hsub⟩ := ih j'
      rcases recordValidated_eq_ok h with rfl | ⟨balances, -, rfl⟩
      · exact ⟨hs, new, hn, hsub.cons _⟩
      · refine ⟨(j.sameBooks_store entry balances).trans hs, entry :: new, ?_, hsub.cons_cons _⟩
        rw [hn]
        simp [store]

/-- A batch appends some of its entries, or nothing. -/
theorem recordBatch_frame (j : Journal H P) (entries : List (Entry H .balanced P)) :
    SameBooks j (j.recordBatch entries).2 ∧
      ∃ new, (j.recordBatch entries).2.entries = j.entries ++ new ∧ new.Sublist entries ∧
        ((j.recordBatch entries).1.toOption = none → new = []) := by
  obtain ⟨hs, new, hn, hsub⟩ := recordEach_frame entries j
  unfold recordBatch
  split
  · rename_i out j' h
    rw [h] at hs hn
    exact ⟨hs, new, hn, hsub, fun h => by cases h⟩
  · rename_i e j' h
    rw [h] at hs hn
    have hn : j'.entries = j.entries ++ new := hn
    have hmark : j.entries.length ≤ j'.entries.length := by rw [hn, List.length_append]; omega
    obtain ⟨hs', he'⟩ := rollbackTo_frame j' hmark
    refine ⟨hs.trans hs', [], ?_, List.nil_sublist _, fun _ => rfl⟩
    rw [List.append_nil]
    simp only [he', hn, List.take_left]

omit [DecidableEq H] in
theorem definePeriod_eq_ok {j j' : Journal H P} {period : Period} : j.definePeriod period = .ok j' ↔
    ∃ calendar, j.calendar.define period = .ok calendar ∧ j' = { j with calendar := calendar } := by
  unfold definePeriod
  cases j.calendar.define period <;> simp [Except.mapError, Except.map, eq_comm]

omit [DecidableEq H] in
theorem transitionPeriod_eq_ok {j j' : Journal H P} {id : PeriodId} {target : PeriodState} :
    j.transitionPeriod id target = .ok j' ↔
      ∃ calendar, j.calendar.transition id target = .ok calendar ∧ j' = { j with calendar := calendar } := by
  unfold transitionPeriod
  cases j.calendar.transition id target <;> simp [Except.mapError, Except.map, eq_comm]

/-- Everything a call of `seal_period` can do. -/
theorem sealPeriod_cases (j : Journal H P) (period : PeriodId) :
    (∃ e, j.sealPeriod period = (.error e, j)) ∨
    ∃ definition closing, j.calendar.checkSealable period = .ok definition ∧
      j.trialBalanceThroughDate definition.end = .ok closing ∧
      j.seals.push (j.buildSeal definition closing period) = .ok (j.seals.add (j.buildSeal definition closing period)) ∧
      j.sealPeriod period = (.ok (j.buildSeal definition closing period),
        { j with
          seals := j.seals.add (j.buildSeal definition closing period)
          calendar := j.calendar.store period { definition with state := .sealed } }) := by
  unfold sealPeriod
  cases hd : j.calendar.checkSealable period with
  | error e => exact .inl ⟨_, rfl⟩
  | ok definition =>
    cases hc : j.trialBalanceThroughDate definition.end with
    | error e => exact .inl ⟨.money e, by simp only [hc]⟩
    | ok closing =>
      cases hp : j.seals.push (j.buildSeal definition closing period) with
      | error e => exact .inl ⟨.sealChain e, by simp only [hc, hp]⟩
      | ok seals =>
        obtain ⟨rfl, -, -⟩ := SealChain.push_eq_ok hp
        obtain ⟨hget, hstate, -, -⟩ := PeriodCalendar.checkSealable_eq_ok.1 hd
        have ht : j.calendar.transition period .sealed =
            .ok (j.calendar.store period { definition with state := .sealed }) :=
          PeriodCalendar.transition_eq_ok.2 ⟨definition, hget, by rw [hstate]; rfl, rfl⟩
        exact .inr ⟨definition, closing, rfl, hc, hp, by simp only [hc, hp, ht]⟩

end Journal

/-! ## Sample books -/

def books : LedgerId := ⟨⟨"books", rfl⟩⟩

def cash : Account := .new ⟨["Assets", "Cash"], rfl⟩ ⟨2026, 1, 1, by decide⟩
def sales : Account := .new ⟨["Income", "Sales"], rfl⟩ ⟨2026, 1, 1, by decide⟩

def cashId : AccountId := ⟨0, by decide⟩
def salesId : AccountId := ⟨1, by decide⟩

def tenEuro : Amount cents := ⟨1000, by decide⟩

/-- A cash sale of ten euro. -/
def sale (n : Fin 256) (date : Date) : Entry Preimage .draft cents :=
  ((Entry.new ⟨⟨n.val, by omega⟩⟩ ⟨[UInt8.ofFin n], rfl⟩ date).post (.debit cashId tenEuro .eur)).post
    (.credit salesId tenEuro .eur)

/-- The sale of the last day of March. -/
def saleOfMarch : Entry Preimage .draft cents := sale 1 march.end

/-- The sale of the first day of April. -/
def saleOfApril : Entry Preimage .draft cents := sale 2 april.start

/-- Another sale of that day. -/
def nextSale : Entry Preimage .draft cents := sale 3 april.start

end DoubleEntry.L3
