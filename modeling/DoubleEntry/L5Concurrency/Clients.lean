import DoubleEntry.L3Ledger.JournalRun
import DoubleEntry.L4Store.EntryLog
import DoubleEntry.L4Store.PeriodCalls

/-!
# Clients of a SQL store

Any number of clients on one database, one statement or one transaction a step.

* Drafts are validated with `Entry::seal` against a calendar the client holds;
  the balanced entry says nothing about which (`validate`). It may be appended
  any time later, any number of times, or dropped.
* `append` takes effect at once: SQLite's is a `BEGIN IMMEDIATE` transaction, the
  inline one of Postgres holds the append lock. In deferred mode a Postgres
  transaction opens, and its rows appear when it commits; `sequence` places the
  rows of transactions that finished before the `xmin` of its snapshot, which is
  no later than any transaction still open.
* `transition_period` is a read with its check and an update. `seal_period` is a
  read with its check, five more reads, and a transaction.

A call of `seal_period` takes these steps, each by one statement on what is committed then:
* `readCalendar`: the calendar is rebuilt, and the period must be sealable;
* `readSpan`: the span of the entries booked in its range;
* `readBalances`: the trial balance through its last day;
* `readSeals`: the chain, rebuilt and checked, for the position and the hash of its head;
* `readHead`: the head of the log;
* `readAccounts`: the registry, and the seal is built;
* `commitSeal`: the transaction that inserts the row and sets the period to sealed.

Inline and deferred handles on one Postgres database are both here. A call that
fails at any statement leaves its client idle (`fail`).

What one step can do is said once, in `Effect`; the modules after this one take their
invariants from there.
-/
namespace DoubleEntry.L5

open DoubleEntry.Core DoubleEntry.L1 DoubleEntry.L2 DoubleEntry.L3 DoubleEntry.L4

section
variable (H : Type) (P : Scale)

/-- A client between two statements of a call, with what it has read. From
`checked` on the call is `seal_period`. The identifier it was called with is the
definition's.
mirrors src/storage/sqlite.rs:1259-1272,1305-1384, src/storage/postgres.rs:1432-1448,1520-1603 -/
inductive Client
  | idle
  | updating (id : PeriodId) (target : PeriodState)
  | checked (definition : Period)
  | spanned (definition : Period) (coverage : PeriodCoverage)
  | folded (definition : Period) (coverage : PeriodCoverage) (closing : TrialBalance P)
  | chained (definition : Period) (coverage : PeriodCoverage) (closing : TrialBalance P) (position : Nat)
      (prev : Option H)
  | headed (definition : Period) (coverage : PeriodCoverage) (closing : TrialBalance P) (position : Nat)
      (prev : Option H) (head : TreeHead H)
  | built (definition : Period) (position : Nat) (s : Seal H)

structure St where
  tables : Tables H P
  /-- Validated and not dropped. -/
  held : List (Entry H .balanced P)
  /-- Open transactions of deferred appends. -/
  writers : List (Nat × List (Entry H .balanced P))
  nextXid : Nat
  clients : List (Client H P)

inductive Lbl
  | validate (draft : Entry H .draft P) (ctx : SealContext)
  | drop (e : Entry H .balanced P)
  | append (batch : List (Entry H .balanced P))
  /-- A deferred append inserts its rows. -/
  | begin (batch : List (Entry H .balanced P))
  | commit (xid : Nat)
  | abort (xid : Nat)
  | sequence (xmin : Nat)
  | registerAccount (record : AccountRecord)
  | definePeriod (period : Period)
  | readTransition (i : Nat) (id : PeriodId) (target : PeriodState)
  | update (i : Nat)
  | readCalendar (i : Nat) (id : PeriodId)
  | readSpan (i : Nat)
  | readBalances (i : Nat)
  | readSeals (i : Nat)
  | readHead (i : Nat)
  | readAccounts (i : Nat)
  | commitSeal (i : Nat)
  | fail (i : Nat)

end

variable {H : Type} [Blake3 H] [DecidableEq H] {P : Scale}

/-- The definition a call of `seal_period` has read. -/
def Client.definition? : Client H P → Option Period
  | .idle | .updating _ _ => none
  | .checked p | .spanned p _ | .folded p _ _ | .chained p _ _ _ _ | .headed p _ _ _ _ _ | .built p _ _ => some p

/-- What a read takes the client to; a failing one ends the call. -/
def Client.read (B : Backend) (t : Tables H P) : Lbl H P → Client H P → Option (Client H P)
  | .readTransition _ id target, .idle =>
    match calendar B.dialect t.periods with
    | .error _ => some .idle
    | .ok c => if (c.transition id target).isOk then some (.updating id target) else some .idle
  | .readCalendar _ id, .idle =>
    match calendar B.dialect t.periods with
    | .error _ => some .idle
    | .ok c =>
      match c.checkSealable id with
      | .error _ => some .idle
      | .ok definition => some (.checked definition)
  | .readSpan _, .checked p => some (.spanned p (t.span B.dialect p.start p.end))
  | .readBalances _, .spanned p coverage =>
    match t.trialBalanceThroughDate B.dialect p.end with
    | .error _ => some .idle
    | .ok closing => some (.folded p coverage closing)
  | .readSeals _, .folded p coverage closing =>
    match SealChain.fromSeals t.ledger t.seals with
    | .error _ => some .idle
    | .ok chain => some (.chained p coverage closing chain.seals.length chain.head)
  | .readHead _, .chained p coverage closing position prev =>
    some (.headed p coverage closing position prev t.head)
  | .readAccounts _, .headed p coverage closing position prev head =>
    match AccountRegistry.fromRecords t.accountRecords with
    | .error _ => some .idle
    | .ok accounts =>
      some (.built p position (Seal.build t.ledger p.id coverage head closing accounts.commitment prev))
  | .fail _, _ => some .idle
  | _, _ => none

/-- The cases of `Client.read`. -/
inductive Client.Reads (B : Backend) (t : Tables H P) : Lbl H P → Client H P → Client H P → Prop
  | ends {l : Lbl H P} {c : Client H P} : Reads B t l c .idle
  | transition {i : Nat} {id : PeriodId} {target : PeriodState} :
      Reads B t (.readTransition i id target) .idle (.updating id target)
  | calendar {i : Nat} {id : PeriodId} {c : PeriodCalendar} {p : Period} (hc : calendar B.dialect t.periods = .ok c)
      (ok : c.checkSealable id = .ok p) : Reads B t (.readCalendar i id) .idle (.checked p)
  | span {i : Nat} {p : Period} :
      Reads B t (.readSpan i) (.checked p) (.spanned p (t.span B.dialect p.start p.end))
  | balances {i : Nat} {p : Period} {coverage : PeriodCoverage} {closing : TrialBalance P}
      (ok : t.trialBalanceThroughDate B.dialect p.end = .ok closing) :
      Reads B t (.readBalances i) (.spanned p coverage) (.folded p coverage closing)
  | chain {i position : Nat} {p : Period} {coverage : PeriodCoverage} {closing : TrialBalance P} {prev : Option H} :
      Reads B t (.readSeals i) (.folded p coverage closing) (.chained p coverage closing position prev)
  | head {i position : Nat} {p : Period} {coverage : PeriodCoverage} {closing : TrialBalance P} {prev : Option H} :
      Reads B t (.readHead i) (.chained p coverage closing position prev)
        (.headed p coverage closing position prev t.head)
  | accounts {i position : Nat} {p : Period} {coverage : PeriodCoverage} {closing : TrialBalance P} {prev : Option H}
      {head accounts : TreeHead H} : Reads B t (.readAccounts i) (.headed p coverage closing position prev head)
        (.built p position (Seal.build t.ledger p.id coverage head closing accounts prev))

theorem Client.reads_of_read {B : Backend} {t : Tables H P} {l : Lbl H P} {c c' : Client H P}
    (h : c.read B t l = some c') : Client.Reads B t l c c' := by
  unfold Client.read at h
  split at h
  · split at h
    · cases h; exact .ends
    · split at h
      · cases h; exact .transition
      · cases h; exact .ends
  · split at h
    · cases h; exact .ends
    · rename_i hc
      split at h
      · cases h; exact .ends
      · rename_i hok
        cases h
        exact .calendar hc hok
  · cases h; exact .span
  · split at h
    · cases h; exact .ends
    · rename_i hok
      cases h
      exact .balances hok
  · split at h
    · cases h; exact .ends
    · cases h; exact .chain
  · cases h; exact .head
  · split at h
    · cases h; exact .ends
    · cases h; exact .accounts
  · cases h; exact .ends
  · cases h

/-- The client a statement belongs to. -/
def Lbl.client : Lbl H P → Nat
  | .readTransition i _ _ | .update i | .readCalendar i _ | .readSpan i | .readBalances i | .readSeals i
  | .readHead i | .readAccounts i | .commitSeal i | .fail i => i
  | _ => 0

namespace St

def setClient (s : St H P) (i : Nat) (c : Client H P) : St H P := { s with clients := s.clients.set i c }

def dropWriter (s : St H P) (xid : Nat) : St H P := { s with writers := s.writers.filter fun w => w.1 ≠ xid }

/-- The client's next read. -/
def readStep (B : Backend) (s : St H P) (l : Lbl H P) : Option (St H P) :=
  match s.clients[l.client]? with
  | none => none
  | some c => (c.read B s.tables l).map (s.setClient l.client)

def definePeriod (B : Backend) (t : PeriodTable) (p : Period) : Except SqlError PeriodTable :=
  match B with
  | .sqlite => definePeriodSqlite t p
  | .postgres => definePeriodPostgres t p

/-- A refused call leaves the state as it was. -/
def step (B : Backend) (s : St H P) : Lbl H P → Option (St H P)
  | .validate draft ctx =>
    match draft.seal ctx with
    | .error _ => some s
    | .ok e => some { s with held := s.held ++ [e] }
  | .drop e => some { s with held := s.held.filter (· ≠ e) }
  | .append batch =>
    if ∀ e ∈ batch, e ∈ s.held then
      match s.tables.append B s.nextXid batch with
      | .error _ => some s
      | .ok (_, t) => some { s with tables := t, nextXid := s.nextXid + 1 }
    else none
  | .begin batch =>
    if B = .postgres ∧ ∀ e ∈ batch, e ∈ s.held then
      some { s with writers := s.writers ++ [(s.nextXid, batch)], nextXid := s.nextXid + 1 }
    else none
  | .commit xid =>
    match s.writers.find? fun w => w.1 = xid with
    | none => none
    | some w =>
      match s.tables.commitBatch B xid w.2 with
      | none => some (s.dropWriter xid)
      | some t => some { s.dropWriter xid with tables := t }
  | .abort xid => some (s.dropWriter xid)
  | .sequence xmin =>
    if B = .postgres ∧ xmin ≤ s.nextXid ∧ ∀ w ∈ s.writers, xmin ≤ w.1 then
      match s.tables.sequence xmin with
      | .error _ => some s
      | .ok (_, t) => some { s with tables := t }
    else none
  | .registerAccount record =>
    match s.tables.registerAccount B record with
    | .error _ => some s
    | .ok t => some { s with tables := t }
  | .definePeriod p =>
    match definePeriod B s.tables.periods p with
    | .error _ => some s
    | .ok u => some { s with tables := { s.tables with periods := u } }
  | .update i =>
    match s.clients[i]? with
    | some (.updating id target) =>
      some { s.setClient i .idle with tables := { s.tables with periods := s.tables.periods.updateState id target } }
    | _ => none
  | .commitSeal i =>
    match s.clients[i]? with
    | some (.built _ position x) =>
      match s.tables.insertSeal position x with
      | none => some (s.setClient i .idle)
      | some t => some { s.setClient i .idle with tables := t }
    | _ => none
  | l => s.readStep B l

/-- An empty database and any number of idle clients. -/
def initial (ledger : LedgerId) (clients : Nat) : St H P := ⟨.empty ledger, [], [], 0, List.replicate clients .idle⟩

/-- The runs of a backend. -/
def system (B : Backend) : LTS (St H P) (Lbl H P) :=
  .ofFn (fun s => ∃ ledger clients, s = initial ledger clients) (step B)

/-! ## What a step does -/

/-- The cases of `step`. -/
inductive Effect (B : Backend) (s : St H P) : Lbl H P → St H P → Prop
  | keep {l : Lbl H P} : Effect B s l s
  | validated {draft : Entry H .draft P} {ctx : SealContext} {e : Entry H .balanced P} (ok : draft.seal ctx = .ok e) :
      Effect B s (.validate draft ctx) { s with held := s.held ++ [e] }
  | dropped {e : Entry H .balanced P} : Effect B s (.drop e) { s with held := s.held.filter (· ≠ e) }
  | appended {batch : List (Entry H .balanced P)} {out : List (Recorded H)} {t : Tables H P}
      (held : ∀ e ∈ batch, e ∈ s.held) (ok : s.tables.append B s.nextXid batch = .ok (out, t)) :
      Effect B s (.append batch) { s with tables := t, nextXid := s.nextXid + 1 }
  | began {batch : List (Entry H .balanced P)} (held : ∀ e ∈ batch, e ∈ s.held) :
      Effect B s (.begin batch) { s with writers := s.writers ++ [(s.nextXid, batch)], nextXid := s.nextXid + 1 }
  | committed {xid : Nat} {w : Nat × List (Entry H .balanced P)} {t : Tables H P} (hw : w ∈ s.writers)
      (ok : s.tables.commitBatch B xid w.2 = some t) : Effect B s (.commit xid) { s.dropWriter xid with tables := t }
  | ended {l : Lbl H P} {xid : Nat} : Effect B s l (s.dropWriter xid)
  | sequenced {xmin n : Nat} {t : Tables H P} (ok : s.tables.sequence xmin = .ok (n, t)) :
      Effect B s (.sequence xmin) { s with tables := t }
  | registered {l : Lbl H P} {accounts : OrdMap AccountId Account} :
      Effect B s l { s with tables := { s.tables with accounts := accounts } }
  | defined {p : Period} (ok : definePeriod B s.tables.periods p = .ok (s.tables.periods.upsert p)) :
      Effect B s (.definePeriod p) { s with tables := { s.tables with periods := s.tables.periods.upsert p } }
  | reads {l : Lbl H P} {c c' : Client H P} (hc : s.clients[l.client]? = some c)
      (ok : Client.Reads B s.tables l c c') : Effect B s l (s.setClient l.client c')
  | updated {i : Nat} {id : PeriodId} {target : PeriodState} (hc : s.clients[i]? = some (.updating id target)) :
      Effect B s (.update i)
        { s.setClient i .idle with tables := { s.tables with periods := s.tables.periods.updateState id target } }
  | refused {i : Nat} : Effect B s (.commitSeal i) (s.setClient i .idle)
  | stored {i position : Nat} {p : Period} {x : Seal H} {t : Tables H P}
      (hc : s.clients[i]? = some (.built p position x)) (ok : s.tables.insertSeal position x = some t) :
      Effect B s (.commitSeal i) { s.setClient i .idle with tables := t }

theorem definePeriod_eq_ok {B : Backend} {t u : PeriodTable} {p : Period} (h : definePeriod B t p = .ok u) :
    u = t.upsert p := by
  cases B with
  | sqlite => exact (definePeriodSqlite_eq_ok.1 h).2.2
  | postgres => exact (definePeriodPostgres_eq_ok.1 h).2.2.2

theorem effect_of_readStep {B : Backend} {s s' : St H P} {l : Lbl H P} (h : s.readStep B l = some s') :
    Effect B s l s' := by
  unfold readStep at h
  split at h
  · cases h
  · rename_i c hc
    obtain ⟨c', hc', rfl⟩ := Option.map_eq_some_iff.1 h
    exact .reads hc (Client.reads_of_read hc')

theorem effect_of_step {B : Backend} {s s' : St H P} {l : Lbl H P} (h : s.step B l = some s') : Effect B s l s' := by
  cases l with
  | validate draft ctx =>
    simp only [step] at h
    split at h
    · cases h; exact .keep
    · rename_i e hok
      cases h
      exact .validated hok
  | drop e => cases h; exact .dropped
  | append batch =>
    simp only [step] at h
    split at h
    · rename_i hheld
      split at h
      · cases h; exact .keep
      · rename_i out t hok
        cases h
        exact .appended hheld hok
    · cases h
  | begin batch =>
    simp only [step] at h
    split at h
    · rename_i hb
      cases h
      exact .began hb.2
    · cases h
  | commit xid =>
    simp only [step] at h
    split at h
    · cases h
    · rename_i w hw
      split at h
      · cases h; exact .ended
      · rename_i t hok
        cases h
        exact .committed (List.mem_of_find?_eq_some hw) hok
  | abort xid => cases h; exact .ended
  | sequence xmin =>
    simp only [step] at h
    split at h
    · split at h
      · cases h; exact .keep
      · rename_i n t hok
        cases h
        exact .sequenced hok
    · cases h
  | registerAccount record =>
    simp only [step] at h
    split at h
    · cases h; exact .keep
    · rename_i t hok
      cases h
      obtain ⟨accounts, rfl⟩ := Tables.registerAccount_eq_ok hok
      exact .registered
  | definePeriod p =>
    simp only [step] at h
    split at h
    · cases h; exact .keep
    · rename_i u hok
      cases h
      obtain rfl := definePeriod_eq_ok hok
      exact .defined hok
  | update i =>
    simp only [step] at h
    split at h
    · rename_i id target hc
      cases h
      exact .updated hc
    · cases h
  | commitSeal i =>
    simp only [step] at h
    split at h
    · rename_i p position x hc
      split at h
      · cases h; exact .refused
      · rename_i t hok
        cases h
        exact .stored hc hok
    · cases h
  | readTransition i id target => exact effect_of_readStep h
  | readCalendar i id => exact effect_of_readStep h
  | readSpan i => exact effect_of_readStep h
  | readBalances i => exact effect_of_readStep h
  | readSeals i => exact effect_of_readStep h
  | readHead i => exact effect_of_readStep h
  | readAccounts i => exact effect_of_readStep h
  | fail i => exact effect_of_readStep h

/-! ## Sample runs -/

/-- What a caller validates against while March is open. -/
def marchOpen : SealContext :=
  ⟨(AccountRegistry.fromRecords [⟨cashId, cash⟩, ⟨salesId, sales⟩]).toOption.getD .new,
    (PeriodCalendar.fromPeriods [march]).toOption.getD .new, .permissive⟩

/-- Two accounts, March, and a validated sale in it. -/
def marchSale : List (Lbl Preimage cents) :=
  [.registerAccount ⟨cashId, cash⟩, .registerAccount ⟨salesId, sales⟩, .definePeriod march,
    .validate saleOfMarch marchOpen]

/-- March starts closing, and a client checks that it can be sealed. -/
def closeMarch : List (Lbl Preimage cents) :=
  [.readTransition 0 march.id .closing, .update 0, .readCalendar 0 march.id]

/-- That client seals March. -/
def sealMarch : List (Lbl Preimage cents) :=
  [.readSpan 0, .readBalances 0, .readSeals 0, .readHead 0, .readAccounts 0, .commitSeal 0]

/-- The sale as its validation returns it. -/
def soldInMarch : Entry Preimage .balanced cents := saleOfMarch.withState .balanced

/-- The state after a run from an empty database with one client. -/
def afterRun (B : Backend) (ls : List (Lbl Preimage cents)) : St Preimage cents :=
  (LTS.exec (step B) (initial books 1) ls).getD (initial books 1)

theorem reachable_afterRun {B : Backend} {ls : List (Lbl Preimage cents)}
    (h : (LTS.exec (step B) (initial books 1) ls).isSome) : (system B).Reachable (afterRun B ls) :=
  LTS.reachable_of_exec ls ⟨books, 1, rfl⟩ (LTS.exec_getD h)

section
variable {B : Backend} {ok : St Preimage cents → Lbl Preimage cents → Prop} [∀ s l, Decidable (ok s l)]
  {ls ms : List (Lbl Preimage cents)}

theorem reachable_restrict_afterRun (h : (LTS.exec (LTS.guarded ok (step B)) (initial books 1) ls).isSome) :
    ((system B).restrict ok).Reachable (afterRun B ls) :=
  LTS.reachable_restrict_of_exec ⟨books, 1, rfl⟩ h

theorem run_restrict_afterRun (h : (LTS.exec (LTS.guarded ok (step B)) (initial books 1) ls).isSome)
    (h' : (LTS.exec (LTS.guarded ok (step B)) (initial books 1) (ls ++ ms)).isSome) :
    ((system B).restrict ok).Run (afterRun B ls) ms (afterRun B (ls ++ ms)) :=
  LTS.run_restrict_of_exec h h'

end

end St

end DoubleEntry.L5
