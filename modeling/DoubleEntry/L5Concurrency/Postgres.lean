import DoubleEntry.Core.LTS
import DoubleEntry.Core.Slots
import DoubleEntry.L4Store.EntryLog

/-!
# Transactions on Postgres

Any number of transactions of `append`, inline or deferred, and of `sequence`,
statement by statement. Postgres is modelled by what the store relies on:

* a statement sees what is committed when it runs, and what its own transaction
  wrote (`Txn.view`): READ COMMITTED;
* `pg_advisory_xact_lock` and `FOR UPDATE` wait for the holder, and are held until
  the transaction ends;
* an `INSERT` takes a transaction id, does nothing if its key is there, and waits
  while another open transaction has a row it clashes with;
* `xmin` is the least id of an open transaction of the cluster.

The statements are those of `src/storage/postgres.rs:484-528` for the lock and the tail, `574-793`
for one entry and `1123-1227` for the two kinds of append and the pass. A deferred append starts
at its first entry and takes no append lock.

A statement that waits is not a step. A transaction may fail at any time
(`Label.fail`): a refusal of the database, a deadlock, a lost connection. The share
locks of foreign keys are left out, they only make statements wait; an upsert of an
account does not wait for `FOR UPDATE` either.

What one statement can do is said once, in `Txn.Next`, and what a step can do in `Db.Effect`;
the modules after this one take their invariants from there.
-/
namespace DoubleEntry.L5.Postgres

open DoubleEntry.Core DoubleEntry.L1 DoubleEntry.L2 DoubleEntry.L3 DoubleEntry.L4

/-! ## Transactions -/

/-- What runs in a transaction; `other` is one that writes neither entries nor subtrees. -/
inductive Job
  | inline
  | deferred
  | pass
  | other
  deriving DecidableEq

inductive Control (H : Type) (P : Scale)
  | lock
  | pick
  | nextIndex
  | subtrees
  | count (subtrees : List (Nat × H))
  | update (row : EntryRow H P)
  | clash (e : Entry H .balanced P)
  | reversal (e : Entry H .balanced P)
  | insert (e : Entry H .balanced P)
  | existing (e : Entry H .balanced P)
  | claim (e : Entry H .balanced P) (checked : List BalanceKey) (posting : Posting P) (postings : List (Posting P))
  | sum (e : Entry H .balanced P) (checked : List BalanceKey) (posting : Posting P) (postings : List (Posting P))
      (limit : BalanceLimit)
  | store
  | commit
  | ended

/-- What a call returned for an entry. -/
abbrev Answer (H : Type) (P : Scale) : Type := Entry H .balanced P × Recorded H

/-- `rows`, `placements` and `subtrees` are what it wrote. -/
structure Txn (H : Type) (P : Scale) where
  job : Job
  control : Control H P
  todo : List (Entry H .balanced P)
  picked : List (EntryRow H P)
  tail : Tail H
  out : List (Answer H P)
  xid : Option Nat
  appendLock : Bool
  accountLocks : List AccountId
  rows : List (EntryRow H P)
  placements : List (EntryId × (Nat × H))
  subtrees : Option (List (Nat × H))

section
variable {H : Type} {P : Scale}

/-- A row with its position set by an `UPDATE`. -/
def place (placements : List (EntryId × (Nat × H))) (r : EntryRow H P) : EntryRow H P :=
  match placements.lookup r.entry.id with
  | some p => { r with placed := some p }
  | none => r

/-- The unique columns two rows may not share: key, identifier, position, reversed entry. -/
def clashes (a b : EntryRow H P) : Bool :=
  a.entry.idempotencyKey = b.entry.idempotencyKey ∨ a.entry.id = b.entry.id ∨
    (a.placed.isSome ∧ a.placed.map Prod.fst = b.placed.map Prod.fst) ∨
    (a.entry.reverses.isSome ∧ a.entry.reverses = b.entry.reverses)

/-- mirrors src/storage/postgres.rs:777-781 -/
def permits (limit : BalanceLimit) (net : Int) : Bool :=
  match limit with
  | .unlimited => true
  | .noCreditBalance => 0 ≤ net
  | .noDebitBalance => net ≤ 0

/-- The key of a posting as `postings` has it. -/
def storedKey (p : Posting P) : BalanceKey := { p.key with account := Backend.postgres.handle p.account }

def limitOf (t : Tables H P) (account : AccountId) : BalanceLimit := (t.accounts.get? account).elim .unlimited (·.limit)

/-- The statement after an entry, and after the last. -/
def entryControl (job : Job) : List (Entry H .balanced P) → Control H P
  | e :: _ => .clash e
  | [] => if job = .inline then .store else .commit

def rowControl : List (EntryRow H P) → Control H P
  | r :: _ => .update r
  | [] => .store

/-- The first posting whose key was not checked, and those after it. -/
def unchecked (checked : List BalanceKey) : List (Posting P) → Option (Posting P × List (Posting P))
  | [] => none
  | p :: ps => if checked.contains p.key then unchecked checked ps else some (p, ps)

namespace Txn

/-- What a statement of the transaction sees. -/
def view (t : Txn H P) (committed : Tables H P) : Tables H P :=
  { committed with
    entries := (committed.entries ++ t.rows).map (place t.placements)
    subtrees := t.subtrees.getD committed.subtrees }

variable [Blake3 H]

/-- Committed or rolled back: nothing is held, nothing is written. -/
def finished : Txn H P := ⟨.other, .ended, [], [], ⟨0, .new⟩, [], none, false, [], [], [], none⟩

def nextEntry (t : Txn H P) : Txn H P := { t with control := entryControl t.job t.todo, todo := t.todo.tail }

def nextRow (t : Txn H P) : Txn H P := { t with control := rowControl t.picked, picked := t.picked.tail }

def start (job : Job) (batch : List (Entry H .balanced P)) : Txn H P :=
  let t : Txn H P := ⟨job, .lock, batch, [], ⟨0, .new⟩, [], none, false, [], [], [], none⟩
  match job with
  | .inline => t
  | .deferred => t.nextEntry
  | .pass => t
  | .other => { t with control := .commit }

/-- The row of a new entry. mirrors src/storage/postgres.rs:610-652 -/
def rowOf (t : Txn H P) (e : Entry H .balanced P) : EntryRow H P :=
  ⟨⟨Backend.postgres.stored e, e.contentHash⟩,
    if t.job = .inline then some (t.tail.place e.contentHash) else none, t.xid.getD 0⟩

/-- mirrors src/storage/postgres.rs:715-725 -/
def recordNew (t : Txn H P) (e : Entry H .balanced P) : Txn H P :=
  nextEntry { t with
    out := t.out ++ [(e, ⟨e.id, if t.job = .inline then some t.tail.nextIndex else none, e.contentHash, true⟩)]
    tail := if t.job = .inline then t.tail.push e.contentHash else t.tail }

/-- On to the next key of the loop of `check_limits`. -/
def nextClaim (t : Txn H P) (e : Entry H .balanced P) (checked : List BalanceKey) (ps : List (Posting P)) : Txn H P :=
  match unchecked checked ps with
  | none => t.recordNew e
  | some (p, ps) => { t with control := .claim e checked p ps }

/-- An entry whose key is there. mirrors src/storage/postgres.rs:654-679 -/
def recordExisting [DecidableEq H] (t : Txn H P) (e : Entry H .balanced P) (existing : EntryRow H P) : Txn H P :=
  if existing.contentHash ≠ e.contentHash then .finished
  else nextEntry { t with
    out := t.out ++ [(e, ⟨existing.entry.id, existing.placed.map Prod.fst, e.contentHash, false⟩)] }

/-- One statement, among the other transactions; an error rolls back. `none` while it waits.
mirrors src/storage/postgres.rs:484-528,574-793,1123-1227 -/
def next [DecidableEq H] (committed : Tables H P) (others : List (Txn H P)) (xmin : Nat) (t : Txn H P) :
    Option (Txn H P) :=
  let view := t.view committed
  match t.control with
  | .lock =>
    if others.any (·.appendLock) then none
    else some { t with appendLock := true, control := if t.job = .pass then .pick else .nextIndex }
  | .pick =>
    let rows := view.sequenceable xmin
    some { t with picked := rows, control := if rows.isEmpty then .commit else .nextIndex }
  | .nextIndex => some { t with tail := ⟨view.nextIndex, t.tail.accumulator⟩, control := .subtrees }
  | .subtrees => some { t with control := .count view.subtrees }
  | .count subtrees =>
    match MerkleAccumulator.tryFromParts subtrees view.sequencedCount with
    | .error _ => some .finished
    | .ok accumulator =>
      let t := { t with tail := ⟨t.tail.nextIndex, accumulator⟩ }
      some (if t.job = .pass then t.nextRow else t.nextEntry)
  | .update row =>
    some (nextRow { t with
      placements := (row.entry.id, t.tail.place row.contentHash) :: t.placements
      tail := t.tail.push row.contentHash })
  | .clash e =>
    if view.entries.any fun r => r.entry.id = e.id ∧ r.entry.idempotencyKey ≠ e.idempotencyKey then some .finished
    else some { t with control := if e.reverses.isSome then .reversal e else .insert e }
  | .reversal e =>
    match view.checkReverses e with
    | .error _ => some .finished
    | .ok _ => some { t with control := .insert e }
  | .insert e =>
    if !Backend.postgres.storesDates e then some .finished
    else
      match view.byKey e.idempotencyKey with
      | some _ => some { t with control := .existing e }
      | none =>
        let row := t.rowOf e
        if others.any fun u => u.rows.any fun r => clashes row r then none
        else
          match view.insertRow row with
          | none => some .finished
          | some _ => some (nextClaim { t with rows := t.rows ++ [row] } e [] e.postings)
  | .existing e =>
    match view.byKey e.idempotencyKey with
    | none => some .finished
    | some existing => some (t.recordExisting e existing)
  | .claim e checked p ps =>
    let account := Backend.postgres.handle p.account
    let limit := limitOf view account
    if limit = .unlimited then some (t.nextClaim e (p.key :: checked) ps)
    else if others.any fun u => account ∈ u.accountLocks then none
    else some { t with accountLocks := account :: t.accountLocks, control := .sum e checked p ps limit }
  | .sum e checked p ps limit =>
    let net := view.netMinor (storedKey p)
    if ¬ FitsI64 net then some .finished
    else if permits limit net then some (t.nextClaim e (p.key :: checked) ps)
    else some .finished
  | .store => some { t with subtrees := some t.tail.accumulator.subtrees, control := .commit }
  | .commit => none
  | .ended => none

/-- The statements that write take a transaction id first. -/
def takesXid (t : Txn H P) : Bool :=
  t.xid.isNone && match t.control with
    | .insert _ => true
    | .update _ => true
    | .commit => t.job = .other
    | _ => false

end Txn

/-! ## The database -/

/-- `commits` has what each committed transaction returned. -/
structure Db (H : Type) (P : Scale) where
  tables : Tables H P
  txns : List (Txn H P)
  nextXid : Nat
  commits : List (List (Answer H P))

inductive Label (H : Type) (P : Scale)
  | begin (job : Job) (batch : List (Entry H .balanced P))
  | statement (i : Nat)
  | fail (i : Nat)
  | registerAccount (record : AccountRecord)

namespace Db

/-- `pg_snapshot_xmin(pg_current_snapshot())` -/
def xmin (s : Db H P) : Nat := (s.txns.filterMap (·.xid)).min?.getD s.nextXid

/-- Every row, committed or not. -/
def rows (s : Db H P) : List (EntryRow H P) := s.tables.entries ++ s.txns.flatMap (·.rows)

variable [Blake3 H]

def setTxn (s : Db H P) (i : Nat) (t : Txn H P) : Db H P := { s with txns := s.txns.set i t }

def commit (s : Db H P) (i : Nat) (t : Txn H P) : Db H P :=
  { s with tables := t.view s.tables, txns := s.txns.set i .finished, commits := s.commits ++ [t.out] }

def statement [DecidableEq H] (s : Db H P) (i : Nat) (t : Txn H P) : Option (Db H P) :=
  if t.takesXid then some { s.setTxn i { t with xid := some s.nextXid } with nextXid := s.nextXid + 1 }
  else
    match t.control with
    | .commit => some (s.commit i t)
    | _ => (t.next s.tables (s.txns.eraseIdx i) s.xmin).map (s.setTxn i)

def step [DecidableEq H] (s : Db H P) : Label H P → Option (Db H P)
  | .begin job batch => some { s with txns := s.txns ++ [.start job batch] }
  | .statement i => s.txns[i]?.bind (s.statement i)
  | .fail i => s.txns[i]?.map fun _ => s.setTxn i .finished
  | .registerAccount record => (s.tables.registerAccount .postgres record).toOption.map fun t => { s with tables := t }

end Db

end

/-! ## What a statement can do -/

section
variable {H : Type} [Blake3 H] [DecidableEq H] {P : Scale} {committed : Tables H P} {others : List (Txn H P)}
  {xmin : Nat} {t t' : Txn H P}

namespace Txn

/-- The outcomes of a statement, with what it checked. -/
inductive Next (committed : Tables H P) (others : List (Txn H P)) (xmin : Nat) (t : Txn H P) : Txn H P → Prop
  | finished : Next committed others xmin t .finished
  | lock (control : t.control = .lock) (free : ∀ u ∈ others, u.appendLock = false) :
      Next committed others xmin t { t with
        appendLock := true, control := if t.job = .pass then .pick else .nextIndex }
  | pick (control : t.control = .pick) :
      Next committed others xmin t { t with
        picked := (t.view committed).sequenceable xmin
        control := if ((t.view committed).sequenceable xmin).isEmpty then .commit else .nextIndex }
  | nextIndex (control : t.control = .nextIndex) :
      Next committed others xmin t { t with
        tail := ⟨(t.view committed).nextIndex, t.tail.accumulator⟩, control := .subtrees }
  | subtrees (control : t.control = .subtrees) :
      Next committed others xmin t { t with control := .count (t.view committed).subtrees }
  | countRows {subtrees : List (Nat × H)} {accumulator : MerkleAccumulator H} (control : t.control = .count subtrees)
      (job : t.job = .pass)
      (parts : MerkleAccumulator.tryFromParts subtrees (t.view committed).sequencedCount = .ok accumulator) :
      Next committed others xmin t (nextRow { t with tail := ⟨t.tail.nextIndex, accumulator⟩ })
  | countEntries {subtrees : List (Nat × H)} {accumulator : MerkleAccumulator H}
      (control : t.control = .count subtrees) (job : t.job ≠ .pass)
      (parts : MerkleAccumulator.tryFromParts subtrees (t.view committed).sequencedCount = .ok accumulator) :
      Next committed others xmin t (nextEntry { t with tail := ⟨t.tail.nextIndex, accumulator⟩ })
  | update {row : EntryRow H P} (control : t.control = .update row) :
      Next committed others xmin t (nextRow { t with
        placements := (row.entry.id, t.tail.place row.contentHash) :: t.placements
        tail := t.tail.push row.contentHash })
  | unique {e : Entry H .balanced P} (control : t.control = .clash e) :
      Next committed others xmin t { t with control := if e.reverses.isSome then .reversal e else .insert e }
  | reversal {e : Entry H .balanced P} (control : t.control = .reversal e)
      (checked : (t.view committed).checkReverses e = .ok ()) :
      Next committed others xmin t { t with control := .insert e }
  | taken {e : Entry H .balanced P} (control : t.control = .insert e) :
      Next committed others xmin t { t with control := .existing e }
  | inserted {e : Entry H .balanced P} {seen : Tables H P} (control : t.control = .insert e)
      (fresh : (t.view committed).byKey e.idempotencyKey = none)
      (alone : ∀ u ∈ others, ∀ r ∈ u.rows, clashes (t.rowOf e) r = false)
      (holds : (t.view committed).insertRow (t.rowOf e) = some seen) :
      Next committed others xmin t (nextClaim { t with rows := t.rows ++ [t.rowOf e] } e [] e.postings)
  | replayed {e : Entry H .balanced P} {existing : EntryRow H P} (control : t.control = .existing e)
      (stored : (t.view committed).byKey e.idempotencyKey = some existing)
      (same : existing.contentHash = e.contentHash) :
      Next committed others xmin t (nextEntry { t with
        out := t.out ++ [(e, ⟨existing.entry.id, existing.placed.map Prod.fst, e.contentHash, false⟩)] })
  | unlimited {e : Entry H .balanced P} {checked : List BalanceKey} {p : Posting P} {ps : List (Posting P)}
      (control : t.control = .claim e checked p ps)
      (limit : limitOf committed (Backend.postgres.handle p.account) = .unlimited) :
      Next committed others xmin t (t.nextClaim e (p.key :: checked) ps)
  | claimed {e : Entry H .balanced P} {checked : List BalanceKey} {p : Posting P} {ps : List (Posting P)}
      (control : t.control = .claim e checked p ps)
      (free : ∀ u ∈ others, Backend.postgres.handle p.account ∉ u.accountLocks) :
      Next committed others xmin t { t with
        accountLocks := Backend.postgres.handle p.account :: t.accountLocks
        control := .sum e checked p ps (limitOf committed (Backend.postgres.handle p.account)) }
  | permitted {e : Entry H .balanced P} {checked : List BalanceKey} {p : Posting P} {ps : List (Posting P)}
      {limit : BalanceLimit} (control : t.control = .sum e checked p ps limit)
      (permits : permits limit ((t.view committed).netMinor (storedKey p)) = true) :
      Next committed others xmin t (t.nextClaim e (p.key :: checked) ps)
  | store (control : t.control = .store) :
      Next committed others xmin t { t with subtrees := some t.tail.accumulator.subtrees, control := .commit }

theorem next_cases (h : t.next committed others xmin = some t') : Next committed others xmin t t' := by
  unfold next at h
  cases hc : t.control with
  | lock =>
    simp only [hc] at h
    split at h
    · cases h
    · rename_i hfree
      cases h
      exact .lock hc (by simpa using hfree)
  | pick =>
    simp only [hc] at h
    cases h
    exact .pick hc
  | nextIndex =>
    simp only [hc] at h
    cases h
    exact .nextIndex hc
  | subtrees =>
    simp only [hc] at h
    cases h
    exact .subtrees hc
  | count subtrees =>
    simp only [hc] at h
    split at h
    · cases h
      exact .finished
    · rename_i hparts
      by_cases hjob : t.job = .pass
      · rw [if_pos hjob] at h
        cases h
        exact .countRows hc hjob hparts
      · rw [if_neg hjob] at h
        cases h
        exact .countEntries hc hjob hparts
  | update row =>
    simp only [hc] at h
    cases h
    exact .update hc
  | clash e =>
    simp only [hc] at h
    split at h
    · cases h
      exact .finished
    · cases h
      exact .unique hc
  | reversal e =>
    simp only [hc] at h
    split at h
    · cases h
      exact .finished
    · rename_i hok
      cases h
      exact .reversal hc hok
  | insert e =>
    simp only [hc] at h
    split at h
    · cases h
      exact .finished
    · split at h
      · cases h
        exact .taken hc
      · rename_i hfresh
        split at h
        · cases h
        · rename_i halone
          split at h
          · cases h
            exact .finished
          · rename_i seen hseen
            cases h
            exact .inserted hc hfresh (by simpa using halone) hseen
  | existing e =>
    simp only [hc] at h
    split at h
    · cases h
      exact .finished
    · rename_i existing hstored
      unfold recordExisting at h
      split at h
      · cases h
        exact .finished
      · rename_i hsame
        cases h
        exact .replayed hc hstored (not_not.1 hsame)
  | claim e checked p ps =>
    simp only [hc] at h
    split at h
    · rename_i hlimit
      cases h
      exact .unlimited hc hlimit
    · split at h
      · cases h
      · rename_i hfree
        cases h
        exact .claimed hc (by simpa using hfree)
  | sum e checked p ps limit =>
    simp only [hc] at h
    split at h
    · cases h
      exact .finished
    · split at h
      · rename_i hpermits
        cases h
        exact .permitted hc hpermits
      · cases h
        exact .finished
  | store =>
    simp only [hc] at h
    cases h
    exact .store hc
  | commit =>
    simp only [hc] at h
    cases h
  | ended =>
    simp only [hc] at h
    cases h

end Txn

namespace Db

/-- The outcomes of a step. -/
inductive Effect (s : Db H P) : Label H P → Db H P → Prop
  | begun (job : Job) (batch : List (Entry H .balanced P)) :
      Effect s (.begin job batch) { s with txns := s.txns ++ [.start job batch] }
  | xidTaken {i : Nat} {t : Txn H P} (slot : s.txns[i]? = some t) (takes : t.takesXid = true) :
      Effect s (.statement i) { s.setTxn i { t with xid := some s.nextXid } with nextXid := s.nextXid + 1 }
  | ran {i : Nat} {t t' : Txn H P} (slot : s.txns[i]? = some t) (takes : t.takesXid = false)
      (next : t.Next s.tables (s.txns.eraseIdx i) s.xmin t') : Effect s (.statement i) (s.setTxn i t')
  | committed {i : Nat} {t : Txn H P} (slot : s.txns[i]? = some t) (control : t.control = .commit) :
      Effect s (.statement i) (s.commit i t)
  | failed {i : Nat} {t : Txn H P} (slot : s.txns[i]? = some t) : Effect s (.fail i) (s.setTxn i .finished)
  | registered {record : AccountRecord} {tables : Tables H P}
      (ok : s.tables.registerAccount .postgres record = .ok tables) :
      Effect s (.registerAccount record) { s with tables := tables }

theorem step_cases {s s' : Db H P} {l : Label H P} (h : s.step l = some s') : s.Effect l s' := by
  cases l with
  | begin job batch =>
    cases h
    exact .begun job batch
  | statement i =>
    obtain ⟨t, ht, h⟩ := Option.bind_eq_some_iff.1 h
    unfold statement at h
    split at h
    · rename_i htakes
      cases h
      exact .xidTaken ht htakes
    · rename_i htakes
      split at h
      · rename_i hc
        cases h
        exact .committed ht hc
      · obtain ⟨t', hn, rfl⟩ := Option.map_eq_some_iff.1 h
        exact .ran ht (by simpa using htakes) (Txn.next_cases hn)
  | fail i =>
    obtain ⟨t, ht, rfl⟩ := Option.map_eq_some_iff.1 h
    exact .failed ht
  | registerAccount record =>
    obtain ⟨tables, hok, rfl⟩ := Option.map_eq_some_iff.1 h
    exact .registered (toOption_eq_some.1 hok)

end Db

/-- Any transactions on a database that starts without entries. -/
def postgres (ledger : LedgerId) : LTS (Db H P) (Label H P) :=
  .ofFn (fun s => s.tables = .empty ledger ∧ s.txns = [] ∧ s.commits = []) Db.step

end

/-! ## Positions and views -/

section
variable {H : Type} {P : Scale} {placements : List (EntryId × (Nat × H))} {r : EntryRow H P}

theorem place_cases (placements : List (EntryId × (Nat × H))) (r : EntryRow H P) :
    place placements r = { r with placed := (placements.lookup r.entry.id).or r.placed } := by
  unfold place
  cases placements.lookup r.entry.id <;> rfl

@[simp] theorem place_nil : place [] r = r := rfl

@[simp] theorem place_toLogged : (place placements r).toLogged = r.toLogged := by rw [place_cases]

@[simp] theorem place_insertXid : (place placements r).insertXid = r.insertXid := by rw [place_cases]

theorem place_cons (id : EntryId) (p : Nat × H) : place ((id, p) :: placements) r =
    if (place placements r).entry.id = id then { place placements r with placed := some p } else place placements r := by
  rw [place_toLogged]
  by_cases hid : r.entry.id = id
  · rw [if_pos hid, place_cases, place_cases, List.lookup_cons, hid, beq_self_eq_true]
    rfl
  · rw [if_neg hid, place_cases, place_cases, List.lookup_cons, beq_false_of_ne hid]

namespace Txn

variable {t : Txn H P} {committed : Tables H P}

theorem view_entries (h : t.placements = []) (committed : Tables H P) : (t.view committed).entries = committed.entries ++ t.rows := by
  unfold view
  rw [h]
  exact List.map_id _

/-- A view shows every row it can, but for their positions. -/
theorem leaves_view (t : Txn H P) (committed : Tables H P) :
    (t.view committed).entries.map (·.toLogged) = (committed.entries ++ t.rows).map (·.toLogged) := by
  unfold view
  rw [List.map_map]
  exact List.map_congr_left fun r _ => place_toLogged

theorem entries_view (t : Txn H P) (committed : Tables H P) :
    (t.view committed).entries.map (·.entry) = (committed.entries ++ t.rows).map (·.entry) := by
  have h := congrArg (List.map (·.entry)) (leaves_view t committed)
  simpa only [List.map_map, Function.comp_def] using h

theorem mem_view {x : EntryRow H P} (h : x ∈ committed.entries ++ t.rows) :
    ∃ y ∈ (t.view committed).entries, y.toLogged = x.toLogged ∧ y.insertXid = x.insertXid :=
  ⟨_, List.mem_map_of_mem h, place_toLogged, place_insertXid⟩

theorem of_mem_view {y : EntryRow H P} (h : y ∈ (t.view committed).entries) :
    ∃ x ∈ committed.entries ++ t.rows, x.toLogged = y.toLogged ∧ x.insertXid = y.insertXid := by
  obtain ⟨x, hx, rfl⟩ := List.mem_map.1 h
  exact ⟨x, hx, place_toLogged.symm, place_insertXid.symm⟩

end Txn

end

/-! ## Books with two accounts -/

/-- Both accounts of the books are registered, nothing is on file. -/
def opened : List (Label Preimage cents) := [.registerAccount ⟨cashId, cash⟩, .registerAccount ⟨salesId, sales⟩]

def emptyBooks : Db Preimage cents := ⟨.empty books, [], 3, []⟩

/-- The books after some steps. -/
def afterSteps (ls : List (Label Preimage cents)) : Db Preimage cents := (LTS.exec Db.step emptyBooks ls).getD emptyBooks

theorem reachable_afterSteps {ls : List (Label Preimage cents)} (h : (LTS.exec Db.step emptyBooks ls).isSome) :
    (postgres books).Reachable (afterSteps ls) :=
  LTS.reachable_of_exec ls ⟨rfl, rfl, rfl⟩ (LTS.exec_getD h)

theorem afterSteps_append {ls : List (Label Preimage cents)} (h : (LTS.exec Db.step emptyBooks ls).isSome)
    (ms : List (Label Preimage cents)) : afterSteps (ls ++ ms) = (LTS.exec Db.step (afterSteps ls) ms).getD emptyBooks := by
  have hexec : LTS.exec Db.step emptyBooks ls = some (afterSteps ls) := LTS.exec_getD h
  rw [afterSteps, LTS.exec_append, hexec]
  rfl

theorem step_afterSteps {ls : List (Label Preimage cents)} {l : Label Preimage cents}
    (h : (LTS.exec Db.step emptyBooks ls).isSome) (hl : ((afterSteps ls).step l).isSome) :
    (postgres books).step (afterSteps ls) l (afterSteps (ls ++ [l])) := by
  obtain ⟨s, hs⟩ := Option.isSome_iff_exists.1 hl
  have hend : afterSteps (ls ++ [l]) = s := by
    rw [afterSteps_append h, LTS.exec, hs]
    rfl
  rw [hend]
  exact hs

theorem run_afterSteps {ls ms : List (Label Preimage cents)} (h : (LTS.exec Db.step emptyBooks ls).isSome)
    (hms : (LTS.exec Db.step (afterSteps ls) ms).isSome) :
    (postgres books).Run (afterSteps ls) ms (afterSteps (ls ++ ms)) := by
  rw [afterSteps_append h]
  exact LTS.run_of_exec (LTS.exec_getD hms)

theorem run_restrict_afterSteps {ok : Db Preimage cents → Label Preimage cents → Prop} [∀ s l, Decidable (ok s l)]
    {ls ms : List (Label Preimage cents)} (h : (LTS.exec Db.step emptyBooks ls).isSome)
    (hms : (LTS.exec (LTS.guarded ok Db.step) (afterSteps ls) ms).isSome) :
    ((postgres books).restrict ok).Run (afterSteps ls) ms (afterSteps (ls ++ ms)) := by
  have hend : LTS.exec (LTS.guarded ok Db.step) (afterSteps ls) ms = some (afterSteps (ls ++ ms)) := by
    rw [afterSteps_append h]
    exact LTS.exec_guarded_getD hms
  unfold postgres
  rw [LTS.restrict_ofFn]
  exact LTS.run_of_exec hend

end DoubleEntry.L5.Postgres
