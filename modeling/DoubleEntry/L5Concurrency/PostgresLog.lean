import DoubleEntry.L4Store.SqlLog
import DoubleEntry.L5Concurrency.PostgresRows

/-!
# The log across transactions

One transaction at a time holds the append lock, and only the holder places rows.
What it sees is the committed log and what it placed so far (`Txn.Holds`); the others
commit rows without a position, which leave both alone. So the committed rows are
a log at any time, and it only grows (`LogState.step`).

Where a transaction is decides what it keeps (`Txn.InLogAt`):
* before the lock it wrote nothing (`Txn.WroteNothing`);
* the rows of a deferred append, which takes no lock, have no position (`Txn.Defers`);
* under the lock, until it writes, it sees the committed log (`Txn.Reads`);
* an append sees that log with its new entries behind it (`Txn.Appends`);
* a pass sees it with the rows it placed, and has the others still to place (`Txn.Places`);
* at its end it leaves a log that goes on from the committed one (`Txn.Leaves`).

**Results.**
* `InLog.grow`, `InLog.other`: other transactions commit.
* `Next.inLog`: a statement of the transaction itself.
* `InLog.unlocked_commit`: a commit without the lock places nothing.
* `Next.appendLock`: the lock has one holder.
* `LogState.step`, `logState_of_run`: the committed log, in every run.
-/
namespace DoubleEntry.L5.Postgres

open DoubleEntry.Core DoubleEntry.L1 DoubleEntry.L2 DoubleEntry.L3 DoubleEntry.L4

/-! ## Rows without a position -/

section
variable {H : Type} {P : Scale} {s : Db H P} {i : Nat} {t : Txn H P} {committed : Tables H P}

def Unplaced (rows : List (EntryRow H P)) : Prop := ∀ r ∈ rows, r.placed = none

theorem placedRows_unplaced {rows : List (EntryRow H P)} (h : Unplaced rows) : placedRows rows = [] :=
  List.filterMap_eq_nil_iff.2 fun r hr => by rw [h r hr]; rfl

/-- Rows an `UPDATE` does not name keep their position. -/
theorem place_other {placements : List (EntryId × (Nat × H))} {r : EntryRow H P}
    (h : r.entry.id ∉ placements.map Prod.fst) : place placements r = r := by
  have hnone : placements.lookup r.entry.id = none := by
    refine List.lookup_eq_none_iff.2 fun p hp => ?_
    exact bne_iff_ne.2 fun e => h (e ▸ List.mem_map_of_mem hp)
  rw [place_cases, hnone, Option.none_or]

/-- New rows without a position are all that changed in the log's columns. -/
structure Grows (committed committed' : Tables H P) (rows : List (EntryRow H P)) : Prop where
  entries : committed'.entries = committed.entries ++ rows
  subtrees : committed'.subtrees = committed.subtrees
  unplaced : Unplaced rows
  fresh : ∀ r ∈ rows, r.entry.id ∉ committed.entries.map (·.entry.id)

/-- What a transaction sees when others commit rows it does not place. -/
theorem Grows.placedRows_view {committed' : Tables H P} {rows : List (EntryRow H P)} (g : Grows committed committed' rows)
    (hids : ∀ id ∈ t.placements.map Prod.fst, id ∈ committed.entries.map (·.entry.id)) :
    placedRows (t.view committed').entries = placedRows (t.view committed).entries := by
  have hsame : rows.map (place t.placements) = rows := by
    refine (List.map_congr_left fun r hr => ?_).trans (List.map_id rows)
    exact place_other fun hid => g.fresh r hr (hids _ hid)
  unfold Txn.view
  simp only [g.entries, List.map_append, placedRows_append, hsame, placedRows_unplaced g.unplaced, List.append_nil]

/-- An `UPDATE` of a row the transaction sees. -/
theorem view_update {t' : Txn H P} {id : EntryId} {p : Nat × H} (hrows : t'.rows = t.rows)
    (hplacements : t'.placements = (id, p) :: t.placements) :
    (t'.view committed).entries = ((t.view committed).updatePlaced id p).entries := by
  unfold Txn.view Tables.updatePlaced
  rw [hrows, hplacements, List.map_map]
  exact List.map_congr_left fun r _ => place_cons id p

theorem view_insert (h : t.placements = []) (r : EntryRow H P) :
    ({ t with rows := t.rows ++ [r] }.view committed).entries = (t.view committed).entries ++ [r] := by
  rw [Txn.view_entries h, Txn.view_entries (t := { t with rows := t.rows ++ [r] }) h, List.append_assoc]

theorem RowsInv.view (h : RowsInv s) (slot : s.txns[i]? = some t) :
    ((t.view s.tables).entries.map (·.entry)).Pairwise Apart ∧
      ∀ e ∈ (t.view s.tables).entries.map (·.entry), ∀ p ∈ e.postings, 0 < p.amount.minor := by
  have hp := (Db.rows_slot slot).map (·.entry)
  rw [List.map_append] at hp
  have hall := (hp.pairwise_iff Apart.symm).1 h.apart
  rw [Txn.entries_view]
  exact ⟨(List.pairwise_append.1 hall).1, fun e he => h.positive e (hp.mem_iff.2 (List.mem_append_left _ he))⟩

theorem RowsInv.rowsOf_view [Blake3 H] (h : RowsInv s) (slot : s.txns[i]? = some t) {log : List (Logged H P)}
    (hl : LogOf (t.view s.tables).entries log) : RowsOf (t.view s.tables).entries log where
  logOf := hl
  unique := by
    have hapart := List.pairwise_map.1 (h.view slot).1
    exact List.pairwise_map.2 (hapart.imp fun ha => ha.id)
  positive r hr := (h.view slot).2 _ (List.mem_map_of_mem hr)

end

/-! ## The holder of the append lock -/

section
variable {H : Type} [Blake3 H] {P : Scale} {committed : Tables H P} {log : List (Logged H P)} {t t' : Txn H P}

omit [Blake3 H] in
structure Txn.WroteNothing (t : Txn H P) : Prop where
  rows : t.rows = []
  placements : t.placements = []
  subtrees : t.subtrees = none

omit [Blake3 H] in
/-- A deferred append: no lock, and its rows have no position. -/
structure Txn.Defers (t : Txn H P) : Prop where
  job : t.job = .deferred
  appendLock : t.appendLock = false
  placements : t.placements = []
  subtrees : t.subtrees = none
  rows : Unplaced t.rows

/-- The holder sees the log with `more` at its end. `pending` is the leaf whose row is
inserted while the tail is still before it. -/
structure Txn.Holds (committed : Tables H P) (log more pending : List (Logged H P)) (t : Txn H P) : Prop where
  appendLock : t.appendLock = true
  subtrees : t.subtrees = none
  placements : ∀ id ∈ t.placements.map Prod.fst, id ∈ committed.entries.map (·.entry.id)
  logOf : LogOf (t.view committed).entries (log ++ more ++ pending)
  tailOf : TailOf t.tail (log ++ more)

/-- An inline append under the lock. -/
structure Txn.Appends (committed : Tables H P) (log more pending : List (Logged H P)) (t : Txn H P) : Prop extends
    Txn.Holds committed log more pending t where
  job : t.job = .inline
  updates : t.placements = []
  inserted : ∀ r ∈ t.rows, r.placed.isSome

/-- A pass under the lock, with the rows left to place. -/
structure Txn.Places (committed : Tables H P) (log more : List (Logged H P)) (rows : List (EntryRow H P)) (t : Txn H P) :
    Prop extends Txn.Holds committed log more [] t where
  job : t.job = .pass
  inserted : t.rows = []
  left : ∀ r ∈ rows, r ∈ (t.view committed).entries ∧ r.placed = none
  distinct : (rows.map (·.entry.id)).Nodup

/-- Under the lock, with nothing written; a pass knows its rows. -/
structure Txn.Reads (committed : Tables H P) (t : Txn H P) : Prop extends t.WroteNothing where
  appendLock : t.appendLock = true
  job : t.job = .inline ∨ t.job = .pass
  left : ∀ r ∈ t.picked, r ∈ committed.entries ∧ r.placed = none
  distinct : (t.picked.map (·.entry.id)).Nodup

/-- What a holder leaves behind: a log that goes on from the committed one. An append
placed no row of another, and a pass inserted none. -/
structure Txn.Leaves (committed : Tables H P) (log : List (Logged H P)) (t : Txn H P) : Prop where
  appendLock : t.appendLock = true
  writes : t.placements = [] ∨ (t.job = .pass ∧ t.rows = [])
  placements : ∀ id ∈ t.placements.map Prod.fst, id ∈ committed.entries.map (·.entry.id)
  stored : ∃ more, LogOf (t.view committed).entries (log ++ more) ∧
    (⟨(t.view committed).subtrees, (log ++ more).length⟩ : MerkleAccumulator H).Covers (hashes (log ++ more))

/-- What holds of a transaction before each statement, for the committed log. -/
def Txn.InLogAt (committed : Tables H P) (log : List (Logged H P)) (t : Txn H P) : Control H P → Prop
  | .lock => t.WroteNothing ∧ t.appendLock = false ∧ t.picked = [] ∧ (t.job = .inline ∨ t.job = .pass)
  | .pick => t.WroteNothing ∧ t.appendLock = true ∧ t.job = .pass
  | .nextIndex => t.Reads committed
  | .subtrees => t.Reads committed ∧ t.tail.nextIndex = log.length
  | .count subtrees => t.Reads committed ∧ t.tail.nextIndex = log.length ∧ subtrees = committed.subtrees
  | .update row => ∃ more, t.Places committed log more (row :: t.picked)
  | .clash _ => t.Defers ∨ ∃ more, t.Appends committed log more []
  | .reversal _ => t.Defers ∨ ∃ more, t.Appends committed log more []
  | .insert _ => t.Defers ∨ ∃ more, t.Appends committed log more []
  | .existing _ => t.Defers ∨ ∃ more, t.Appends committed log more []
  | .claim e _ _ _ => t.Defers ∨ ∃ more x, x.contentHash = e.contentHash ∧ t.Appends committed log more [x]
  | .sum e _ _ _ _ => t.Defers ∨ ∃ more x, x.contentHash = e.contentHash ∧ t.Appends committed log more [x]
  | .store => ∃ more, t.Appends committed log more [] ∨ t.Places committed log more []
  | .commit => t.Defers ∨ (t.WroteNothing ∧ t.appendLock = false ∧ t.job = .other) ∨ t.Leaves committed log
  | .ended => t.WroteNothing ∧ t.appendLock = false

def Txn.InLog (committed : Tables H P) (log : List (Logged H P)) (t : Txn H P) : Prop :=
  t.InLogAt committed log t.control

namespace Txn

/-! ### What others commit -/

section
variable {committed' : Tables H P} {rows : List (EntryRow H P)}

theorem Holds.grow {more pending : List (Logged H P)} (h : t.Holds committed log more pending)
    (g : Grows committed committed' rows) : t.Holds committed' log more pending where
  appendLock := h.appendLock
  subtrees := h.subtrees
  placements id hid := by
    rw [g.entries, List.map_append]
    exact List.mem_append_left _ (h.placements id hid)
  logOf := by
    unfold LogOf
    rw [g.placedRows_view h.placements]
    exact h.logOf
  tailOf := h.tailOf

theorem Places.grow {more : List (Logged H P)} {left : List (EntryRow H P)} (h : t.Places committed log more left)
    (g : Grows committed committed' rows) : t.Places committed' log more left where
  toHolds := h.toHolds.grow g
  job := h.job
  inserted := h.inserted
  left r hr := by
    obtain ⟨hm, hr⟩ := h.left r hr
    refine ⟨?_, hr⟩
    obtain ⟨y, hy, rfl⟩ := List.mem_map.1 hm
    refine List.mem_map_of_mem ?_
    rw [g.entries]
    exact List.mem_append.2 ((List.mem_append.1 hy).imp_left (List.mem_append_left _))
  distinct := h.distinct

theorem Leaves.grow (h : t.Leaves committed log) (g : Grows committed committed' rows) : t.Leaves committed' log where
  appendLock := h.appendLock
  writes := h.writes
  placements id hid := by
    rw [g.entries, List.map_append]
    exact List.mem_append_left _ (h.placements id hid)
  stored := by
    obtain ⟨more, hlog, hcovers⟩ := h.stored
    refine ⟨more, ?_, ?_⟩
    · unfold LogOf
      rw [g.placedRows_view h.placements]
      exact hlog
    · unfold view at hcovers ⊢
      rw [g.subtrees]
      exact hcovers

omit [Blake3 H] in
theorem Reads.grow (h : t.Reads committed) (g : Grows committed committed' rows) : t.Reads committed' where
  toWroteNothing := h.toWroteNothing
  appendLock := h.appendLock
  job := h.job
  left r hr := by
    rw [g.entries]
    exact ⟨List.mem_append_left _ (h.left r hr).1, (h.left r hr).2⟩
  distinct := h.distinct

theorem Appends.grow {more pending : List (Logged H P)} (h : t.Appends committed log more pending)
    (g : Grows committed committed' rows) : t.Appends committed' log more pending :=
  ⟨h.toHolds.grow g, h.job, h.updates, h.inserted⟩

/-- Rows without a position are committed: the log stays, and every other transaction in it. -/
theorem InLog.grow (h : t.InLog committed log) (g : Grows committed committed' rows) : t.InLog committed' log := by
  unfold InLog at h ⊢
  cases hc : t.control with
  | lock => rwa [hc] at h
  | pick => rwa [hc] at h
  | nextIndex =>
    rw [hc] at h
    exact h.grow g
  | subtrees =>
    rw [hc] at h
    exact ⟨h.1.grow g, h.2⟩
  | count subtrees =>
    rw [hc] at h
    exact ⟨h.1.grow g, h.2.1, h.2.2.trans g.subtrees.symm⟩
  | update row =>
    rw [hc] at h
    obtain ⟨more, h⟩ := h
    exact ⟨more, h.grow g⟩
  | clash e =>
    rw [hc] at h
    exact h.imp_right fun ⟨more, h⟩ => ⟨more, h.grow g⟩
  | reversal e =>
    rw [hc] at h
    exact h.imp_right fun ⟨more, h⟩ => ⟨more, h.grow g⟩
  | insert e =>
    rw [hc] at h
    exact h.imp_right fun ⟨more, h⟩ => ⟨more, h.grow g⟩
  | existing e =>
    rw [hc] at h
    exact h.imp_right fun ⟨more, h⟩ => ⟨more, h.grow g⟩
  | claim e checked p ps =>
    rw [hc] at h
    exact h.imp_right fun ⟨more, x, hx, h⟩ => ⟨more, x, hx, h.grow g⟩
  | sum e checked p ps limit =>
    rw [hc] at h
    exact h.imp_right fun ⟨more, x, hx, h⟩ => ⟨more, x, hx, h.grow g⟩
  | store =>
    rw [hc] at h
    obtain ⟨more, h⟩ := h
    exact ⟨more, h.imp (·.grow g) (·.grow g)⟩
  | commit =>
    rw [hc] at h
    exact h.imp_right (.imp_right fun h => h.grow g)
  | ended => rwa [hc] at h

end

/-- Without the lock, what is committed does not matter. -/
theorem InLog.other (h : t.InLog committed log) (hfree : t.appendLock = false) (committed' : Tables H P)
    (log' : List (Logged H P)) : t.InLog committed' log' := by
  have held : ∀ {q : Prop}, t.appendLock = true → q := fun h => absurd (hfree.symm.trans h) Bool.false_ne_true
  unfold InLog at h ⊢
  cases hc : t.control with
  | lock => rwa [hc] at h
  | pick =>
    rw [hc] at h
    exact held h.2.1
  | nextIndex =>
    rw [hc] at h
    exact held h.appendLock
  | subtrees =>
    rw [hc] at h
    exact held h.1.appendLock
  | count subtrees =>
    rw [hc] at h
    exact held h.1.appendLock
  | update row =>
    rw [hc] at h
    obtain ⟨more, h⟩ := h
    exact held h.appendLock
  | clash e =>
    rw [hc] at h
    exact h.imp_right fun ⟨_, h⟩ => held h.appendLock
  | reversal e =>
    rw [hc] at h
    exact h.imp_right fun ⟨_, h⟩ => held h.appendLock
  | insert e =>
    rw [hc] at h
    exact h.imp_right fun ⟨_, h⟩ => held h.appendLock
  | existing e =>
    rw [hc] at h
    exact h.imp_right fun ⟨_, h⟩ => held h.appendLock
  | claim e checked p ps =>
    rw [hc] at h
    exact h.imp_right fun ⟨_, _, _, h⟩ => held h.appendLock
  | sum e checked p ps limit =>
    rw [hc] at h
    exact h.imp_right fun ⟨_, _, _, h⟩ => held h.appendLock
  | store =>
    rw [hc] at h
    obtain ⟨more, h⟩ := h
    exact held (h.elim (·.appendLock) (·.appendLock))
  | commit =>
    rw [hc] at h
    exact h.imp_right (.imp_right fun h => held h.appendLock)
  | ended => rwa [hc] at h

/-! ### Statements -/

theorem inLog_finished : (finished : Txn H P).InLog committed log := ⟨⟨rfl, rfl, rfl⟩, rfl⟩

omit [Blake3 H] in
theorem WroteNothing.view_eq (h : t.WroteNothing) (committed : Tables H P) : t.view committed = committed := by
  have hentries := view_entries h.placements committed
  rw [h.rows, List.append_nil] at hentries
  have hsubtrees : (t.view committed).subtrees = committed.subtrees := by rw [view, h.subtrees, Option.getD_none]
  unfold view at hentries hsubtrees ⊢
  simp only at hentries hsubtrees
  rw [hentries, hsubtrees]

/-- Nothing written and no lock taken between two statements. -/
structure SameWrites (t t' : Txn H P) : Prop where
  job : t'.job = t.job
  appendLock : t'.appendLock = t.appendLock
  rows : t'.rows = t.rows
  placements : t'.placements = t.placements
  subtrees : t'.subtrees = t.subtrees

omit [Blake3 H] in
theorem SameWrites.view (h : SameWrites t t') (committed : Tables H P) : t'.view committed = t.view committed := by
  unfold Txn.view
  rw [h.rows, h.placements, h.subtrees]

omit [Blake3 H] in
theorem WroteNothing.frame (h : t.WroteNothing) (hs : SameWrites t t') : t'.WroteNothing :=
  ⟨hs.rows.trans h.rows, hs.placements.trans h.placements, hs.subtrees.trans h.subtrees⟩

omit [Blake3 H] in
theorem Defers.frame (h : t.Defers) (hs : SameWrites t t') : t'.Defers :=
  ⟨hs.job.trans h.job, hs.appendLock.trans h.appendLock, hs.placements.trans h.placements, hs.subtrees.trans h.subtrees,
    hs.rows ▸ h.rows⟩

theorem Holds.frame {more pending : List (Logged H P)} (h : t.Holds committed log more pending) (hs : SameWrites t t')
    (htail : t'.tail = t.tail) : t'.Holds committed log more pending :=
  ⟨hs.appendLock.trans h.appendLock, hs.subtrees.trans h.subtrees, hs.placements ▸ h.placements,
    hs.view committed ▸ h.logOf, htail ▸ h.tailOf⟩

theorem Appends.frame {more pending : List (Logged H P)} (h : t.Appends committed log more pending)
    (hs : SameWrites t t') (htail : t'.tail = t.tail) : t'.Appends committed log more pending :=
  ⟨h.toHolds.frame hs htail, hs.job.trans h.job, hs.placements.trans h.updates, hs.rows ▸ h.inserted⟩

theorem Places.frame {more : List (Logged H P)} {rows : List (EntryRow H P)} (h : t.Places committed log more rows)
    (hs : SameWrites t t') (htail : t'.tail = t.tail) : t'.Places committed log more rows :=
  ⟨h.toHolds.frame hs htail, hs.job.trans h.job, hs.rows.trans h.inserted,
    hs.view committed ▸ h.left, h.distinct⟩

omit [Blake3 H] in
theorem Reads.frame (h : t.Reads committed) (hs : SameWrites t t') (hpicked : t'.picked = t.picked) :
    t'.Reads committed :=
  ⟨h.toWroteNothing.frame hs, hs.appendLock.trans h.appendLock, hs.job ▸ h.job, hpicked ▸ h.left, hpicked ▸ h.distinct⟩

theorem inLog_nextEntry (h : t.Defers ∨ ∃ more, t.Appends committed log more []) : t.nextEntry.InLog committed log := by
  unfold InLog nextEntry
  cases htodo : t.todo with
  | cons e es =>
    exact h.imp (fun h => h.frame ⟨rfl, rfl, rfl, rfl, rfl⟩) fun ⟨more, h⟩ => ⟨more, h.frame ⟨rfl, rfl, rfl, rfl, rfl⟩ rfl⟩
  | nil =>
    rcases h with hd | ⟨more, ha⟩
    · have hjob : t.job ≠ .inline := by simp [hd.job]
      simp only [entryControl, if_neg hjob]
      exact .inl (hd.frame ⟨rfl, rfl, rfl, rfl, rfl⟩)
    · simp only [entryControl, if_pos ha.job]
      exact ⟨more, .inl (ha.frame ⟨rfl, rfl, rfl, rfl, rfl⟩ rfl)⟩

theorem inLog_nextRow (more : List (Logged H P)) (h : t.Places committed log more t.picked) :
    t.nextRow.InLog committed log := by
  unfold InLog nextRow
  cases hpicked : t.picked with
  | cons r rs =>
    rw [hpicked] at h
    exact ⟨more, h.frame ⟨rfl, rfl, rfl, rfl, rfl⟩ rfl⟩
  | nil =>
    rw [hpicked] at h
    exact ⟨more, .inr (h.frame ⟨rfl, rfl, rfl, rfl, rfl⟩ rfl)⟩

theorem inLog_nextClaim {e : Entry H .balanced P} {checked : List BalanceKey} {ps : List (Posting P)}
    (h : t.Defers ∨ ∃ more x, x.contentHash = e.contentHash ∧ t.Appends committed log more [x]) :
    (t.nextClaim e checked ps).InLog committed log := by
  obtain ⟨-, heq⟩ | ⟨p, rest, -, heq⟩ := t.nextClaim_cases e checked ps <;> rw [heq]
  · refine inLog_nextEntry (h.imp (fun h => h.frame ⟨rfl, rfl, rfl, rfl, rfl⟩) fun ⟨more, x, hx, h⟩ => ?_)
    refine ⟨more ++ [x], ⟨h.appendLock, h.subtrees, h.placements, ?_, ?_⟩, h.job, h.updates, h.inserted⟩
    · rw [List.append_nil, ← List.append_assoc]
      exact h.logOf
    · simp only [if_pos h.job]
      rw [← hx, ← List.append_assoc]
      exact h.tailOf.push
  · exact h.imp (fun h => h.frame ⟨rfl, rfl, rfl, rfl, rfl⟩) fun ⟨more, x, hx, h⟩ =>
      ⟨more, x, hx, h.frame ⟨rfl, rfl, rfl, rfl, rfl⟩ rfl⟩

theorem Leaves.frame (h : t.Leaves committed log) (hs : SameWrites t t') : t'.Leaves committed log :=
  ⟨hs.appendLock.trans h.appendLock,
    h.writes.imp (hs.placements.trans ·) fun h => ⟨hs.job.trans h.1, hs.rows.trans h.2⟩, hs.placements ▸ h.placements,
    hs.view committed ▸ h.stored⟩

/-- The tail a holder read continues the committed log. -/
theorem Reads.tailOf {subtrees : List (Nat × H)} {accumulator : MerkleAccumulator H} (h : t.Reads committed)
    (hl : committed.LogInv log) (hindex : t.tail.nextIndex = log.length) (hsubtrees : subtrees = committed.subtrees)
    (parts : MerkleAccumulator.tryFromParts subtrees (t.view committed).sequencedCount = .ok accumulator) :
    TailOf ⟨t.tail.nextIndex, accumulator⟩ log := by
  rw [h.toWroteNothing.view_eq, hsubtrees] at parts
  refine Tables.tailOf hl ?_
  unfold Tables.tail
  rw [parts, hindex, committed.nextIndex_eq hl.logOf]

/-- A statement of a transaction keeps it in the log. -/
theorem Next.inLog {others : List (Txn H P)} {xmin : Nat} (next : t.Next committed others xmin t')
    (h : t.InLog committed log) (hl : committed.LogInv log)
    (hview : ∀ {log}, LogOf (t.view committed).entries log → RowsOf (t.view committed).entries log) :
    t'.InLog committed log := by
  have at_control : ∀ {control : Control H P}, t.control = control → t.InLogAt committed log control :=
    fun hc => by rwa [← hc]
  cases next with
  | finished => exact inLog_finished
  | lock control free =>
    obtain ⟨hnone, -, hpicked, hjob⟩ := at_control control
    unfold InLog
    by_cases hpass : t.job = .pass
    · simp only [if_pos hpass]
      exact ⟨⟨hnone.1, hnone.2, hnone.3⟩, rfl, hpass⟩
    · simp only [if_neg hpass]
      exact ⟨⟨hnone.1, hnone.2, hnone.3⟩, rfl, hjob, by simp [hpicked], by simp [hpicked]⟩
  | pick control =>
    obtain ⟨hnone, hlock, hjob⟩ := at_control control
    have hview := hnone.view_eq committed
    unfold InLog
    by_cases hempty : ((t.view committed).sequenceable xmin).isEmpty
    · simp only [if_pos hempty]
      refine .inr (.inr ⟨hlock, .inl hnone.placements, by simp [hnone.placements], [], ?_⟩)
      rw [List.append_nil]
      exact ⟨hview.symm ▸ hl.logOf, hview.symm ▸ hl.covers⟩
    · simp only [if_neg hempty]
      rw [hview]
      exact ⟨⟨hnone.1, hnone.2, hnone.3⟩, hlock, .inr hjob, fun r hr => (Tables.mem_sequenceable.1 hr).imp_right And.left,
        Tables.unique_sequenceable hl.unique⟩
  | nextIndex control =>
    have hr : t.Reads committed := at_control control
    refine ⟨hr.frame ⟨rfl, rfl, rfl, rfl, rfl⟩ rfl, ?_⟩
    show (t.view committed).nextIndex = log.length
    rw [hr.toWroteNothing.view_eq, committed.nextIndex_eq hl.logOf]
  | subtrees control =>
    obtain ⟨hr, hindex⟩ := at_control control
    refine ⟨hr.frame ⟨rfl, rfl, rfl, rfl, rfl⟩ rfl, hindex, ?_⟩
    rw [hr.toWroteNothing.view_eq]
  | countRows control job parts =>
    obtain ⟨hr, hindex, hsubtrees⟩ := at_control control
    refine inLog_nextRow [] ⟨⟨hr.appendLock, hr.subtrees, by simp [hr.placements], ?_, ?_⟩, job, hr.rows, ?_,
      hr.distinct⟩
    · rw [List.append_nil, List.append_nil]
      show LogOf (t.view committed).entries log
      rw [hr.toWroteNothing.view_eq]
      exact hl.logOf
    · rw [List.append_nil]
      exact hr.tailOf hl hindex hsubtrees parts
    · show ∀ r ∈ t.picked, r ∈ (t.view committed).entries ∧ r.placed = none
      rw [hr.toWroteNothing.view_eq]
      exact hr.left
  | countEntries control job parts =>
    obtain ⟨hr, hindex, hsubtrees⟩ := at_control control
    refine inLog_nextEntry (.inr ⟨[], ⟨hr.appendLock, hr.subtrees, by simp [hr.placements], ?_, ?_⟩,
      hr.job.resolve_right job, hr.placements, fun r hm => ?_⟩)
    · rw [List.append_nil, List.append_nil]
      show LogOf (t.view committed).entries log
      rw [hr.toWroteNothing.view_eq]
      exact hl.logOf
    · rw [List.append_nil]
      exact hr.tailOf hl hindex hsubtrees parts
    · rw [show t.rows = [] from hr.rows] at hm
      cases hm
  | @update row control =>
    obtain ⟨more, h⟩ := at_control control
    obtain ⟨hmem, hnone⟩ := h.left row List.mem_cons_self
    have hdistinct := List.nodup_cons.1 h.distinct
    have hlog := h.logOf
    rw [List.append_nil] at hlog
    have hrows := (hview hlog).updatePlaced h.tailOf hmem hnone
    have hseen : (Txn.view { t with
        placements := (row.entry.id, t.tail.place row.contentHash) :: t.placements
        tail := t.tail.push row.contentHash } committed).entries =
        ((t.view committed).updatePlaced row.entry.id (t.tail.place row.contentHash)).entries := view_update rfl rfl
    refine inLog_nextRow (more ++ [row.toLogged]) ⟨⟨h.appendLock, h.subtrees, ?_, ?_, ?_⟩, h.job, h.inserted, ?_,
      hdistinct.2⟩
    · intro id hid
      rcases List.mem_cons.1 hid with rfl | hid
      · obtain ⟨x, hx, hlogged, -⟩ := of_mem_view hmem
        rw [h.inserted, List.append_nil] at hx
        have hmap := List.mem_map_of_mem (f := (·.entry.id)) hx
        rwa [show x.entry.id = row.entry.id by rw [hlogged]] at hmap
      · exact h.placements id hid
    · rw [List.append_nil, ← List.append_assoc, hseen]
      exact hrows.logOf
    · rw [← List.append_assoc]
      exact h.tailOf.push
    · intro r hr
      obtain ⟨hrm, hrn⟩ := h.left r (List.mem_cons_of_mem _ hr)
      refine ⟨?_, hrn⟩
      rw [hseen]
      exact List.mem_map.2 ⟨r, hrm, if_neg fun e => hdistinct.1 (List.mem_map.2 ⟨r, hr, e⟩)⟩
  | @unique e control =>
    have h := at_control control
    unfold InLog
    by_cases hrev : e.reverses.isSome
    · simp only [if_pos hrev]
      exact h.imp (fun h => h.frame ⟨rfl, rfl, rfl, rfl, rfl⟩) fun ⟨more, h⟩ => ⟨more, h.frame ⟨rfl, rfl, rfl, rfl, rfl⟩ rfl⟩
    · simp only [if_neg hrev]
      exact h.imp (fun h => h.frame ⟨rfl, rfl, rfl, rfl, rfl⟩) fun ⟨more, h⟩ => ⟨more, h.frame ⟨rfl, rfl, rfl, rfl, rfl⟩ rfl⟩
  | reversal control =>
    exact (at_control control).imp (fun h => h.frame ⟨rfl, rfl, rfl, rfl, rfl⟩)
      fun ⟨more, h⟩ => ⟨more, h.frame ⟨rfl, rfl, rfl, rfl, rfl⟩ rfl⟩
  | taken control =>
    exact (at_control control).imp (fun h => h.frame ⟨rfl, rfl, rfl, rfl, rfl⟩)
      fun ⟨more, h⟩ => ⟨more, h.frame ⟨rfl, rfl, rfl, rfl, rfl⟩ rfl⟩
  | @inserted e seen control =>
    refine inLog_nextClaim ?_
    rcases at_control control with hd | ⟨more, h⟩
    · refine .inl ⟨hd.job, hd.appendLock, hd.placements, hd.subtrees, fun r hr => ?_⟩
      rcases List.mem_append.1 hr with hr | hr
      · exact hd.rows r hr
      · rw [List.mem_singleton.1 hr, rowOf]
        exact if_neg (by rw [hd.job]; decide)
    · have hlog := h.logOf
      rw [List.append_nil] at hlog
      have hplaced : (t.rowOf e).placed = some (t.tail.place e.contentHash) := if_pos h.job
      refine .inr ⟨more, (t.rowOf e).toLogged, rfl, ⟨h.appendLock, h.subtrees, h.placements, ?_, h.tailOf⟩, h.job, h.updates,
        fun r hr => ?_⟩
      · rw [view_insert h.updates]
        refine hlog.concat ?_
        rw [hplaced]
        exact congrArg some (h.tailOf.place (x := (t.rowOf e).toLogged))
      · rcases List.mem_append.1 hr with hr | hr
        · exact h.inserted r hr
        · rw [List.mem_singleton.1 hr, hplaced]
          rfl
  | replayed control =>
    exact inLog_nextEntry ((at_control control).imp (fun h => h.frame ⟨rfl, rfl, rfl, rfl, rfl⟩)
      fun ⟨more, h⟩ => ⟨more, h.frame ⟨rfl, rfl, rfl, rfl, rfl⟩ rfl⟩)
  | unlimited control =>
    exact inLog_nextClaim ((at_control control).imp (fun h => h.frame ⟨rfl, rfl, rfl, rfl, rfl⟩)
      fun ⟨more, x, hx, h⟩ => ⟨more, x, hx, h.frame ⟨rfl, rfl, rfl, rfl, rfl⟩ rfl⟩)
  | claimed control =>
    exact (at_control control).imp (fun h => h.frame ⟨rfl, rfl, rfl, rfl, rfl⟩)
      fun ⟨more, x, hx, h⟩ => ⟨more, x, hx, h.frame ⟨rfl, rfl, rfl, rfl, rfl⟩ rfl⟩
  | permitted control =>
    exact inLog_nextClaim ((at_control control).imp (fun h => h.frame ⟨rfl, rfl, rfl, rfl, rfl⟩)
      fun ⟨more, x, hx, h⟩ => ⟨more, x, hx, h.frame ⟨rfl, rfl, rfl, rfl, rfl⟩ rfl⟩)
  | store control =>
    obtain ⟨more, h⟩ := at_control control
    have hwrites : t.placements = [] ∨ (t.job = .pass ∧ t.rows = []) :=
      h.imp (·.updates) fun h => ⟨h.job, h.inserted⟩
    replace h : t.Holds committed log more [] := h.elim (·.toHolds) (·.toHolds)
    have hlog := h.logOf
    rw [List.append_nil] at hlog
    refine .inr (.inr ⟨h.appendLock, hwrites, h.placements, more, hlog, ?_⟩)
    have hsize : t.tail.accumulator.size = (log ++ more).length := by rw [h.tailOf.covers.size, hashes, List.length_map]
    show (⟨t.tail.accumulator.subtrees, (log ++ more).length⟩ : MerkleAccumulator H).Covers (hashes (log ++ more))
    rw [← hsize]
    exact h.tailOf.covers

/-- Without the lock a transaction commits rows without a position, and nothing else. -/
theorem InLog.unlocked_commit (h : t.InLog committed log) (control : t.control = .commit) (hfree : t.appendLock ≠ true) :
    Unplaced t.rows ∧ t.placements = [] ∧ t.subtrees = none := by
  rw [InLog, control] at h
  rcases h with hd | ⟨hnone, -⟩ | hl
  · exact ⟨hd.rows, hd.placements, hd.subtrees⟩
  · exact ⟨by simp [hnone.rows, Unplaced], hnone.placements, hnone.subtrees⟩
  · exact absurd hl.appendLock hfree

theorem InLog.placements (h : t.InLog committed log) :
    ∀ id ∈ t.placements.map Prod.fst, id ∈ committed.entries.map (·.entry.id) := by
  have none_placed : t.placements = [] → ∀ id ∈ t.placements.map Prod.fst, id ∈ committed.entries.map (·.entry.id) :=
    fun h => by simp [h]
  have entry : t.Defers ∨ (∃ more, t.Appends committed log more []) → t.placements = [] :=
    fun h => h.elim (·.placements) fun ⟨_, h⟩ => h.updates
  unfold InLog at h
  cases hc : t.control <;> rw [hc] at h
  case lock => exact none_placed h.1.placements
  case pick => exact none_placed h.1.placements
  case nextIndex => exact none_placed h.placements
  case subtrees => exact none_placed h.1.placements
  case count => exact none_placed h.1.placements
  case update => exact h.choose_spec.placements
  case clash => exact none_placed (entry h)
  case reversal => exact none_placed (entry h)
  case insert => exact none_placed (entry h)
  case existing => exact none_placed (entry h)
  case claim => exact none_placed (h.elim (·.placements) fun ⟨_, _, _, h⟩ => h.updates)
  case sum => exact none_placed (h.elim (·.placements) fun ⟨_, _, _, h⟩ => h.updates)
  case store => exact h.choose_spec.elim (·.placements) (·.placements)
  case commit => exact h.elim (none_placed ·.placements) (·.elim (none_placed ·.1.placements) (·.placements))
  case ended => exact none_placed h.1.placements

/-- Without the lock a row has no position. -/
theorem InLog.unplaced (h : t.InLog committed log) (hfree : t.appendLock ≠ true) : Unplaced t.rows := by
  have no_rows : t.rows = [] → Unplaced t.rows := fun h => by simp [h, Unplaced]
  unfold InLog at h
  cases hc : t.control <;> rw [hc] at h
  case lock => exact no_rows h.1.rows
  case pick => exact no_rows h.1.rows
  case nextIndex => exact no_rows h.rows
  case subtrees => exact no_rows h.1.rows
  case count => exact no_rows h.1.rows
  case update => exact no_rows h.choose_spec.inserted
  case clash => exact h.elim (·.rows) fun ⟨_, h⟩ => absurd h.appendLock hfree
  case reversal => exact h.elim (·.rows) fun ⟨_, h⟩ => absurd h.appendLock hfree
  case insert => exact h.elim (·.rows) fun ⟨_, h⟩ => absurd h.appendLock hfree
  case existing => exact h.elim (·.rows) fun ⟨_, h⟩ => absurd h.appendLock hfree
  case claim => exact h.elim (·.rows) fun ⟨_, _, _, h⟩ => absurd h.appendLock hfree
  case sum => exact h.elim (·.rows) fun ⟨_, _, _, h⟩ => absurd h.appendLock hfree
  case store => exact absurd (h.choose_spec.elim (·.appendLock) (·.appendLock)) hfree
  case commit => exact h.elim (·.rows) (·.elim (no_rows ·.1.rows) fun h => absurd h.appendLock hfree)
  case ended => exact no_rows h.1.rows

theorem InLog.frame (h : t.InLog committed log) (hs : SameWrites t t') (hcontrol : t'.control = t.control)
    (htail : t'.tail = t.tail) (hpicked : t'.picked = t.picked) : t'.InLog committed log := by
  have entry : t.Defers ∨ (∃ more, t.Appends committed log more []) →
      t'.Defers ∨ ∃ more, t'.Appends committed log more [] :=
    fun h => h.imp (·.frame hs) fun ⟨more, h⟩ => ⟨more, h.frame hs htail⟩
  have claim : ∀ {e : Entry H .balanced P},
      (t.Defers ∨ ∃ more x, x.contentHash = e.contentHash ∧ t.Appends committed log more [x]) →
      t'.Defers ∨ ∃ more x, x.contentHash = e.contentHash ∧ t'.Appends committed log more [x] :=
    fun h => h.imp (·.frame hs) fun ⟨more, x, hx, h⟩ => ⟨more, x, hx, h.frame hs htail⟩
  unfold InLog at h ⊢
  rw [hcontrol]
  cases hc : t.control <;> rw [hc] at h
  case lock => exact ⟨h.1.frame hs, hs.appendLock.trans h.2.1, hpicked.trans h.2.2.1, hs.job ▸ h.2.2.2⟩
  case pick => exact ⟨h.1.frame hs, hs.appendLock.trans h.2.1, hs.job.trans h.2.2⟩
  case nextIndex => exact Reads.frame h hs hpicked
  case subtrees => exact ⟨h.1.frame hs hpicked, htail ▸ h.2⟩
  case count => exact ⟨h.1.frame hs hpicked, htail ▸ h.2.1, h.2.2⟩
  case update =>
    obtain ⟨more, h⟩ := h
    exact ⟨more, hpicked ▸ h.frame hs htail⟩
  case clash => exact entry h
  case reversal => exact entry h
  case insert => exact entry h
  case existing => exact entry h
  case claim => exact claim h
  case sum => exact claim h
  case store =>
    obtain ⟨more, h⟩ := h
    exact ⟨more, h.imp (·.frame hs htail) (·.frame hs htail)⟩
  case commit => exact h.imp (·.frame hs) (.imp (fun h => ⟨h.1.frame hs, hs.appendLock.trans h.2.1, hs.job.trans h.2.2⟩) (·.frame hs))
  case ended => exact ⟨h.1.frame hs, hs.appendLock.trans h.2⟩

theorem inLog_start (job : Job) (batch : List (Entry H .balanced P)) : (start job batch).InLog committed log := by
  cases job with
  | inline => exact ⟨⟨rfl, rfl, rfl⟩, rfl, rfl, .inl rfl⟩
  | deferred => exact inLog_nextEntry (.inl ⟨rfl, rfl, rfl, rfl, fun _ hr => (List.not_mem_nil hr).elim⟩)
  | pass => exact ⟨⟨rfl, rfl, rfl⟩, rfl, rfl, .inr rfl⟩
  | other => exact .inr (.inl ⟨⟨rfl, rfl, rfl⟩, rfl, rfl⟩)

/-- The append lock is taken when no other transaction has it. -/
theorem Next.appendLock {others : List (Txn H P)} {xmin : Nat} (h : t.Next committed others xmin t')
    (held : t'.appendLock = true) : t.appendLock = true ∨ ∀ u ∈ others, u.appendLock = false := by
  cases h with
  | finished => cases held
  | lock control free => exact .inr free
  | inserted => exact .inl (by simpa using held)
  | unlimited => exact .inl (by simpa using held)
  | permitted => exact .inl (by simpa using held)
  | _ => exact .inl held

end Txn

/-! ## Runs -/

/-- One transaction has the append lock, and all are in the committed log. -/
structure LogState (s : Db H P) (log : List (Logged H P)) : Prop where
  rows : RowsInv s
  logInv : s.tables.LogInv log
  lock : s.txns.Pairwise fun t u => ¬ (t.appendLock = true ∧ u.appendLock = true)
  txns : ∀ t ∈ s.txns, t.InLog s.tables log

section
variable {s s' : Db H P} {i : Nat}

omit [Blake3 H] in
theorem both_symm {t u : Txn H P} (h : ¬ (t.appendLock = true ∧ u.appendLock = true)) :
    ¬ (u.appendLock = true ∧ t.appendLock = true) := fun hb => h hb.symm

/-- A commit without the lock adds rows without a position. -/
theorem LogState.grows (hs : LogState s log) (slot : s.txns[i]? = some t) (hn : Unplaced t.rows)
    (hplacements : t.placements = []) (hsubtrees : t.subtrees = none) : Grows s.tables (t.view s.tables) t.rows where
  entries := Txn.view_entries hplacements _
  subtrees := by rw [Txn.view, hsubtrees, Option.getD_none]
  unplaced := hn
  fresh r hr hid := by
    obtain ⟨y, hy, hid⟩ := List.mem_map.1 hid
    have hall := (hs.rows.view slot).1
    rw [Txn.entries_view, List.map_append] at hall
    exact ((List.pairwise_append.1 hall).2.2 _ (List.mem_map_of_mem hy) _ (List.mem_map_of_mem hr)).id hid

theorem LogState.commit (hs : LogState s log) (slot : s.txns[i]? = some t) (control : t.control = .commit)
    (hrows : RowsInv (s.commit i t)) : ∃ more, LogState (s.commit i t) (log ++ more) := by
  obtain ⟨ht, hothers⟩ := (forall_slot slot).1 hs.txns
  obtain ⟨halone, hlock⟩ := (pairwise_slot both_symm slot).1 hs.lock
  have hlock' : (s.commit i t).txns.Pairwise fun t u => ¬ (t.appendLock = true ∧ u.appendLock = true) :=
    (pairwise_set_slot both_symm slot).2 ⟨fun _ _ h => Bool.false_ne_true h.1, hlock⟩
  by_cases hheld : t.appendLock = true
  · obtain ⟨more, hlog, hcovers⟩ : ∃ more, LogOf (t.view s.tables).entries (log ++ more) ∧
        (⟨(t.view s.tables).subtrees, (log ++ more).length⟩ : MerkleAccumulator H).Covers (hashes (log ++ more)) := by
      rw [Txn.InLog, control] at ht
      rcases ht with hd | ⟨-, hfree, -⟩ | hl
      · exact absurd (hheld.symm.trans hd.appendLock) (by decide)
      · exact absurd (hheld.symm.trans hfree) (by decide)
      · exact hl.stored
    refine ⟨more, hrows, ⟨hs.rows.rowsOf_view slot hlog, hcovers⟩, hlock', ?_⟩
    refine (forall_set_slot slot).2 ⟨Txn.inLog_finished, fun u hu => (hothers u hu).other ?_ _ _⟩
    exact Bool.eq_false_iff.2 fun h => halone u hu ⟨hheld, h⟩
  · obtain ⟨hn, hplacements, hsubtrees⟩ := ht.unlocked_commit control hheld
    have g := hs.grows slot hn hplacements hsubtrees
    have hlog : LogOf (t.view s.tables).entries log := by
      unfold LogOf
      rw [g.entries, placedRows_append, placedRows_unplaced hn, List.append_nil]
      exact hs.logInv.logOf
    have hinv : (t.view s.tables).LogInv log := ⟨hs.rows.rowsOf_view slot hlog, g.subtrees ▸ hs.logInv.covers⟩
    refine ⟨[], ?_⟩
    rw [List.append_nil]
    exact ⟨hrows, hinv, hlock', (forall_set_slot slot).2 ⟨Txn.inLog_finished, fun u hu => (hothers u hu).grow g⟩⟩

variable [DecidableEq H]

/-- **A step keeps the log or adds to its end.** -/
theorem LogState.step {ledger : LedgerId} {l : Label H P} (hs : LogState s log) (st : (postgres ledger).step s l s') :
    ∃ more, LogState s' (log ++ more) := by
  have hrows := rowsInv_stable ledger s l s' hs.rows st
  have same : ∀ {s' : Db H P}, RowsInv s' → s'.tables.LogInv log →
      (s'.txns.Pairwise fun t u => ¬ (t.appendLock = true ∧ u.appendLock = true)) →
      (∀ t ∈ s'.txns, t.InLog s'.tables log) → ∃ more, LogState s' (log ++ more) := fun hrows hlog hlock htxns =>
    ⟨[], hrows, (List.append_nil log).symm ▸ hlog, hlock, (List.append_nil log).symm ▸ htxns⟩
  cases Db.step_cases st with
  | begun job batch =>
    have hfree : (Txn.start job batch : Txn H P).appendLock = false := by cases job <;> rfl
    refine same hrows hs.logInv (List.pairwise_append.2 ⟨hs.lock, List.pairwise_singleton _ _, fun t _ u hu h => ?_⟩) ?_
    · rw [List.mem_singleton.1 hu, hfree] at h
      exact Bool.false_ne_true h.2
    · intro t ht
      rcases List.mem_append.1 ht with ht | ht
      · exact hs.txns t ht
      · rw [List.mem_singleton.1 ht]
        exact Txn.inLog_start job batch
  | xidTaken slot =>
    obtain ⟨ht, hothers⟩ := (forall_slot slot).1 hs.txns
    refine same hrows hs.logInv ((pairwise_set_slot both_symm slot).2 ((pairwise_slot both_symm slot).1 hs.lock)) ?_
    exact (forall_set_slot slot).2 ⟨ht.frame ⟨rfl, rfl, rfl, rfl, rfl⟩ rfl rfl rfl, hothers⟩
  | ran slot _ next =>
    obtain ⟨ht, hothers⟩ := (forall_slot slot).1 hs.txns
    obtain ⟨halone, hlock⟩ := (pairwise_slot both_symm slot).1 hs.lock
    refine same hrows hs.logInv ((pairwise_set_slot both_symm slot).2 ⟨fun u hu h => ?_, hlock⟩) ?_
    · rcases next.appendLock h.1 with hheld | hfree
      · exact halone u hu ⟨hheld, h.2⟩
      · exact Bool.false_ne_true ((hfree u hu).symm.trans h.2)
    · exact (forall_set_slot slot).2 ⟨next.inLog ht hs.logInv (hs.rows.rowsOf_view slot), hothers⟩
  | committed slot control => exact hs.commit slot control hrows
  | failed slot =>
    obtain ⟨-, hothers⟩ := (forall_slot slot).1 hs.txns
    obtain ⟨-, hlock⟩ := (pairwise_slot both_symm slot).1 hs.lock
    exact same hrows hs.logInv ((pairwise_set_slot both_symm slot).2 ⟨fun _ _ h => Bool.false_ne_true h.1, hlock⟩)
      ((forall_set_slot slot).2 ⟨Txn.inLog_finished, hothers⟩)
  | registered ok =>
    obtain ⟨accounts, rfl⟩ := Tables.registerAccount_eq_ok ok
    have g : Grows s.tables { s.tables with accounts := accounts } [] :=
      ⟨(List.append_nil _).symm, rfl, fun _ hr => (List.not_mem_nil hr).elim, fun _ hr => (List.not_mem_nil hr).elim⟩
    exact same hrows (Tables.logInv_of_eq hs.logInv rfl rfl) hs.lock fun t ht => (hs.txns t ht).grow g

/-- The states of a run hold logs that grow. -/
theorem logState_of_run {ledger : LedgerId} {ls : List (Label H P)} (r : (postgres ledger).Run s ls s')
    (hs : LogState s log) : ∃ log', log <+: log' ∧ LogState s' log' := by
  induction r generalizing log with
  | nil s => exact ⟨log, List.prefix_refl _, hs⟩
  | cons st _ ih =>
    obtain ⟨more, hnext⟩ := hs.step st
    obtain ⟨log', hlater, hend⟩ := ih hnext
    exact ⟨log', (List.prefix_append log more).trans hlater, hend⟩

theorem logState_of_reachable {ledger : LedgerId} (h : (postgres ledger).Reachable s) : ∃ log, LogState s log := by
  obtain ⟨s₀, ls, h₀, r⟩ := h
  have hinit : LogState s₀ [] := by
    refine ⟨(rowsInv_inductive ledger).init s₀ h₀, ?_, by simp [h₀.2.1], by simp [h₀.2.1]⟩
    rw [h₀.1]
    exact Tables.logInv_empty ledger
  obtain ⟨log, -, hlog⟩ := logState_of_run r hinit
  exact ⟨log, hlog⟩

end

end

end DoubleEntry.L5.Postgres
