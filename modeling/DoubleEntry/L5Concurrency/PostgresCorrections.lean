import DoubleEntry.L3Ledger.Standing
import DoubleEntry.L5Concurrency.PostgresRows

/-!
# Corrections across transactions

`append_one` checks a reversal in one statement and inserts it in a later one, and other
transactions commit in between. What the check saw stays: a row is never changed but for
its position. So in any interleaving a reversal on file names an entry on file that is
none, inverts it, and is its only one; balances over all rows are those of the entries
that stand (`corrections_hold`).

A stored handle is capped; both the original and what it is compared with are.

**Assumptions.** None on the entries; the transactions are any, and overlap in any way.

**Results.**
* `targets_of_checkReverses`, `Corrects.insert`: the check, and the insert some statements later.
* `Next.corrects`: one statement.
* `corrections_hold`: every state, committed rows and sums over them.
-/
namespace DoubleEntry.L5.Postgres

open DoubleEntry.Core DoubleEntry.L1 DoubleEntry.L2 DoubleEntry.L3 DoubleEntry.L4

section
variable {H : Type} {P : Scale} {entries entries' : List (Entry H .balanced P)} {e : Entry H .balanced P}

/-! ## What a reversal names -/

/-- An entry among `entries` that is no reversal, with the opposite postings. -/
def Targets (entries : List (Entry H .balanced P)) (e : Entry H .balanced P) : Prop :=
  ∀ original, e.reverses = some original → ∃ t ∈ entries, t.id = original ∧ t.reverses = none ∧
    e.postings = t.postings.map (·.inverted)

theorem Targets.mono (h : Targets entries e) (hs : ∀ x ∈ entries, x ∈ entries') : Targets entries' e := by
  intro original ho
  obtain ⟨t, ht, hrest⟩ := h original ho
  exact ⟨t, hs t ht, hrest⟩

/-- What the rows of an entry hold. -/
def AsStored (e : Entry H .balanced P) : Prop := Backend.postgres.stored e = e

theorem handle_handle (id : AccountId) : Backend.postgres.handle (Backend.postgres.handle id) = Backend.postgres.handle id := by
  simp [Backend.handle]

theorem asStored_stored (e : Entry H .balanced P) : AsStored (Backend.postgres.stored e) := by
  simp [AsStored, Backend.stored, handle_handle]

/-- The rows of a reversal are those of its original, inverted, as the reversal was. -/
theorem Targets.stored (h : Targets entries e) (hstored : ∀ x ∈ entries, AsStored x) :
    Targets entries (Backend.postgres.stored e) := by
  intro original ho
  obtain ⟨t, ht, hid, hnone, hpostings⟩ := h original ho
  refine ⟨t, ht, hid, hnone, ?_⟩
  have hcapped := congrArg (·.postings) (hstored t ht)
  simp only [Backend.stored] at hcapped ⊢
  calc e.postings.map (fun p => { p with account := Backend.postgres.handle p.account })
      = (t.postings.map fun p => { p with account := Backend.postgres.handle p.account }).map (·.inverted) := by
        rw [hpostings, List.map_map, List.map_map]
        rfl
    _ = t.postings.map (·.inverted) := by rw [hcapped]

/-! ## A transaction -/

variable {stored stored' : List (Entry H .balanced P)} {t t' : Txn H P}

/-- The entry that was checked and is inserted next. -/
def Txn.passed (t : Txn H P) : Option (Entry H .balanced P) :=
  match t.control with
  | .insert e => some e
  | _ => none

/-- What the transaction wrote, and what it checked, names entries it sees. -/
structure Txn.Corrects (stored : List (Entry H .balanced P)) (t : Txn H P) : Prop where
  asStored : ∀ r ∈ t.rows, AsStored r.entry
  rows : ∀ r ∈ t.rows, Targets (stored ++ t.rows.map (·.entry)) r.entry
  passed : ∀ e, t.passed = some e → Targets (stored ++ t.rows.map (·.entry)) e

namespace Txn

theorem passed_nextEntry : t.nextEntry.passed = none := by
  unfold nextEntry passed entryControl
  cases t.todo with
  | nil => by_cases h : t.job = .inline <;> simp [h]
  | cons e es => rfl

theorem passed_nextRow : t.nextRow.passed = none := by
  unfold nextRow passed rowControl
  cases t.picked <;> rfl

theorem Corrects.mono (h : t.Corrects stored) (hs : ∀ x ∈ stored, x ∈ stored') : t.Corrects stored' := by
  have happend : ∀ x ∈ stored ++ t.rows.map (·.entry), x ∈ stored' ++ t.rows.map (·.entry) := fun x hx =>
    List.mem_append.2 ((List.mem_append.1 hx).imp_left (hs x))
  exact ⟨h.asStored, fun r hr => (h.rows r hr).mono happend, fun e he => (h.passed e he).mono happend⟩

theorem Corrects.of_rows (h : t.Corrects stored) (hrows : t'.rows = t.rows) (hpassed : t'.passed = none) : t'.Corrects stored := by
  refine ⟨?_, ?_, fun e he => by rw [hpassed] at he; cases he⟩
  · rw [hrows]
    exact h.asStored
  · rw [hrows]
    exact h.rows

theorem corrects_finished : (finished : Txn H P).Corrects stored :=
  ⟨fun _ hr => (List.not_mem_nil hr).elim, fun _ hr => (List.not_mem_nil hr).elim, fun _ he => by cases he⟩

theorem corrects_start (job : Job) (batch : List (Entry H .balanced P)) : (start job batch).Corrects stored := by
  have hpassed : (start job batch).passed = none := by
    cases job with
    | deferred => exact passed_nextEntry
    | _ => rfl
  refine ⟨?_, ?_, fun e he => by rw [hpassed] at he; cases he⟩ <;> simp

end Txn

end

section
variable {H : Type} [Blake3 H] {P : Scale} {s s' : Db H P} {committed : Tables H P} {t t' : Txn H P}

omit [Blake3 H] in
theorem targets_of_checkReverses {e : Entry H .balanced P} (h : committed.checkReverses e = .ok ()) :
    Targets (committed.entries.map (·.entry)) e := by
  intro original ho
  rw [Tables.checkReverses, ho] at h
  simp only [Tables.checkReversal] at h
  split at h
  · cases h
  · rename_i target hfind
    have hid : target.entry.id = original := by simpa using List.find?_some hfind
    split at h
    · cases h
    · rename_i hnone
      split at h
      · cases h
      · split at h
        · rename_i hinv
          exact ⟨target.entry, List.mem_map_of_mem (List.mem_of_find?_eq_some hfind), hid, by simpa using hnone,
            Journal.isInversionOf_iff.1 hinv⟩
        · cases h

namespace Txn

theorem passed_nextClaim {e : Entry H .balanced P} {checked : List BalanceKey} {ps : List (Posting P)} :
    (t.nextClaim e checked ps).passed = none := by
  obtain ⟨-, h⟩ | ⟨p, rest, -, h⟩ := t.nextClaim_cases e checked ps <;> rw [h]
  · exact passed_nextEntry
  · rfl

/-- A row is inserted for the entry that passed. -/
theorem Corrects.insert {stored : List (Entry H .balanced P)} (h : t.Corrects stored) (hstored : ∀ x ∈ stored, AsStored x)
    {e : Entry H .balanced P} (hpassed : t.passed = some e) :
    Corrects stored (nextClaim { t with rows := t.rows ++ [t.rowOf e] } e [] e.postings) := by
  have hall : ∀ x ∈ stored ++ t.rows.map (·.entry), AsStored x := by
    intro x hx
    rcases List.mem_append.1 hx with hx | hx
    · exact hstored x hx
    · obtain ⟨r, hr, rfl⟩ := List.mem_map.1 hx
      exact h.asStored r hr
  have hgrown : ∀ x ∈ stored ++ t.rows.map (·.entry), x ∈ stored ++ (t.rows ++ [t.rowOf e]).map (·.entry) := by
    intro x hx
    rw [List.map_append, ← List.append_assoc]
    exact List.mem_append_left _ hx
  refine ⟨?_, ?_, fun e' he' => by rw [passed_nextClaim] at he'; cases he'⟩
  · intro r hr
    rw [rows_nextClaim] at hr
    rcases List.mem_append.1 hr with hr | hr
    · exact h.asStored r hr
    · rw [List.mem_singleton.1 hr]
      exact asStored_stored e
  · intro r hr
    rw [rows_nextClaim] at hr ⊢
    rcases List.mem_append.1 hr with hr | hr
    · exact (h.rows r hr).mono hgrown
    · rw [List.mem_singleton.1 hr]
      exact ((h.passed e hpassed).stored hall).mono hgrown

/-- **One statement.** -/
theorem Next.corrects {others : List (Txn H P)} {xmin : Nat} (h : t.Next committed others xmin t')
    (ht : t.Corrects (committed.entries.map (·.entry))) (hstored : ∀ r ∈ committed.entries, AsStored r.entry) :
    t'.Corrects (committed.entries.map (·.entry)) := by
  cases h with
  | finished => exact corrects_finished
  | lock =>
    refine ht.of_rows rfl ?_
    unfold passed
    by_cases hjob : t.job = .pass <;> simp [hjob]
  | pick =>
    refine ht.of_rows rfl ?_
    unfold passed
    by_cases hempty : ((t.view committed).sequenceable xmin).isEmpty <;> simp [hempty]
  | nextIndex => exact ht.of_rows rfl rfl
  | subtrees => exact ht.of_rows rfl rfl
  | countRows => exact ht.of_rows rfl passed_nextRow
  | countEntries => exact ht.of_rows rfl passed_nextEntry
  | update => exact ht.of_rows rfl passed_nextRow
  | @unique e =>
    refine ⟨ht.asStored, ht.rows, fun e' he' => ?_⟩
    by_cases hrev : e.reverses.isSome
    · simp [passed, hrev] at he'
    · obtain rfl : e = e' := by simpa [passed, hrev] using he'
      intro original ho
      simp [ho] at hrev
  | @reversal e _ checked =>
    refine ⟨ht.asStored, ht.rows, fun e' he' => ?_⟩
    cases he'
    have htargets := targets_of_checkReverses checked
    rwa [entries_view, List.map_append] at htargets
  | taken => exact ht.of_rows rfl rfl
  | inserted control =>
    refine ht.insert (fun x hx => ?_) (by rw [passed, control])
    obtain ⟨r, hr, rfl⟩ := List.mem_map.1 hx
    exact hstored r hr
  | replayed => exact ht.of_rows rfl passed_nextEntry
  | unlimited => exact ht.of_rows rows_nextClaim passed_nextClaim
  | claimed => exact ht.of_rows rfl rfl
  | permitted => exact ht.of_rows rows_nextClaim passed_nextClaim
  | store => exact ht.of_rows rfl rfl

end Txn

/-! ## Any transactions -/

variable [DecidableEq H]

/-- The committed rows, and those to come. -/
structure CorrectionsInv (s : Db H P) : Prop where
  asStored : ∀ r ∈ s.tables.entries, AsStored r.entry
  rows : ∀ r ∈ s.tables.entries, Targets (s.tables.entries.map (·.entry)) r.entry
  txns : ∀ t ∈ s.txns, t.Corrects (s.tables.entries.map (·.entry))

theorem correctionsInv_inductive (ledger : LedgerId) : (postgres ledger).Inductive (CorrectionsInv : Db H P → Prop) := by
  refine ⟨fun s h => ?_, fun s l s' hs st => ?_⟩
  · obtain ⟨htables, htxns, -⟩ := h
    exact ⟨by simp [htables, Tables.empty], by simp [htables, Tables.empty], by simp [htxns]⟩
  · cases Db.step_cases st with
    | begun job batch =>
      refine ⟨hs.asStored, hs.rows, fun t ht => ?_⟩
      rcases List.mem_append.1 ht with ht | ht
      · exact hs.txns t ht
      · rw [List.mem_singleton.1 ht]
        exact Txn.corrects_start job batch
    | xidTaken slot =>
      obtain ⟨ht, hothers⟩ := (forall_slot slot).1 hs.txns
      exact ⟨hs.asStored, hs.rows, (forall_set_slot slot).2 ⟨⟨ht.asStored, ht.rows, ht.passed⟩, hothers⟩⟩
    | ran slot _ next =>
      obtain ⟨ht, hothers⟩ := (forall_slot slot).1 hs.txns
      exact ⟨hs.asStored, hs.rows, (forall_set_slot slot).2 ⟨next.corrects ht hs.asStored, hothers⟩⟩
    | @committed i t slot control =>
      obtain ⟨ht, hothers⟩ := (forall_slot slot).1 hs.txns
      have hentries : (t.view s.tables).entries.map (·.entry) = s.tables.entries.map (·.entry) ++ t.rows.map (·.entry) := by
        rw [Txn.entries_view, List.map_append]
      have hkept : ∀ x ∈ s.tables.entries.map (·.entry), x ∈ (t.view s.tables).entries.map (·.entry) := fun x hx =>
        hentries ▸ List.mem_append_left _ hx
      refine ⟨fun r hr => ?_, fun r hr => ?_, (forall_set_slot slot).2 ⟨Txn.corrects_finished, fun u hu => (hothers u hu).mono hkept⟩⟩
      · obtain ⟨x, hx, hxr, -⟩ := Txn.of_mem_view hr
        rw [← congrArg Logged.entry hxr]
        exact (List.mem_append.1 hx).elim (hs.asStored x) (ht.asStored x)
      · obtain ⟨x, hx, hxr, -⟩ := Txn.of_mem_view hr
        rw [← congrArg Logged.entry hxr]
        show Targets ((t.view s.tables).entries.map (·.entry)) x.entry
        rcases List.mem_append.1 hx with hx | hx
        · exact (hs.rows x hx).mono hkept
        · rw [hentries]
          exact ht.rows x hx
    | failed slot =>
      exact ⟨hs.asStored, hs.rows, (forall_set_slot slot).2 ⟨Txn.corrects_finished, ((forall_slot slot).1 hs.txns).2⟩⟩
    | registered ok =>
      obtain ⟨accounts, rfl⟩ := Tables.registerAccount_eq_ok ok
      exact ⟨hs.asStored, hs.rows, hs.txns⟩

/-- **Corrections hold**, whatever overlaps. A committed reversal names a committed entry that is
no reversal and has the opposite postings; no other reversal names it. Summed over all rows, debits
less credits of a key are those of the entries that stand. -/
theorem corrections_hold (ledger : LedgerId) {s : Db H P} (h : (postgres ledger).Reachable s) :
    Cancels (s.tables.entries.map (·.entry)) ∧ ∀ key,
      s.tables.netMinor key = net key (postingsOf (standing (s.tables.entries.map (·.entry)))) := by
  have hapart := ((rowsInv_inductive ledger).reachable h).committed
  have hi := (correctionsInv_inductive ledger).reachable h
  have hcancels : Cancels (s.tables.entries.map (·.entry)) := by
    refine ⟨List.pairwise_map.2 (hapart.imp fun h => h.id), fun e he => ?_, List.pairwise_filterMap.2 (hapart.imp fun h => ?_)⟩
    · obtain ⟨r, hr, rfl⟩ := List.mem_map.1 he
      exact hi.rows r hr
    · intro a ha b hb hab
      subst hab
      exact (h.reverses.resolve_left (by simp [ha])) (ha.trans hb.symm)
  refine ⟨hcancels, fun key => ?_⟩
  have hpostings : s.tables.entries.flatMap (·.entry.postings) = (s.tables.entries.map (·.entry)).flatMap (·.postings) := by
    rw [List.flatMap_map]
  show net key (s.tables.entries.flatMap (·.entry.postings)) = _
  rw [hpostings]
  exact hcancels.net_standing key

end

/-! ## Two reversals of one sale -/

/-- The reversal of the sale, and another one. -/
def reversal : Entry Preimage .balanced cents := Journal.reversalOfMarch.withState .balanced

def otherReversal : Entry Preimage .balanced cents :=
  ((saleOfMarch.withState .balanced).reverse (sale ⟨35, by decide⟩ april.start).id
    (sale ⟨35, by decide⟩ april.start).idempotencyKey april.start).withState .balanced

/-- The sale is on file. Both reversals pass the check before one of them is inserted. -/
def reversedTwice : List (Label Preimage cents) :=
  opened ++ [.begin .inline [saleOfMarch.withState .balanced]] ++ (List.replicate 11 0).map .statement ++
    [.begin .deferred [reversal], .begin .deferred [otherReversal]] ++
    [1, 2, 1, 2, 1, 1, 1, 1, 1, 2, 2].map .statement

set_option maxRecDepth 10000 in
/-- Not vacuous: one of them is on file, and nothing stands. -/
theorem sale_reversed_once : (afterSteps reversedTwice).tables.entries.length = 2 ∧
    Cancels ((afterSteps reversedTwice).tables.entries.map (·.entry)) ∧
    ∀ key, (afterSteps reversedTwice).tables.netMinor key = 0 := by
  have hreachable : (postgres books).Reachable (afterSteps reversedTwice) := reachable_afterSteps (by decide)
  obtain ⟨hcancels, hnet⟩ := corrections_hold books hreachable
  have hnone : standing ((afterSteps reversedTwice).tables.entries.map (·.entry)) = [] :=
    List.length_eq_zero_iff.1 (by decide)
  rw [hnone] at hnet
  exact ⟨by decide, hcancels, hnet⟩

end DoubleEntry.L5.Postgres
