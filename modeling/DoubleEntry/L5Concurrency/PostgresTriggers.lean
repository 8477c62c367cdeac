import DoubleEntry.L3Ledger.Typestate
import DoubleEntry.L4Store.SqlReads
import DoubleEntry.L5Concurrency.PostgresRows

/-!
# The checks at COMMIT

Two triggers on `postings` wait for `COMMIT`, and sum and count what `postings` then holds
for the entry of each row that was inserted; an exception rolls the transaction back.

What `seal` returned passes them: with sealed entries the database makes the same runs with
the triggers as without. But a draft can be adopted under its own hash, and such an entry is
as good a `Balanced` one for `append`. The triggers keep it out: in any run, whatever is
appended, an entry on file is a witness of double entry, or it has no postings and no trigger
fired for it (`database_enforces`).

**Results.**
* `postingsWhere_view`: a trigger sees the row of its entry, and no other.
* `triggersPass_of_witnessed`, `witnessed_of_triggersPass`: what passes.
* `database_enforces`: any entries, and sealed ones.
* `adopted_draft_refused`: a draft adopted by its own hash is kept out.
-/
namespace DoubleEntry.L5.Postgres

open DoubleEntry.Core DoubleEntry.L1 DoubleEntry.L2 DoubleEntry.L3 DoubleEntry.L4

/-! ## The triggers -/

section
variable {H : Type} {P : Scale}

/-- `FROM postings WHERE entry_id = ..` -/
def postingsWhere (rows : List (EntryRow H P)) (id : EntryId) : List (Posting P) :=
  (rows.filter fun r => r.entry.id = id).flatMap (·.entry.postings)

/-- `SUM(CASE WHEN direction = 'D' THEN amount_minor ELSE -amount_minor END)` -/
def signedTotal (currency : Currency) (ps : List (Posting P)) : Int :=
  ((ps.filter fun p => p.currency = currency).map fun p =>
    if p.direction = .debit then p.amount.minor else -p.amount.minor).sum

/-- No currency of the entry has a total other than zero. mirrors schema/postgres.sql:268-281 -/
def postingsBalancePerCurrency (rows : List (EntryRow H P)) (id : EntryId) : Bool :=
  (postingsWhere rows id).all fun p => signedTotal p.currency (postingsWhere rows id) = 0

/-- mirrors schema/postgres.sql:290-298 -/
def postingsAtLeastTwo (rows : List (EntryRow H P)) (id : EntryId) : Bool := 2 ≤ (postingsWhere rows id).length

/-- For each row inserted into `postings`. mirrors schema/postgres.sql:284-287,301-304 -/
def Txn.triggersPass (t : Txn H P) (committed : Tables H P) : Bool :=
  let rows := (t.view committed).entries
  t.rows.all fun r => r.entry.postings.all fun _ =>
    postingsBalancePerCurrency rows r.entry.id && postingsAtLeastTwo rows r.entry.id

def Txn.committing (t : Txn H P) : Bool :=
  match t.control with
  | .commit => true
  | _ => false

section
variable [Blake3 H] [DecidableEq H]

/-- A `COMMIT` for which a trigger raises an exception is a rollback. -/
def Db.stepChecked (s : Db H P) : Label H P → Option (Db H P)
  | .statement i => s.txns[i]?.bind fun t =>
    if t.committing && !t.triggersPass s.tables then some (s.setTxn i .finished) else s.statement i t
  | l => s.step l

/-- Any transactions, on the schema with its triggers. -/
def withTriggers (ledger : LedgerId) : LTS (Db H P) (Label H P) :=
  .ofFn (fun s => s.tables = .empty ledger ∧ s.txns = [] ∧ s.commits = []) Db.stepChecked

/-- What is appended was sealed. -/
def AppendsSealed (_ : Db H P) : Label H P → Prop
  | .begin _ batch => ∀ e ∈ batch, Journal.FromSeal e
  | _ => True

theorem stepChecked_cases {s s' : Db H P} {l : Label H P} (h : s.stepChecked l = some s') :
    (∃ i, s.step (.fail i) = some s' ∧ s'.tables = s.tables) ∨
    s.step l = some s' ∧ ∀ i t, l = .statement i → s.txns[i]? = some t → t.committing = true → t.triggersPass s.tables = true := by
  cases l with
  | statement i =>
    obtain ⟨t, ht, h⟩ := Option.bind_eq_some_iff.1 h
    split at h
    · cases h
      refine .inl ⟨i, ?_, rfl⟩
      show (s.txns[i]?.map fun _ => s.setTxn i .finished) = _
      rw [ht]
      rfl
    · rename_i hc
      refine .inr ⟨Option.bind_eq_some_iff.2 ⟨t, ht, h⟩, ?_⟩
      intro k u hl hu hcommit
      cases hl
      rw [ht] at hu
      cases hu
      by_contra hpass
      exact hc (by rw [hcommit, Bool.eq_false_iff.2 hpass]; rfl)
  | _ => exact .inr ⟨h, fun _ _ hl => by cases hl⟩

end

/-! ## What the sums say -/

theorem signedTotal_eq (currency : Currency) (ps : List (Posting P)) :
    signedTotal currency ps = currencyTotal .debit currency ps - currencyTotal .credit currency ps := by
  induction ps using List.reverseRecOn with
  | nil => rfl
  | append_singleton ps p ih =>
    rw [currencyTotal_concat, currencyTotal_concat]
    unfold signedTotal at ih ⊢
    rw [List.filter_append, List.map_append, List.sum_append, ih]
    by_cases hc : p.currency = currency
    · cases hd : p.direction
      · simp [hc, hd]
        omega
      · simp [hc, hd]
        omega
    · simp [hc]

/-- In a currency without postings both sides are zero. -/
theorem balanced_of_all {ps : List (Posting P)} (h : ∀ p ∈ ps, signedTotal p.currency ps = 0) (currency : Currency) :
    currencyTotal .debit currency ps = currencyTotal .credit currency ps := by
  by_cases hc : ∃ p ∈ ps, p.currency = currency
  · obtain ⟨p, hp, rfl⟩ := hc
    have hzero := h p hp
    rw [signedTotal_eq] at hzero
    omega
  · have hnone : ∀ d, currencyTotal d currency ps = 0 := fun d => by
      have hnil : (ps.filter fun p => p.currency = currency ∧ p.direction = d) = [] :=
        List.filter_eq_nil_iff.2 fun p hp hx => hc ⟨p, hp, (of_decide_eq_true hx).1⟩
      rw [currencyTotal, hnil]
      rfl
    rw [hnone, hnone]

theorem witnessed_stored {e : Entry H .balanced P} (h : e.Witnessed) : (Backend.postgres.stored e).Witnessed := by
  have htotal : ∀ d currency, currencyTotal d currency (Backend.postgres.stored e).postings =
      currencyTotal d currency e.postings := fun d currency => by
    rw [currencyTotal, Backend.stored, List.filter_map, List.map_map]
    rfl
  refine ⟨?_, fun p hp => ?_, fun currency => ?_⟩
  · rw [Backend.stored, List.length_map]
    exact h.two
  · obtain ⟨q, hq, rfl⟩ := List.mem_map.1 hp
    exact h.positive q hq
  · rw [htotal, htotal]
    exact h.balanced currency

end

/-! ## One entry -/

section
variable {H : Type} {P : Scale} {s : Db H P} {i : Nat} {t : Txn H P} {r : EntryRow H P}

theorem postingsWhere_absent {rows : List (EntryRow H P)} {id : EntryId} (h : ∀ x ∈ rows, x.entry.id ≠ id) :
    postingsWhere rows id = [] := by
  rw [postingsWhere, List.filter_eq_nil_iff.2 fun x hx => by simpa using h x hx]
  rfl

/-- Identifiers are unique, so only one row is summed. -/
theorem postingsWhere_of_apart {rows : List (EntryRow H P)} (h : (rows.map (·.entry)).Pairwise Apart) (hr : r ∈ rows) :
    postingsWhere rows r.entry.id = r.entry.postings := by
  obtain ⟨before, after, rfl⟩ := List.append_of_mem hr
  rw [List.map_append, List.map_cons, List.pairwise_append, List.pairwise_cons] at h
  obtain ⟨-, ⟨hafter, -⟩, hbefore⟩ := h
  have hsum : postingsWhere (before ++ r :: after) r.entry.id = postingsWhere before r.entry.id ++
      (r.entry.postings ++ postingsWhere after r.entry.id) := by
    rw [postingsWhere, List.filter_append, List.flatMap_append, List.filter_cons_of_pos (by simp), List.flatMap_cons]
    rfl
  rw [hsum, postingsWhere_absent fun x hx => ?_, postingsWhere_absent fun x hx => ?_, List.nil_append, List.append_nil]
  · exact (hafter _ (List.mem_map_of_mem hx)).id.symm
  · exact (hbefore _ (List.mem_map_of_mem hx) _ List.mem_cons_self).id

/-- What a transaction sees for the identifier of a row of its own is that row. -/
theorem postingsWhere_view (h : RowsInv s) (slot : s.txns[i]? = some t) (hr : r ∈ t.rows) :
    postingsWhere (t.view s.tables).entries r.entry.id = r.entry.postings := by
  have hapart : ((t.view s.tables).entries.map (·.entry)).Pairwise Apart := by
    have hall := (((Db.rows_slot slot).map (·.entry)).pairwise_iff Apart.symm).1 h.apart
    rw [List.map_append] at hall
    rw [Txn.entries_view]
    exact (List.pairwise_append.1 hall).1
  obtain ⟨y, hy, hlogged, -⟩ := Txn.mem_view (t := t) (List.mem_append_right s.tables.entries hr)
  have hentry : y.entry = r.entry := congrArg Logged.entry hlogged
  rw [← hentry]
  exact postingsWhere_of_apart hapart hy

/-- The triggers accept an entry that is a witness. -/
theorem triggersPass_of_witnessed (h : RowsInv s) (slot : s.txns[i]? = some t) (hrows : ∀ r ∈ t.rows, r.entry.Witnessed) :
    t.triggersPass s.tables = true := by
  unfold Txn.triggersPass
  refine List.all_eq_true.2 fun r hr => List.all_eq_true.2 fun _ _ => ?_
  have hw := hrows r hr
  rw [Bool.and_eq_true, postingsBalancePerCurrency, postingsAtLeastTwo, postingsWhere_view h slot hr]
  refine ⟨List.all_eq_true.2 fun p _ => ?_, decide_eq_true hw.two⟩
  rw [decide_eq_true_eq, signedTotal_eq, hw.balanced p.currency, sub_self]

/-- An entry they accept is one, unless it has no postings. -/
theorem witnessed_of_triggersPass (h : RowsInv s) (slot : s.txns[i]? = some t) (hpass : t.triggersPass s.tables = true)
    (hr : r ∈ t.rows) : r.entry.postings = [] ∨ r.entry.Witnessed := by
  refine or_iff_not_imp_left.2 fun hne => ?_
  obtain ⟨p, hp⟩ := List.exists_mem_of_ne_nil _ hne
  have hboth := List.all_eq_true.1 (List.all_eq_true.1 hpass r hr) p hp
  rw [Bool.and_eq_true, postingsBalancePerCurrency, postingsAtLeastTwo, postingsWhere_view h slot hr] at hboth
  obtain ⟨hbalance, htwo⟩ := hboth
  have hin : r.entry ∈ s.entries :=
    List.mem_map_of_mem ((Db.rows_slot slot).mem_iff.2 (List.mem_append_left _ (List.mem_append_right _ hr)))
  exact ⟨of_decide_eq_true htwo, h.positive _ hin,
    balanced_of_all fun q hq => of_decide_eq_true (List.all_eq_true.1 hbalance q hq)⟩

end

section
variable {H : Type} [Blake3 H] [DecidableEq H] {P : Scale} {s : Db H P} {t : Txn H P}

/-! ## Whatever is appended -/

/-- A refused commit is a failure, so that the triggers add no states. -/
theorem reachable_of_withTriggers {ledger : LedgerId} (h : (withTriggers ledger).Reachable s) : (postgres ledger).Reachable s := by
  obtain ⟨s₀, ls, hinit, r⟩ := h
  have hstart : (postgres ledger).Reachable s₀ := .of_init hinit
  clear hinit
  induction r with
  | nil => exact hstart
  | cons st _ ih =>
    rcases stepChecked_cases st with ⟨i, st, -⟩ | ⟨st, -⟩
    · exact ih (hstart.step (T := postgres ledger) (l := .fail i) st)
    · exact ih (hstart.step (T := postgres ledger) st)

/-- Witnesses, or without postings. -/
def Enforced (s : Db H P) : Prop := ∀ r ∈ s.tables.entries, r.entry.postings = [] ∨ r.entry.Witnessed

theorem enforced_inductive (ledger : LedgerId) :
    (withTriggers ledger).Inductive fun s : Db H P => RowsInv s ∧ Enforced s := by
  constructor
  · intro s h
    refine ⟨(rowsInv_inductive ledger).init s h, fun r hr => ?_⟩
    rw [h.1] at hr
    cases hr
  · rintro s l s' ⟨hrows, henforced⟩ st
    rcases stepChecked_cases st with ⟨i, st, htables⟩ | ⟨st, hpass⟩
    · refine ⟨rowsInv_stable ledger s (.fail i) s' hrows st, ?_⟩
      rw [Enforced, htables]
      exact henforced
    · refine ⟨rowsInv_stable ledger s l s' hrows st, ?_⟩
      cases Db.step_cases st with
      | @committed i t slot control =>
        intro r hr
        obtain ⟨x, hx, hlogged, -⟩ := Txn.of_mem_view hr
        rw [← hlogged]
        rcases List.mem_append.1 hx with hx | hx
        · exact henforced x hx
        · have hcommit : t.committing = true := by rw [Txn.committing, control]
          exact witnessed_of_triggersPass hrows slot (hpass i t rfl slot hcommit) hx
      | registered ok =>
        obtain ⟨accounts, rfl⟩ := Tables.registerAccount_eq_ok ok
        exact henforced
      | _ => exact henforced

/-! ## Sealed entries -/

namespace Txn

section
omit [Blake3 H] [DecidableEq H]

/-- What the transaction inserts next, and later. -/
def offered (t : Txn H P) : List (Entry H .balanced P) :=
  match t.control with
  | .clash e => e :: t.todo
  | .reversal e => e :: t.todo
  | .insert e => e :: t.todo
  | _ => t.todo

theorem offered_nextEntry : t.nextEntry.offered = t.todo := by
  unfold nextEntry offered entryControl
  cases t.todo with
  | nil => by_cases h : t.job = .inline <;> simp [h]
  | cons e es => rfl

theorem offered_nextRow : t.nextRow.offered = t.todo := by
  unfold nextRow offered rowControl
  cases t.picked <;> rfl

theorem todo_subset_offered : t.todo ⊆ t.offered := by
  unfold offered
  split
  · exact List.subset_cons_self _ _
  · exact List.subset_cons_self _ _
  · exact List.subset_cons_self _ _
  · exact List.Subset.refl _

theorem offered_start (job : Job) (batch : List (Entry H .balanced P)) : (start job batch).offered = batch := by
  cases job with
  | deferred => exact offered_nextEntry
  | _ => rfl

end

omit [DecidableEq H] in
theorem offered_nextClaim {e : Entry H .balanced P} {known : List BalanceKey} {ps : List (Posting P)} :
    (t.nextClaim e known ps).offered = t.todo := by
  obtain ⟨-, h⟩ | ⟨p, rest, -, h⟩ := t.nextClaim_cases e known ps <;> rw [h]
  · exact offered_nextEntry
  · rfl

omit [DecidableEq H] in
/-- A statement adds nothing to what is inserted. -/
theorem Next.offered {committed : Tables H P} {others : List (Txn H P)} {xmin : Nat} {t' : Txn H P}
    (h : t.Next committed others xmin t') : t'.offered ⊆ t.offered := by
  have hsame : ∀ {u : Txn H P}, u.offered = t.todo → u.offered ⊆ t.offered := fun hu => hu ▸ todo_subset_offered
  cases h with
  | finished => exact List.nil_subset _
  | lock control => exact hsame (by by_cases h : t.job = .pass <;> simp [Txn.offered, h])
  | pick control => exact hsame (by cases h : ((t.view committed).sequenceable xmin).isEmpty <;> simp [Txn.offered])
  | @unique e control =>
    have hbefore : t.offered = e :: t.todo := by rw [Txn.offered, control]
    rw [hbefore]
    cases h : e.reverses.isSome <;> simp [Txn.offered]
  | @reversal e control =>
    have hbefore : t.offered = e :: t.todo := by rw [Txn.offered, control]
    rw [hbefore]
    exact List.Subset.refl _
  | countRows => exact hsame offered_nextRow
  | countEntries => exact hsame offered_nextEntry
  | update => exact hsame offered_nextRow
  | inserted => exact hsame offered_nextClaim
  | replayed => exact hsame offered_nextEntry
  | unlimited => exact hsame offered_nextClaim
  | permitted => exact hsame offered_nextClaim
  | _ => exact hsame rfl

end Txn

/-- What is written, and what is inserted next and later, are witnesses. -/
structure SealedInv (s : Db H P) : Prop where
  rows : ∀ r ∈ s.rows, r.entry.Witnessed
  offered : ∀ t ∈ s.txns, ∀ e ∈ t.offered, e.Witnessed

omit [Blake3 H] [DecidableEq H] in
theorem SealedInv.setTxn {i : Nat} (h : SealedInv s) (slot : s.txns[i]? = some t) {t' : Txn H P}
    (hrows : ∀ r ∈ t'.rows, r.entry.Witnessed) (hoffered : ∀ e ∈ t'.offered, e.Witnessed) : SealedInv (s.setTxn i t') where
  rows r hr := by
    rcases List.mem_append.1 ((Db.rows_setTxn slot t').mem_iff.1 hr) with hr | hr
    · rcases List.mem_append.1 hr with hr | hr
      · exact h.rows r (List.mem_append_left _ hr)
      · exact hrows r hr
    · exact h.rows r ((Db.rows_slot slot).mem_iff.2 (List.mem_append_right _ hr))
  offered := (forall_set_slot slot).2 ⟨hoffered, ((forall_slot slot).1 h.offered).2⟩

omit [Blake3 H] [DecidableEq H] in
/-- The rows of a transaction are among all. -/
theorem SealedInv.slot {i : Nat} (h : SealedInv s) (slot : s.txns[i]? = some t) :
    (∀ r ∈ t.rows, r.entry.Witnessed) ∧ ∀ e ∈ t.offered, e.Witnessed :=
  ⟨fun r hr => h.rows r ((Db.rows_slot slot).mem_iff.2 (List.mem_append_left _ (List.mem_append_right _ hr))),
    ((forall_slot slot).1 h.offered).1⟩

theorem sealedInv_stable (ledger : LedgerId) :
    ((postgres ledger).restrict AppendsSealed).Stable fun s : Db H P => RowsInv s ∧ SealedInv s := by
  rintro s l s' ⟨hrows, h⟩ ⟨st, hl⟩
  refine ⟨rowsInv_stable ledger s l s' hrows st, ?_⟩
  cases Db.step_cases st with
  | begun job batch =>
    refine ⟨fun r hr => h.rows r (by simpa [Db.rows] using hr), fun t ht e he => ?_⟩
    rcases List.mem_append.1 ht with ht | ht
    · exact h.offered t ht e he
    · rw [List.mem_singleton.1 ht, Txn.offered_start] at he
      obtain ⟨draft, ctx, hseal⟩ := hl e he
      exact Entry.witnessed_of_seal hseal
  | @xidTaken i t slot takes =>
    obtain ⟨hmine, hoffered⟩ := h.slot slot
    have hset : SealedInv (s.setTxn i { t with xid := some s.nextXid }) := h.setTxn slot hmine hoffered
    exact ⟨hset.rows, hset.offered⟩
  | @ran i t t' slot _ next =>
    obtain ⟨hmine, hoffered⟩ := h.slot slot
    refine h.setTxn slot (fun r hr => ?_) fun e he => hoffered e (next.offered he)
    rcases next.rows with hnil | hsame | ⟨e, control, hnew, -⟩
    · rw [hnil] at hr
      cases hr
    · exact hmine r (hsame ▸ hr)
    · rw [hnew] at hr
      rcases List.mem_append.1 hr with hr | hr
      · exact hmine r hr
      · rw [List.mem_singleton.1 hr]
        exact witnessed_stored (hoffered e (by rw [Txn.offered, control]; exact List.mem_cons_self))
  | @committed i t slot control =>
    have hset : SealedInv (s.setTxn i .finished) := h.setTxn slot (fun r hr => by cases hr) fun e he => by cases he
    refine ⟨fun r hr => ?_, hset.offered⟩
    obtain ⟨x, hx, hentry⟩ := List.mem_map.1 ((Db.entries_commit slot).mem_iff.1 (List.mem_map_of_mem hr))
    rw [← hentry]
    exact h.rows x hx
  | failed slot => exact h.setTxn slot (fun r hr => by cases hr) fun e he => by cases he
  | registered ok =>
    obtain ⟨accounts, rfl⟩ := Tables.registerAccount_eq_ok ok
    exact ⟨h.rows, h.offered⟩

theorem stepChecked_eq (hrows : RowsInv s) (h : SealedInv s) (l : Label H P) : s.stepChecked l = s.step l := by
  cases l with
  | statement i =>
    show s.txns[i]?.bind _ = s.txns[i]?.bind _
    cases slot : s.txns[i]? with
    | none => rfl
    | some t =>
      have hpass := triggersPass_of_witnessed hrows slot (h.slot slot).1
      rw [Option.bind_some, Option.bind_some, hpass, Bool.not_true, Bool.and_false, if_neg Bool.false_ne_true]
  | _ => rfl

/-! ## The result -/

/-- **The database enforces double entry.** Whatever is appended, in any interleaving, an entry
on file is a witness of double entry or has no postings; and while what is appended was sealed
the triggers refuse nothing, and the runs are those without them. -/
theorem database_enforces (ledger : LedgerId) :
    (∀ s : Db H P, (withTriggers ledger).Reachable s → (postgres ledger).Reachable s ∧
      ∀ r ∈ s.tables.entries, r.entry.postings = [] ∨ r.entry.Witnessed) ∧
    ∀ (s₀ s : Db H P) (ls : List (Label H P)), (postgres ledger).init s₀ →
      (((withTriggers ledger).restrict AppendsSealed).Run s₀ ls s ↔ ((postgres ledger).restrict AppendsSealed).Run s₀ ls s) := by
  refine ⟨fun s h => ⟨reachable_of_withTriggers h, ((enforced_inductive ledger).reachable h).2⟩, fun s₀ s ls hinit => ?_⟩
  have hempty : RowsInv s₀ ∧ SealedInv s₀ := by
    have hrows : s₀.rows = [] := by simp [Db.rows, hinit.1, hinit.2.1, Tables.empty]
    refine ⟨(rowsInv_inductive ledger).init s₀ hinit, fun r hr => ?_, fun t ht => ?_⟩
    · rw [hrows] at hr
      cases hr
    · rw [hinit.2.1] at ht
      cases ht
  refine (LTS.Run.congr (sealedInv_stable ledger) (fun u l u' hu => ?_) hempty).symm
  refine and_congr_left fun _ => ?_
  show u.step l = some u' ↔ u.stepChecked l = some u'
  rw [stepChecked_eq hu.1 hu.2]

end

/-! ## An adopted draft -/

/-- One posting, and no counterpart. -/
def lopsided : Entry Preimage .draft cents := { saleOfApril with postings := [.debit cashId tenEuro .eur] }

def saleAppended : List (Label Preimage cents) :=
  opened ++ [.begin .deferred [saleOfMarch.withState .balanced]] ++ [0, 0, 0, 0, 0, 0].map .statement

/-- Then the draft, adopted under its own hash. -/
def adoptedAppended : List (Label Preimage cents) :=
  saleAppended ++ [.begin .deferred [lopsided.withState .balanced]] ++ [1, 1, 1, 1, 1].map .statement

theorem appendsSealed_saleAppended : ∀ l ∈ saleAppended, ∀ s : Db Preimage cents, AppendsSealed s l := by
  intro l hl s
  rcases List.mem_append.1 hl with hl | hl
  · rcases List.mem_append.1 hl with hl | hl
    · rcases List.mem_pair.1 hl with rfl | rfl <;> trivial
    · obtain rfl := List.mem_singleton.1 hl
      intro e he
      rw [List.mem_singleton.1 he]
      exact Tables.fromSeal_march _ List.mem_cons_self
  · obtain ⟨i, -, rfl⟩ := List.mem_map.1 hl
    trivial

set_option maxRecDepth 20000 in
/-- Not vacuous: the sale is committed with the triggers as without; the adopted draft only without. -/
theorem adopted_draft_refused :
    lopsided.adoptVerified (lopsided.withState .balanced).contentHash = .ok (lopsided.withState .balanced) ∧
    ((withTriggers books).restrict AppendsSealed).Run emptyBooks saleAppended (afterSteps saleAppended) ∧
    (afterSteps saleAppended).tables.entries.length = 1 ∧
    (afterSteps adoptedAppended).tables.entries.length = 2 ∧
    ∃ s : Db Preimage cents, (withTriggers books).Reachable s ∧ s.tables.entries.length = 1 ∧ (postgres books).Reachable s ∧
      ∀ r ∈ s.tables.entries, r.entry.postings = [] ∨ r.entry.Witnessed := by
  obtain ⟨hall, hruns⟩ := database_enforces (H := Preimage) (P := cents) books
  have hsale : ((postgres books).restrict AppendsSealed).Run emptyBooks saleAppended (afterSteps saleAppended) :=
    LTS.Run.restrict (LTS.run_of_exec (LTS.exec_getD (by decide))) appendsSealed_saleAppended
  obtain ⟨s, hs⟩ := Option.isSome_iff_exists.1
    (show (LTS.exec Db.stepChecked emptyBooks adoptedAppended).isSome = true by decide)
  have hreach : (withTriggers books).Reachable s := LTS.reachable_of_exec adoptedAppended ⟨rfl, rfl, rfl⟩ hs
  have hone : (LTS.exec Db.stepChecked emptyBooks adoptedAppended).map (·.tables.entries.length) = some 1 := by decide
  rw [hs] at hone
  exact ⟨if_pos rfl, (hruns _ _ _ ⟨rfl, rfl, rfl⟩).2 hsale, by decide, by decide, s, hreach, Option.some.inj hone, hall s hreach⟩

end DoubleEntry.L5.Postgres
