import DoubleEntry.L5Concurrency.Postgres

/-!
# One row and one answer a key

Every row there is, committed or in an open transaction, differs from every other
in the unique columns (`RowsInv`): an `INSERT` waits for the rows it clashes with
and checks the committed ones. So what a transaction answered names the one row of
the key, and an entry is new in one answer only (`recorded_once`).

**Assumptions.** The unique indexes of the schema, as statements meet them: an insert waits for an
open transaction with a row it clashes with, and then inserts, or finds the row.

**Results.**
* `Next.rows`, `Next.answered`: one statement.
* `Db.Effect.entries`: one step.
* `recorded_once`: every run, any number of transactions, keys sent at the same time.
-/
namespace DoubleEntry.L5.Postgres

open DoubleEntry.Core DoubleEntry.L1 DoubleEntry.L2 DoubleEntry.L3 DoubleEntry.L4

/-! ## Rows -/

section
variable {H : Type} {P : Scale}

/-- The unique columns of two entries differ. -/
structure Apart (a b : Entry H .balanced P) : Prop where
  key : a.idempotencyKey ≠ b.idempotencyKey
  id : a.id ≠ b.id
  reverses : a.reverses = none ∨ a.reverses ≠ b.reverses

theorem Apart.symm {a b : Entry H .balanced P} (h : Apart a b) : Apart b a where
  key := h.key.symm
  id := h.id.symm
  reverses := by
    rcases h.reverses with hn | hne
    · by_cases hb : b.reverses = none
      · exact .inl hb
      · exact .inr fun he => hb (he.trans hn)
    · exact .inr hne.symm

variable {s s' : Db H P} {i : Nat} {t t' : Txn H P}

/-- What the rows record, committed or not. -/
def Db.entries (s : Db H P) : List (Entry H .balanced P) := s.rows.map (·.entry)

theorem Db.rows_slot (slot : s.txns[i]? = some t) :
    s.rows.Perm (s.tables.entries ++ t.rows ++ (s.txns.eraseIdx i).flatMap (·.rows)) := by
  rw [List.append_assoc]
  exact (flatMap_slot slot _).append_left _

theorem apart_of_clashes {a b : EntryRow H P} (h : clashes a b = false) : Apart a.entry b.entry := by
  simp only [clashes, decide_eq_false_iff_not, not_or, not_and] at h
  obtain ⟨hkey, hid, -, hrev⟩ := h
  refine ⟨hkey, hid, ?_⟩
  cases hr : a.entry.reverses with
  | none => exact .inl rfl
  | some original =>
    refine .inr fun he => hrev (by rw [hr]; rfl) ?_
    rw [hr, he]

theorem apart_of_insertRow {seen seen' : Tables H P} {r : EntryRow H P} (h : seen.insertRow r = some seen')
    (fresh : seen.byKey r.entry.idempotencyKey = none) {y : EntryRow H P} (hy : y ∈ seen.entries) :
    Apart r.entry y.entry := by
  unfold Tables.insertRow at h
  split at h
  · rename_i hc
    rw [Tables.constraintsHold, Bool.and_eq_true, List.all_eq_true] at hc
    obtain ⟨hid, -, hrev⟩ := of_decide_eq_true (hc.1 y hy)
    exact ⟨(byKey_eq_none.1 fresh y hy).symm, Ne.symm hid, hrev.imp_right Ne.symm⟩
  · cases h

theorem Db.rows_setTxn (slot : s.txns[i]? = some t) (t' : Txn H P) :
    (s.setTxn i t').rows.Perm (s.tables.entries ++ t'.rows ++ (s.txns.eraseIdx i).flatMap (·.rows)) := by
  rw [List.append_assoc]
  exact (flatMap_set_slot slot _).append_left _

theorem Db.entries_commit (slot : s.txns[i]? = some t) : (s.commit i t).entries.Perm s.entries := by
  have hafter : (s.commit i t).rows.Perm ((t.view s.tables).entries ++ (s.txns.eraseIdx i).flatMap (·.rows)) :=
    (flatMap_set_slot slot _).append_left _
  refine (hafter.map _).trans ?_
  rw [List.map_append, Txn.entries_view, ← List.map_append]
  exact ((Db.rows_slot slot).map _).symm

namespace Txn

@[simp] theorem rows_nextEntry : t.nextEntry.rows = t.rows := rfl
@[simp] theorem rows_nextRow : t.nextRow.rows = t.rows := rfl

@[simp] theorem rows_start {job : Job} {batch : List (Entry H .balanced P)} : (start job batch).rows = [] := by
  cases job <;> rfl

end Txn

end

section
variable {H : Type} [Blake3 H] {P : Scale} {s s' : Db H P} {i : Nat} {t t' : Txn H P}

namespace Txn

theorem nextClaim_cases (t : Txn H P) (e : Entry H .balanced P) (checked : List BalanceKey) (ps : List (Posting P)) :
    (unchecked checked ps = none ∧ t.nextClaim e checked ps = t.recordNew e) ∨ ∃ p rest,
      unchecked checked ps = some (p, rest) ∧ t.nextClaim e checked ps = { t with control := .claim e checked p rest } := by
  unfold nextClaim
  cases unchecked checked ps with
  | none => exact .inl ⟨rfl, rfl⟩
  | some x => exact .inr ⟨x.1, x.2, rfl, rfl⟩

section
variable {e : Entry H .balanced P} {checked : List BalanceKey} {ps : List (Posting P)}

@[simp] theorem rows_nextClaim : (t.nextClaim e checked ps).rows = t.rows := by
  obtain ⟨-, h⟩ | ⟨p, rest, -, h⟩ := t.nextClaim_cases e checked ps <;> rw [h]
  rfl

@[simp] theorem accountLocks_nextClaim : (t.nextClaim e checked ps).accountLocks = t.accountLocks := by
  obtain ⟨-, h⟩ | ⟨p, rest, -, h⟩ := t.nextClaim_cases e checked ps <;> rw [h]
  rfl

@[simp] theorem appendLock_nextClaim : (t.nextClaim e checked ps).appendLock = t.appendLock := by
  obtain ⟨-, h⟩ | ⟨p, rest, -, h⟩ := t.nextClaim_cases e checked ps <;> rw [h]
  rfl

@[simp] theorem xid_nextClaim : (t.nextClaim e checked ps).xid = t.xid := by
  obtain ⟨-, h⟩ | ⟨p, rest, -, h⟩ := t.nextClaim_cases e checked ps <;> rw [h]
  rfl

@[simp] theorem job_nextClaim : (t.nextClaim e checked ps).job = t.job := by
  obtain ⟨-, h⟩ | ⟨p, rest, -, h⟩ := t.nextClaim_cases e checked ps <;> rw [h]
  rfl

end

/-- A transaction is rolled back, keeps its rows, or inserts one that clashes with none. -/
theorem Next.rows {committed : Tables H P} {others : List (Txn H P)} {xmin : Nat}
    (h : t.Next committed others xmin t') : t'.rows = [] ∨ t'.rows = t.rows ∨ ∃ e, t.control = .insert e ∧
      t'.rows = t.rows ++ [t.rowOf e] ∧ (t.view committed).byKey e.idempotencyKey = none ∧
      (∀ y ∈ committed.entries ++ t.rows, Apart (t.rowOf e).entry y.entry) ∧
      (∀ u ∈ others, ∀ r ∈ u.rows, Apart (t.rowOf e).entry r.entry) ∧
      ∀ p ∈ (t.rowOf e).entry.postings, 0 < p.amount.minor := by
  cases h with
  | finished => exact .inl rfl
  | @inserted e seen control fresh alone holds =>
    refine .inr (.inr ⟨e, control, rows_nextClaim, fresh, fun y hy => ?_, fun u hu r hr => ?_, ?_⟩)
    · obtain ⟨z, hz, heq, -⟩ := mem_view hy
      rw [← heq]
      exact apart_of_insertRow holds fresh hz
    · exact apart_of_clashes (alone u hu r hr)
    · exact (Tables.insertRow_eq_some holds).2.2
  | unlimited => exact .inr (.inl rows_nextClaim)
  | permitted => exact .inr (.inl rows_nextClaim)
  | _ => exact .inr (.inl rfl)

end Txn

/-- A step loses entries, or adds one apart from all the others. -/
theorem Db.Effect.entries {l : Label H P} (h : s.Effect l s') : (∃ lost, s.entries.Perm (s'.entries ++ lost)) ∨
    ∃ e, s'.entries.Perm (e :: s.entries) ∧ (∀ b ∈ s.entries, Apart e b) ∧ ∀ p ∈ e.postings, 0 < p.amount.minor := by
  have kept : ∀ {i : Nat} {t t' : Txn H P}, s.txns[i]? = some t → t'.rows = [] ∨ t'.rows = t.rows →
      ∃ lost, s.entries.Perm ((s.setTxn i t').entries ++ lost) := by
    intro i t t' slot ht
    have hbefore := Db.rows_slot slot
    have hafter := Db.rows_setTxn slot t'
    rcases ht with hnil | hsame
    · refine ⟨t.rows.map (·.entry), ?_⟩
      rw [hnil, List.append_nil] at hafter
      refine (hbefore.map (·.entry)).trans (.trans ?_ ((hafter.map (·.entry)).symm.append_right _))
      rw [List.append_assoc, List.map_append, List.map_append, List.map_append, List.append_assoc]
      exact List.perm_append_comm.append_left _
    · refine ⟨[], ?_⟩
      rw [hsame] at hafter
      rw [List.append_nil]
      exact (hbefore.trans hafter.symm).map _
  cases h with
  | begun job batch =>
    refine .inl ⟨[], List.Perm.of_eq ?_⟩
    simp [Db.entries, Db.rows]
  | xidTaken slot => exact .inl (kept slot (.inr rfl))
  | @ran _ _ t' slot _ next =>
    rcases next.rows with hnil | hsame | ⟨e, -, hrows, -, hmine, hothers, hpos⟩
    · exact .inl (kept slot (.inl hnil))
    · exact .inl (kept slot (.inr hsame))
    · have hafter := Db.rows_setTxn slot t'
      rw [hrows, ← List.append_assoc, List.append_assoc, List.singleton_append] at hafter
      have hcons := hafter.trans (List.perm_middle.trans ((Db.rows_slot slot).symm.cons _))
      refine .inr ⟨_, hcons.map _, fun b hb => ?_, hpos⟩
      obtain ⟨r, hr, rfl⟩ := List.mem_map.1 hb
      rcases List.mem_append.1 ((Db.rows_slot slot).mem_iff.1 hr) with hr | hr
      · exact hmine r hr
      · obtain ⟨u, hu, hr⟩ := List.mem_flatMap.1 hr
        exact hothers u hu r hr
  | committed slot =>
    refine .inl ⟨[], ?_⟩
    rw [List.append_nil]
    exact (Db.entries_commit slot).symm
  | failed slot => exact .inl (kept slot (.inl rfl))
  | registered ok =>
    obtain ⟨accounts, rfl⟩ := Tables.registerAccount_eq_ok ok
    exact .inl ⟨[], by rw [List.append_nil]; exact .refl _⟩

variable [DecidableEq H]

/-- The unique columns differ and amounts are positive, in every row there is. -/
structure RowsInv (s : Db H P) : Prop where
  apart : s.entries.Pairwise Apart
  positive : ∀ e ∈ s.entries, ∀ p ∈ e.postings, 0 < p.amount.minor

theorem rowsInv_stable (ledger : LedgerId) : (postgres ledger).Stable (RowsInv : Db H P → Prop) := by
  intro s l s' hs st
  rcases (Db.step_cases st).entries with ⟨lost, hp⟩ | ⟨e, hp, hapart, hpos⟩
  · have hall := hp.pairwise_iff Apart.symm |>.1 hs.apart
    exact ⟨(List.pairwise_append.1 hall).1, fun e he => hs.positive e (hp.mem_iff.2 (List.mem_append_left _ he))⟩
  · refine ⟨(hp.pairwise_iff Apart.symm).2 (List.pairwise_cons.2 ⟨hapart, hs.apart⟩), fun b hb => ?_⟩
    rcases List.mem_cons.1 (hp.mem_iff.1 hb) with rfl | hb
    · exact hpos
    · exact hs.positive b hb

theorem rowsInv_inductive (ledger : LedgerId) : (postgres ledger).Inductive (RowsInv : Db H P → Prop) := by
  refine ⟨fun s h => ?_, rowsInv_stable ledger⟩
  have hnil : s.entries = [] := by simp [Db.entries, Db.rows, h.1, h.2.1, Tables.empty]
  exact ⟨by simp [hnil], by simp [hnil]⟩

end

/-! ## Answers -/

section
variable {H : Type} [Blake3 H] {P : Scale} {t t' : Txn H P} {e : Entry H .balanced P} {x : Logged H P}

omit [Blake3 H] in
/-- The identifiers of what was new. -/
def newIds (out : List (Answer H P)) : List EntryId := (out.filter (·.2.isNew)).map (·.2.id)

omit [Blake3 H] in
theorem newIds_append (out out' : List (Answer H P)) : newIds (out ++ out') = newIds out ++ newIds out' := by
  simp [newIds]

/-- What is stored under the key of an entry has the identifier and the hash of the answer. -/
structure Names (x : Logged H P) (a : Answer H P) : Prop where
  key : x.entry.idempotencyKey = a.1.idempotencyKey
  id : x.entry.id = a.2.id
  stored : x.contentHash = a.1.contentHash
  submitted : a.2.contentHash = a.1.contentHash

omit [Blake3 H] in
/-- The entry whose row is inserted and not answered yet. -/
def Txn.claiming (t : Txn H P) : Option (Entry H .balanced P) :=
  match t.control with
  | .claim e _ _ _ => some e
  | .sum e _ _ _ _ => some e
  | _ => none

/-- The answers name stored leaves or rows of the transaction, whose rows are what is new. -/
structure Txn.Answered (stored : List (Logged H P)) (t : Txn H P) : Prop where
  named : ∀ a ∈ t.out, ∃ x ∈ stored ++ t.rows.map (·.toLogged), Names x a
  claimed : ∀ e, t.claiming = some e → ⟨Backend.postgres.stored e, e.contentHash⟩ ∈ t.rows.map (·.toLogged)
  new : t.rows.map (·.entry.id) = newIds t.out ++ (t.claiming.map (·.id)).toList

variable {stored : List (Logged H P)}

namespace Txn

omit [Blake3 H] in
@[simp] theorem claiming_nextEntry : t.nextEntry.claiming = none := by
  unfold nextEntry claiming entryControl
  cases t.todo with
  | nil => by_cases h : t.job = .inline <;> simp [h]
  | cons e es => rfl

omit [Blake3 H] in
@[simp] theorem claiming_nextRow : t.nextRow.claiming = none := by
  unfold nextRow claiming rowControl
  cases t.picked <;> rfl

omit [Blake3 H] in
theorem claiming_start {job : Job} {batch : List (Entry H .balanced P)} : (start job batch).claiming = none := by
  cases job with
  | deferred => exact claiming_nextEntry
  | _ => rfl

namespace Answered

theorem finished : (Txn.finished : Txn H P).Answered stored :=
  ⟨fun _ ha => (List.not_mem_nil ha).elim, fun _ he => (Option.some_ne_none _ he.symm).elim, rfl⟩

theorem of_eq (h : t.Answered stored) (hrows : t'.rows = t.rows) (hout : t'.out = t.out)
    (hclaiming : t'.claiming = t.claiming) : t'.Answered stored := by
  refine ⟨?_, ?_, ?_⟩
  · rw [hout, hrows]
    exact h.named
  · rw [hclaiming, hrows]
    exact h.claimed
  · rw [hout, hrows, hclaiming]
    exact h.new

theorem mono {stored' : List (Logged H P)} (h : t.Answered stored) (hs : ∀ x ∈ stored, x ∈ stored') :
    t.Answered stored' where
  named a ha := by
    obtain ⟨x, hx, hn⟩ := h.named a ha
    exact ⟨x, List.mem_append.2 ((List.mem_append.1 hx).imp_left (hs x)), hn⟩
  claimed := h.claimed
  new := h.new

/-- The row of an entry is in, its keys are checked: it is answered as new. -/
theorem recordNew (named : ∀ a ∈ t.out, ∃ x ∈ stored ++ t.rows.map (·.toLogged), Names x a)
    (hrow : ⟨Backend.postgres.stored e, e.contentHash⟩ ∈ t.rows.map (·.toLogged))
    (hnew : t.rows.map (·.entry.id) = newIds t.out ++ [e.id]) : (t.recordNew e).Answered stored where
  named a ha := by
    rcases List.mem_append.1 ha with ha | ha
    · exact named a ha
    · obtain rfl := List.mem_singleton.1 ha
      exact ⟨_, List.mem_append_right _ hrow, rfl, rfl, rfl, rfl⟩
  claimed e' he := by
    rw [Txn.recordNew, claiming_nextEntry] at he
    cases he
  new := by
    rw [Txn.recordNew, claiming_nextEntry]
    refine hnew.trans ?_
    rw [Option.map_none, Option.toList_none, List.append_nil]
    exact (newIds_append t.out [(e, ⟨e.id, _, e.contentHash, true⟩)]).symm

theorem nextClaim {checked : List BalanceKey} {ps : List (Posting P)}
    (named : ∀ a ∈ t.out, ∃ x ∈ stored ++ t.rows.map (·.toLogged), Names x a)
    (hrow : ⟨Backend.postgres.stored e, e.contentHash⟩ ∈ t.rows.map (·.toLogged))
    (hnew : t.rows.map (·.entry.id) = newIds t.out ++ [e.id]) : (t.nextClaim e checked ps).Answered stored := by
  obtain ⟨-, h⟩ | ⟨p, rest, -, h⟩ := t.nextClaim_cases e checked ps <;> rw [h]
  · exact recordNew named hrow hnew
  · refine ⟨named, fun e' he => ?_, hnew⟩
    cases he
    exact hrow

end Answered

theorem Next.answered {committed : Tables H P} {others : List (Txn H P)} {xmin : Nat}
    (h : t.Next committed others xmin t') (ht : t.Answered (committed.entries.map (·.toLogged))) :
    t'.Answered (committed.entries.map (·.toLogged)) := by
  -- statements of other kinds claim no entry, before or after
  have idle : ∀ {u : Txn H P}, u.rows = t.rows → u.out = t.out → t.claiming = none → u.claiming = none →
      u.Answered (committed.entries.map (·.toLogged)) := fun hrows hout hbefore hafter =>
    ht.of_eq hrows hout (hafter.trans hbefore.symm)
  have claiming_eq : ∀ {control : Control H P}, t.control = control →
      t.claiming = { t with control := control }.claiming := fun h => by unfold claiming; rw [h]
  -- the entry claimed is answered, or claims its next key
  have go_on : ∀ {e : Entry H .balanced P} {checked : List BalanceKey} {ps : List (Posting P)}, t.claiming = some e →
      (t.nextClaim e checked ps).Answered (committed.entries.map (·.toLogged)) := fun hc => by
    refine .nextClaim ht.named (ht.claimed _ hc) ?_
    have hnew := ht.new
    rwa [hc] at hnew
  cases h with
  | finished => exact .finished
  | lock control =>
    refine idle rfl rfl (claiming_eq control) ?_
    unfold claiming
    by_cases hjob : t.job = .pass <;> simp [hjob]
  | pick control =>
    refine idle rfl rfl (claiming_eq control) ?_
    unfold claiming
    by_cases hempty : ((t.view committed).sequenceable xmin).isEmpty <;> simp [hempty]
  | nextIndex control => exact idle rfl rfl (claiming_eq control) rfl
  | subtrees control => exact idle rfl rfl (claiming_eq control) rfl
  | countRows control => exact idle rfl rfl (claiming_eq control) claiming_nextRow
  | countEntries control => exact idle rfl rfl (claiming_eq control) claiming_nextEntry
  | update control => exact idle rfl rfl (claiming_eq control) claiming_nextRow
  | @unique e control =>
    refine idle rfl rfl (claiming_eq control) ?_
    unfold claiming
    by_cases hrev : e.reverses.isSome <;> simp [hrev]
  | reversal control => exact idle rfl rfl (claiming_eq control) rfl
  | taken control => exact idle rfl rfl (claiming_eq control) rfl
  | @inserted e seen control =>
    have hbefore : t.claiming = none := claiming_eq control
    have hnew := ht.new
    rw [hbefore, Option.map_none, Option.toList_none, List.append_nil] at hnew
    refine .nextClaim (fun a ha => ?_) (List.mem_map.2 ⟨t.rowOf e, List.mem_append_right _ (.head _), rfl⟩) ?_
    · obtain ⟨x, hx, hn⟩ := ht.named a ha
      refine ⟨x, ?_, hn⟩
      rw [List.map_append, ← List.append_assoc]
      exact List.mem_append_left _ hx
    · rw [List.map_append, hnew]
      rfl
  | @replayed e existing control stored same =>
    obtain ⟨hmem, hkey⟩ := byKey_eq_some stored
    obtain ⟨x, hx, hlogged, -⟩ := of_mem_view hmem
    have hbefore : t.claiming = none := claiming_eq control
    have hnew := ht.new
    rw [hbefore] at hnew
    refine ⟨fun a ha => ?_, fun e' he => ?_, ?_⟩
    · rcases List.mem_append.1 ha with ha | ha
      · exact ht.named a ha
      · obtain rfl := List.mem_singleton.1 ha
        refine ⟨existing.toLogged, ?_, hkey, rfl, same, rfl⟩
        have hmap := List.mem_map_of_mem (f := (·.toLogged)) hx
        rwa [hlogged, List.map_append] at hmap
    · rw [claiming_nextEntry] at he
      cases he
    · rw [claiming_nextEntry]
      refine hnew.trans ?_
      refine congrArg (· ++ _) (.symm (.trans (newIds_append _ _) ?_))
      exact List.append_nil _
  | unlimited control => exact go_on (claiming_eq control)
  | claimed control => exact ht.of_eq rfl rfl (claiming_eq control).symm
  | permitted control => exact go_on (claiming_eq control)
  | store control => exact idle rfl rfl (claiming_eq control) rfl

end Txn

variable [DecidableEq H]

/-- Committed answers name committed rows, and the new ones are the rows. -/
structure AnswersInv (s : Db H P) : Prop where
  named : ∀ a ∈ s.commits.flatten, ∃ x ∈ s.tables.entries.map (·.toLogged), Names x a
  new : (newIds s.commits.flatten).Perm (s.tables.entries.map (·.entry.id))
  txns : ∀ t ∈ s.txns, t.Answered (s.tables.entries.map (·.toLogged))

theorem answersInv_inductive (ledger : LedgerId) : (postgres ledger).Inductive (AnswersInv : Db H P → Prop) := by
  refine ⟨fun s h => ?_, fun s l s' hs st => ?_⟩
  · obtain ⟨htables, htxns, hcommits⟩ := h
    refine ⟨by simp [hcommits], ?_, by simp [htxns]⟩
    rw [hcommits, htables]
    exact .refl _
  · cases Db.step_cases st with
    | begun job batch =>
      refine ⟨hs.named, hs.new, fun t ht => ?_⟩
      rcases List.mem_append.1 ht with ht | ht
      · exact hs.txns t ht
      · obtain rfl := List.mem_singleton.1 ht
        have hout : (Txn.start job batch).out = [] := by cases job <;> rfl
        refine ⟨by simp [hout], fun e he => ?_, by simp [hout, newIds, Txn.claiming_start]⟩
        rw [Txn.claiming_start] at he
        cases he
    | xidTaken slot =>
      obtain ⟨ht, hothers⟩ := (forall_slot slot).1 hs.txns
      exact ⟨hs.named, hs.new, (forall_set_slot slot).2 ⟨ht.of_eq rfl rfl rfl, hothers⟩⟩
    | ran slot _ next =>
      obtain ⟨ht, hothers⟩ := (forall_slot slot).1 hs.txns
      exact ⟨hs.named, hs.new, (forall_set_slot slot).2 ⟨next.answered ht, hothers⟩⟩
    | @committed i t slot control =>
      obtain ⟨ht, hothers⟩ := (forall_slot slot).1 hs.txns
      have hleaves : (t.view s.tables).entries.map (·.toLogged) =
          s.tables.entries.map (·.toLogged) ++ t.rows.map (·.toLogged) := by rw [Txn.leaves_view, List.map_append]
      have hkept : ∀ x ∈ s.tables.entries.map (·.toLogged), x ∈ (t.view s.tables).entries.map (·.toLogged) := by
        intro x hx
        rw [hleaves]
        exact List.mem_append_left _ hx
      have hclaiming : t.claiming = none := by rw [Txn.claiming, control]
      refine ⟨fun a ha => ?_, ?_, (forall_set_slot slot).2 ⟨.finished, fun u hu => (hothers u hu).mono hkept⟩⟩
      · rw [Db.commit, List.flatten_concat] at ha
        rcases List.mem_append.1 ha with ha | ha
        · obtain ⟨x, hx, hn⟩ := hs.named a ha
          exact ⟨x, hkept x hx, hn⟩
        · obtain ⟨x, hx, hn⟩ := ht.named a ha
          exact ⟨x, hleaves ▸ hx, hn⟩
      · have hnew := ht.new
        rw [hclaiming, Option.map_none, Option.toList_none, List.append_nil] at hnew
        have hids : (t.view s.tables).entries.map (·.entry.id) =
            s.tables.entries.map (·.entry.id) ++ t.rows.map (·.entry.id) := by
          have h := congrArg (List.map (·.entry.id)) hleaves
          simpa only [List.map_append, List.map_map, Function.comp_def] using h
        rw [Db.commit, List.flatten_concat, newIds_append, hids, hnew]
        exact hs.new.append_right _
    | failed slot =>
      exact ⟨hs.named, hs.new, (forall_set_slot slot).2 ⟨.finished, ((forall_slot slot).1 hs.txns).2⟩⟩
    | registered ok =>
      obtain ⟨accounts, rfl⟩ := Tables.registerAccount_eq_ok ok
      exact ⟨hs.named, hs.new, hs.txns⟩

/-- One row a key, one reversal an entry, and answers that name the row of their key. -/
structure RecordedOnce (s : Db H P) : Prop where
  keys : (s.tables.entries.map (·.entry.idempotencyKey)).Nodup
  reversals : (s.tables.entries.filterMap (·.entry.reverses)).Nodup
  named : ∀ out ∈ s.commits, ∀ a ∈ out, ∃ r ∈ s.tables.entries, Names r.toLogged a
  new : ∀ r ∈ s.tables.entries, (newIds s.commits.flatten).count r.entry.id = 1

omit [Blake3 H] [DecidableEq H] in
theorem RowsInv.committed {s : Db H P} (h : RowsInv s) : (s.tables.entries.map (·.entry)).Pairwise Apart := by
  have hall := h.apart
  rw [Db.entries, Db.rows, List.map_append] at hall
  exact (List.pairwise_append.1 hall).1

/-- **At most once.** Whatever overlaps, a key has one entry and an entry one reversal,
every answer for a key names that entry with the content submitted, and one of them
says it is new. -/
theorem recorded_once (ledger : LedgerId) {s : Db H P} (h : (postgres ledger).Reachable s) : RecordedOnce s := by
  have hrows := ((rowsInv_inductive ledger).reachable h).committed
  have ha := (answersInv_inductive ledger).reachable h
  rw [List.pairwise_map] at hrows
  refine ⟨List.pairwise_map.2 (hrows.imp fun h => h.key), List.pairwise_filterMap.2 (hrows.imp fun h => ?_), ?_, ?_⟩
  · intro a hra b hrb
    refine h.reverses.resolve_left (by simp [hra]) ∘ fun hab => ?_
    rw [hra, hrb, hab]
  · intro out hout a hmem
    obtain ⟨x, hx, hn⟩ := ha.named a (List.mem_flatten.2 ⟨out, hout, hmem⟩)
    obtain ⟨r, hr, rfl⟩ := List.mem_map.1 hx
    exact ⟨r, hr, hn⟩
  · intro r hr
    have hids : (s.tables.entries.map (·.entry.id)).Nodup := List.pairwise_map.2 (hrows.imp fun h => h.id)
    rw [ha.new.count_eq]
    exact List.count_eq_one_of_mem hids (List.mem_map_of_mem hr)

end

/-- Two calls send the sale of March; the second waits for the first. -/
def sentTwice : List (Label Preimage cents) :=
  opened ++ [.begin .deferred [saleOfMarch.withState .balanced], .begin .deferred [saleOfMarch.withState .balanced]] ++
    [0, 1, 0, 1, 0, 0, 0, 0, 1, 1, 1].map .statement

set_option maxRecDepth 10000 in
/-- Not vacuous: both calls are answered, one of them with the entry as new. -/
theorem sentTwice_recorded_once :
    (afterSteps sentTwice).commits.map (·.map (·.2.isNew)) = [[true], [false]] ∧ RecordedOnce (afterSteps sentTwice) :=
  ⟨by decide, recorded_once books (reachable_afterSteps (by decide))⟩

end DoubleEntry.L5.Postgres
