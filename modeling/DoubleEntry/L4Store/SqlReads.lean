import DoubleEntry.L3Ledger.BalanceReads
import DoubleEntry.L4Store.SqlStore

/-!
# Reading sums from the SQL stores

Balances, trial balances, statements and closing balances are sums over the rows
of `postings`, read back as 64-bit integers. `append` bounds no such sum, where
the journal's own fold is checked. So the reads succeed in every state of a run
whose batches keep the gross totals of all rows in range
(`readable_of_fits`), and two entries of the largest amount are accepted and make
a key unreadable (`accepted_unreadable`).

**Assumptions.** `Fits`, of each call: batches are of sealed entries and leave the gross totals of
every key, over all rows, in range. A trial balance is asked for a date the backend can bind.

**Results.**
* `statementLines_ok`: the running balance of a page.
* `Effect.summable`: one call.
* `readable_of_fits`, `accepted_unreadable`: runs that keep to it, and one that does not.
-/
namespace DoubleEntry.L4

open DoubleEntry.Core DoubleEntry.L1 DoubleEntry.L2 DoubleEntry.L3

/-! ## Reads -/

/-- mirrors src/storage.rs:64-67 -/
def maxPageSize : Nat := 4096

/-- mirrors src/storage.rs:694-699 -/
structure PostingCursor where
  after : Option PostingPosition
  limit : Nat

/-- mirrors src/storage.rs:735-737 -/
def PostingCursor.effectiveLimit (c : PostingCursor) : Nat := max 1 (min c.limit maxPageSize)

/-- mirrors src/storage.rs:742-747 -/
structure StatementPage (P : Scale) where
  lines : List (StatementLine P)
  next : Option PostingCursor

/-- What a read fails with. -/
inductive ReadError
  | store (e : SqlError)
  | money (e : MoneyError)
  deriving DecidableEq

/-- A position and the largest one a `BIGINT` holds. mirrors src/storage/sqlite.rs:741-743, src/storage/postgres.rs:884-886 -/
def bigint (n : Nat) : Nat := min n (2 ^ 63 - 1)

def prefixBound (size : Option Nat) : Nat := size.elim (2 ^ 63 - 1) bigint

/-- `posting_index` is a `SMALLINT` on Postgres. -/
def Backend.postingIndex : Backend → Nat → Nat
  | .sqlite, n => n
  | .postgres, n => min n 32767

/-- The key as the rows of `postings` hold it. -/
def Backend.storedKey (B : Backend) (key : BalanceKey) : BalanceKey := { key with account := B.handle key.account }

variable {H : Type} {P : Scale}

/-- A sequenced posting: its position, its entry and itself. -/
structure PostingRow (H : Type) (P : Scale) where
  index : Nat
  postingIndex : Nat
  entry : Entry H .balanced P
  posting : Posting P

namespace Tables

/-- `log_index IS NOT NULL AND log_index < ..` -/
def sequencedBelow (t : Tables H P) (bound : Nat) : List (EntryRow H P) :=
  t.entries.filter fun r => r.placed.any fun p => p.1 < bound

/-- mirrors src/storage/sqlite.rs:1171-1191, src/storage/postgres.rs:842-882,1342-1353 -/
def balance (B : Backend) (t : Tables H P) (key : BalanceKey) (size : Option Nat) : Except SqlError (Balance P) :=
  sumRow ((t.sequencedBelow (prefixBound size)).flatMap (·.entry.postings)) (B.storedKey key)

/-- mirrors src/storage/sqlite.rs:1193-1207, src/storage/postgres.rs:1346-1384 -/
def trialBalance (t : Tables H P) (size : Option Nat) : Except SqlError (TrialBalance P) :=
  sumByKey ((t.sequencedBelow (prefixBound size)).flatMap (·.entry.postings))

/-- The sequenced entries with their positions, `ORDER BY log_index`. -/
def sequencedRows (t : Tables H P) : List (Nat × EntryRow H P) :=
  (t.entries.filterMap fun r => r.placed.map fun p => (p.1, r)).insertionSort fun a b => a.1 ≤ b.1

/-- The sequenced postings of a key, `ORDER BY log_index, posting_index`. -/
def postingRows (t : Tables H P) (key : BalanceKey) : List (PostingRow H P) :=
  t.sequencedRows.flatMap fun x =>
    (x.2.entry.postings.zipIdx.filter fun p => p.1.key = key).map fun p => ⟨x.1, p.2, x.2.entry, p.1⟩

/-- `log_index < .. OR (log_index = .. AND posting_index <= ..)`: before the page. -/
def shown (B : Backend) (cursor : PostingCursor) (r : PostingRow H P) : Bool :=
  cursor.after.any fun p => r.index < bigint p.index ∨
    (r.index = bigint p.index ∧ r.postingIndex ≤ B.postingIndex p.posting)

/-- The balance a page opens with. -/
def opening (B : Backend) (rows : List (PostingRow H P)) (key : BalanceKey) (cursor : PostingCursor) :
    Except SqlError (Balance P) :=
  if cursor.after.isSome then sumRow ((rows.filter (shown B cursor)).map (·.posting)) key else .ok .zero

/-- The loop over the rows of a page. -/
def statementLines : Balance P → List (PostingRow H P) → Except MoneyError (List (StatementLine P))
  | _, [] => .ok []
  | running, r :: rows => do
    let running ← running.add r.posting.direction r.posting.amount
    let lines ← statementLines running rows
    let index := if r.postingIndex < 2 ^ 16 then r.postingIndex else 0
    .ok (⟨r.index, ⟨r.entry.id, index⟩, r.entry.bookingDate, r.posting.direction, r.posting.amount, running,
      r.entry.kind⟩ :: lines)

/-- mirrors src/storage/sqlite.rs:1667-1772, src/storage/postgres.rs:1891-2000 -/
def statement (B : Backend) (t : Tables H P) (key : BalanceKey) (cursor : PostingCursor) :
    Except ReadError (StatementPage P) := do
  let rows := t.postingRows (B.storedKey key)
  let opening ← (opening B rows (B.storedKey key) cursor).mapError .store
  let rest := rows.filter fun r => !shown B cursor r
  let lines ← (statementLines opening (rest.take cursor.effectiveLimit)).mapError .money
  let next := if cursor.effectiveLimit < rest.length then
      lines.getLast?.map fun l => ⟨some ⟨l.index, l.posting.index⟩, cursor.limit⟩
    else none
  .ok ⟨lines, next⟩

/-- Every such read returns, of a date that can be bound. -/
structure Readable (B : Backend) (t : Tables H P) : Prop where
  balance : ∀ key size, ∃ b, t.balance B key size = .ok b
  trialBalance : ∀ size, ∃ tb, t.trialBalance size = .ok tb
  closing : ∀ stop, B.storesDate stop = true → ∃ tb, t.trialBalanceThroughDate B.dialect stop = .ok tb
  statement : ∀ key cursor, ∃ page, t.statement B key cursor = .ok page

/-! ## What the reads need -/

/-- The postings of all rows, sequenced or not. -/
def filed (t : Tables H P) : List (Posting P) := t.entries.flatMap (·.entry.postings)

/-- Positive amounts, and gross totals in range. -/
structure Summable (ps : List (Posting P)) : Prop where
  positive : ∀ p ∈ ps, 0 < p.amount.minor
  fits : ∀ d key, gross d key ps ≤ i64Max

theorem Summable.sublist {ps qs : List (Posting P)} (h : Summable qs) (hs : ps.Sublist qs) : Summable ps where
  positive p hp := h.positive p (hs.subset hp)
  fits d key := (gross_le hs fun p hp => (h.positive p hp).le).trans (h.fits d key)

theorem Summable.fitsI64 {ps : List (Posting P)} (h : Summable ps) (key : BalanceKey) (d : Direction) :
    FitsI64 (gross d key ps) := by
  have hn : 0 ≤ gross d key ps := gross_nonneg fun p hp => (h.positive p hp).le
  have hmin : i64Min ≤ 0 := by decide
  exact ⟨by omega, h.fits d key⟩

theorem sumRow_of_fits {ps : List (Posting P)} {key : BalanceKey} (h : ∀ d, FitsI64 (gross d key ps)) :
    ∃ b, sumRow ps key = .ok b :=
  ⟨⟨⟨_, h .debit⟩, ⟨_, h .credit⟩⟩, sumRow_eq_ok.2 fun d => by cases d <;> rfl⟩

theorem Summable.sumByKey {ps : List (Posting P)} (h : Summable ps) : ∃ tb, sumByKey ps = .ok tb := by
  obtain ⟨tb, htb⟩ := applyAll_ok (fun p hp => (h.positive p hp).le) fun key d => h.fits d key
  exact ⟨tb, sumByKey_eq_ok.2 (totals_of_applyAll htb)⟩

/-- The rows of a key are among those of the table. -/
theorem gross_postingRows (t : Tables H P) (hn : ∀ p ∈ t.filed, 0 < p.amount.minor) (d : Direction) (key : BalanceKey) :
    gross d key ((t.postingRows key).map (·.posting)) ≤ gross d key t.filed := by
  have hmap : (t.postingRows key).map (·.posting) =
      (t.sequencedRows.map Prod.snd).flatMap fun r => r.entry.postings.filter (·.key = key) := by
    unfold postingRows
    rw [List.map_flatMap, List.flatMap_map]
    refine List.flatMap_congr fun x _ => ?_
    rw [List.map_map, ← Journal.map_fst_zipIdx_filter]
    rfl
  have hsub : ((t.sequencedRows.map Prod.snd).flatMap fun r => r.entry.postings.filter (·.key = key)).Sublist
      ((t.sequencedRows.map Prod.snd).flatMap (·.entry.postings)) := by
    induction t.sequencedRows.map Prod.snd with
    | nil => exact .slnil
    | cons r rows ih =>
      rw [List.flatMap_cons, List.flatMap_cons]
      exact List.filter_sublist.append ih
  have hperm : (t.sequencedRows.map Prod.snd).Perm (t.entries.filter (·.placed.isSome)) := by
    have hpairs : (t.entries.filterMap fun r => r.placed.map fun p => (p.1, r)).map Prod.snd =
        t.entries.filter (·.placed.isSome) := by
      induction t.entries with
      | nil => rfl
      | cons r rows ih =>
        cases hr : r.placed with
        | none => simp [hr, ih]
        | some p => simp [hr, ih]
    rw [← hpairs]
    exact (List.perm_insertionSort _ _).map _
  have hrows : ((t.entries.filter (·.placed.isSome)).flatMap (·.entry.postings)).Sublist t.filed :=
    List.filter_sublist.flatMap _
  rw [hmap]
  have hpos : ∀ p ∈ (t.sequencedRows.map Prod.snd).flatMap (·.entry.postings), 0 ≤ p.amount.minor := fun p hp =>
    (hn p (hrows.subset ((hperm.flatMap_right _).mem_iff.1 hp))).le
  calc gross d key ((t.sequencedRows.map Prod.snd).flatMap fun r => r.entry.postings.filter (·.key = key))
      ≤ gross d key ((t.sequencedRows.map Prod.snd).flatMap (·.entry.postings)) := gross_le hsub hpos
    _ = gross d key ((t.entries.filter (·.placed.isSome)).flatMap (·.entry.postings)) :=
        gross_perm (hperm.flatMap_right _)
    _ ≤ gross d key t.filed := gross_le hrows fun p hp => (hn p hp).le

theorem gross_cons (d : Direction) (key : BalanceKey) (p : Posting P) (ps : List (Posting P)) :
    gross d key (p :: ps) = (if p.key = key ∧ p.direction = d then p.amount.minor else 0) + gross d key ps := by
  unfold gross
  by_cases h : p.key = key ∧ p.direction = d <;> simp [h]

/-- The running balance of a page stays in range. -/
theorem statementLines_ok {rows : List (PostingRow H P)} {key : BalanceKey} (hkey : ∀ r ∈ rows, r.posting.key = key)
    (hn : ∀ r ∈ rows, 0 < r.posting.amount.minor) : ∀ {running : Balance P}, (∀ d, 0 ≤ running.side d) →
    (∀ d, running.side d + gross d key (rows.map (·.posting)) ≤ i64Max) →
    ∃ lines, statementLines running rows = .ok lines := by
  induction rows with
  | nil => exact fun _ _ => ⟨[], rfl⟩
  | cons r rows ih =>
    intro running hrun hle
    have hcons : ∀ d, gross d key ((r :: rows).map (·.posting)) =
        (if r.posting.direction = d then r.posting.amount.minor else 0) + gross d key (rows.map (·.posting)) := by
      intro d
      rw [List.map_cons, gross_cons]
      simp [hkey r List.mem_cons_self]
    have hrest : ∀ d, 0 ≤ gross d key (rows.map (·.posting)) := fun d => gross_nonneg fun p hp => by
      obtain ⟨x, hx, rfl⟩ := List.mem_map.1 hp
      exact (hn x (List.mem_cons_of_mem _ hx)).le
    have hfits : FitsI64 (running.side r.posting.direction + r.posting.amount.minor) := by
      have hd := hle r.posting.direction
      rw [hcons, if_pos rfl] at hd
      have hmin : i64Min ≤ 0 := by decide
      have := hrun r.posting.direction
      have := hn r List.mem_cons_self
      have := hrest r.posting.direction
      exact ⟨by omega, by omega⟩
    obtain ⟨next, hnext⟩ := Balance.add_ok hfits
    have hside := Balance.side_add hnext
    have hnext0 : ∀ d, 0 ≤ next.side d := fun d => by
      rw [hside d]
      have := hrun d
      have := hn r List.mem_cons_self
      split <;> omega
    have hroom : ∀ d, next.side d + gross d key (rows.map (·.posting)) ≤ i64Max := fun d => by
      rw [hside d, add_assoc, ← hcons d]
      exact hle d
    obtain ⟨lines, hlines⟩ := ih (fun x hx => hkey x (List.mem_cons_of_mem _ hx))
      (fun x hx => hn x (List.mem_cons_of_mem _ hx)) hnext0 hroom
    exact ⟨_, bind_eq_ok.2 ⟨next, hnext, bind_eq_ok.2 ⟨lines, hlines, rfl⟩⟩⟩

theorem readable_of_summable {t : Tables H P} (B : Backend) (h : Summable t.filed) : t.Readable B where
  balance key size := sumRow_of_fits ((h.sublist (List.filter_sublist.flatMap _)).fitsI64 _)
  trialBalance size := (h.sublist (List.filter_sublist.flatMap _)).sumByKey
  closing stop hstop := by
    have hstores : B.dialect.storesDate stop = true := hstop
    unfold trialBalanceThroughDate
    rw [hstores, Bool.not_true, if_neg Bool.false_ne_true]
    exact (h.sublist (List.filter_sublist.flatMap _)).sumByKey
  statement key cursor := by
    let rows := t.postingRows (B.storedKey key)
    have hrow : ∀ r ∈ rows, r.posting.key = B.storedKey key ∧ 0 < r.posting.amount.minor := by
      intro r hr
      obtain ⟨x, hx, hr⟩ := List.mem_flatMap.1 hr
      obtain ⟨p, hp, rfl⟩ := List.mem_map.1 hr
      obtain ⟨hp, hk⟩ := List.mem_filter.1 hp
      obtain ⟨y, hy, hxy⟩ := List.mem_filterMap.1 ((List.mem_insertionSort _).1 hx)
      obtain ⟨place, -, rfl⟩ := Option.map_eq_some_iff.1 hxy
      exact ⟨of_decide_eq_true hk,
        h.positive _ (List.mem_flatMap.2 ⟨y, hy, List.fst_mem_of_mem_zipIdx hp⟩)⟩
    have hpos : ∀ l : List (PostingRow H P), l.Sublist rows → ∀ p ∈ l.map (·.posting), 0 ≤ p.amount.minor :=
      fun l hl p hp => by
        obtain ⟨r, hr, rfl⟩ := List.mem_map.1 hp
        exact (hrow r (hl.subset hr)).2.le
    -- what was shown and what is left add up to no more than the key's total
    have hsplit : ∀ d, gross d (B.storedKey key) ((rows.filter (shown B cursor)).map (·.posting)) +
        gross d (B.storedKey key) ((rows.filter fun r => !shown B cursor r).map (·.posting)) ≤ i64Max := fun d => by
      rw [← gross_append, ← List.map_append]
      refine le_trans (le_of_eq (gross_perm ((List.filter_append_perm _ rows).map _))) ?_
      exact (gross_postingRows t h.positive d _).trans (h.fits d _)
    have hpage : ((rows.filter fun r => !shown B cursor r).take cursor.effectiveLimit).Sublist
        (rows.filter fun r => !shown B cursor r) := List.take_sublist _ _
    have hlines : ∀ opening : Balance P,
        (∀ d, opening.side d = gross d (B.storedKey key) ((rows.filter (shown B cursor)).map (·.posting))) →
        ∃ lines, statementLines opening ((rows.filter fun r => !shown B cursor r).take cursor.effectiveLimit) = .ok lines := by
      intro opening ho
      refine statementLines_ok (fun r hr => (hrow r ((hpage.trans List.filter_sublist).subset hr)).1)
        (fun r hr => (hrow r ((hpage.trans List.filter_sublist).subset hr)).2) (fun d => ?_) fun d => ?_
      · rw [ho d]
        exact gross_nonneg (hpos _ List.filter_sublist)
      · rw [ho d]
        exact le_trans (add_le_add_right (gross_le (hpage.map _) (hpos _ List.filter_sublist)) _) (hsplit d)
    have hopening : ∃ b, opening B rows (B.storedKey key) cursor = .ok b ∧
        ∀ d, b.side d = gross d (B.storedKey key) ((rows.filter (shown B cursor)).map (·.posting)) := by
      unfold opening
      split
      · have hfits : ∀ d, FitsI64 (gross d (B.storedKey key) ((rows.filter (shown B cursor)).map (·.posting))) := fun d => by
          have hn : 0 ≤ gross d (B.storedKey key) ((rows.filter (shown B cursor)).map (·.posting)) :=
            gross_nonneg (hpos _ List.filter_sublist)
          have hrest : 0 ≤ gross d (B.storedKey key) ((rows.filter fun r => !shown B cursor r).map (·.posting)) :=
            gross_nonneg (hpos _ List.filter_sublist)
          have hmin : i64Min ≤ 0 := by decide
          have := hsplit d
          exact ⟨by omega, by omega⟩
        obtain ⟨b, hb⟩ := sumRow_of_fits hfits
        exact ⟨b, hb, sumRow_eq_ok.1 hb⟩
      · rename_i hafter
        have hnone : cursor.after = none := by simpa using hafter
        have hnil : rows.filter (shown B cursor) = [] := List.filter_eq_nil_iff.2 fun r _ => by simp [shown, hnone]
        exact ⟨.zero, rfl, fun d => by rw [hnil]; exact Balance.side_zero d⟩
    obtain ⟨b, hopen, hside⟩ := hopening
    obtain ⟨lines, hok⟩ := hlines b hside
    exact ⟨_, bind_eq_ok.2 ⟨b, mapError_eq_ok.2 hopen, bind_eq_ok.2 ⟨lines, mapError_eq_ok.2 hok, rfl⟩⟩⟩

/-! ## Runs -/

/-- The entries of a batch whose keys are not on file when it gets to them. -/
def fresh : List IdempotencyKey → List (Entry H .balanced P) → List (Entry H .balanced P)
  | _, [] => []
  | known, e :: es =>
    if e.idempotencyKey ∈ known then fresh known es else e :: fresh (known ++ [e.idempotencyKey]) es

def keys (t : Tables H P) : List IdempotencyKey := t.entries.map (·.entry.idempotencyKey)

/-- The postings a batch adds. -/
def incoming (B : Backend) (t : Tables H P) (batch : List (Entry H .balanced P)) : List (Posting P) :=
  (fresh t.keys batch).flatMap fun e => (B.stored e).postings

theorem mem_keys_of_byKey {t : Tables H P} {key : IdempotencyKey} {r : EntryRow H P} (h : t.byKey key = some r) :
    key ∈ t.keys := List.mem_map.2 ⟨r, byKey_eq_some h⟩

variable [Blake3 H]

/-- A batch adds a row for each entry whose key is new. -/
theorem Lands.rows {B : Backend} {t t' : Tables H P} {batch : List (Entry H .balanced P)} (h : Lands B t batch t') :
    t'.entries.map (·.toLogged) =
      t.entries.map (·.toLogged) ++ (fresh t.keys batch).map fun e => ⟨B.stored e, e.contentHash⟩ := by
  induction h with
  | nil => simp [fresh]
  | @replay t t' e es r key rest ih =>
    have hfresh : fresh t.keys (e :: es) = fresh t.keys es := by rw [fresh, if_pos (mem_keys_of_byKey key)]
    rw [ih, hfresh]
  | @insert t t₁ t' e es placed xid key reverses dates row rest ih =>
    have hnew : e.idempotencyKey ∉ t.keys := fun hm => by
      obtain ⟨r, hr, hk⟩ := List.mem_map.1 hm
      exact byKey_eq_none.1 key r hr hk
    obtain ⟨rfl, -, -⟩ := insertRow_eq_some row
    have hkeys : keys { t with entries := t.entries ++ [⟨⟨B.stored e, e.contentHash⟩, placed, xid⟩] } =
        t.keys ++ [e.idempotencyKey] := by simp [keys, Backend.stored]
    have hfresh : fresh t.keys (e :: es) = e :: fresh (t.keys ++ [e.idempotencyKey]) es := by rw [fresh, if_neg hnew]
    rw [ih, hkeys, hfresh]
    simp

omit [Blake3 H] in
theorem filed_eq (t : Tables H P) : t.filed = (t.entries.map (·.toLogged)).flatMap (·.entry.postings) := by
  rw [List.flatMap_map]
  rfl

theorem Lands.filed {B : Backend} {t t' : Tables H P} {batch : List (Entry H .balanced P)} (h : Lands B t batch t') :
    t'.filed = t.filed ++ t.incoming B batch := by
  rw [filed_eq, h.rows, List.flatMap_append, ← filed_eq, List.flatMap_map]
  rfl

theorem Lands.positive {B : Backend} {t t' : Tables H P} {batch : List (Entry H .balanced P)} (h : Lands B t batch t')
    (ht : ∀ p ∈ t.filed, 0 < p.amount.minor) : ∀ p ∈ t'.filed, 0 < p.amount.minor := by
  induction h with
  | nil => exact ht
  | replay _ _ ih => exact ih ht
  | insert _ _ _ row _ ih =>
    obtain ⟨rfl, -, hpos⟩ := insertRow_eq_some row
    refine ih fun p hp => ?_
    rw [Tables.filed, List.flatMap_append] at hp
    rcases List.mem_append.1 hp with hp | hp
    · exact ht p hp
    · exact hpos p (by simpa using hp)

/-- A batch of sealed entries that keeps the gross totals of all rows in range. -/
def Fits (B : Backend) (t : Tables H P) : Call H P → Prop
  | .append _ batch | .appendDeferred _ batch =>
    (∀ e ∈ batch, Journal.FromSeal e) ∧ ∀ d key, gross d key (t.filed ++ t.incoming B batch) ≤ i64Max
  | _ => True

theorem Lands.summable {B : Backend} {t t' : Tables H P} {batch : List (Entry H .balanced P)} (h : Lands B t batch t')
    (ht : Summable t.filed) (hf : ∀ d key, gross d key (t.filed ++ t.incoming B batch) ≤ i64Max) :
    Summable t'.filed where
  positive := h.positive ht.positive
  fits d key := by
    rw [h.filed]
    exact hf d key

variable [DecidableEq H]

theorem Effect.summable {B : Backend} {t t' : Tables H P} {k : Call H P} {log : List (Logged H P)}
    (h : Effect B t k t') (hl : t.LogInv log) (ht : Summable t.filed) (hf : Fits B t k) : Summable t'.filed := by
  cases h with
  | keep entries subtrees =>
    rw [Tables.filed, entries]
    exact ht
  | appended ok =>
    obtain ⟨t₁, acc, hlands, rfl⟩ := lands_of_append ok
    exact hlands.summable ht hf.2
  | deferred ok => exact (lands_of_appendDeferred ok).summable ht hf.2
  | sequenced ok =>
    -- a pass moves no posting
    have hleaves : t'.filed = t.filed := by rw [filed_eq, (sequence_spec hl ok).2.leaves, ← filed_eq]
    rw [hleaves]
    exact ht

/-- **Reads succeed while the totals fit.** In every run of a store whose batches are
of sealed entries and keep the gross debits and credits of every key, over all rows,
in range: every balance, trial balance, statement and closing balance is there. -/
theorem readable_of_fits {B : Backend} {ledger : LedgerId} {t : Tables H P}
    (h : ((calls B ledger).restrict (Fits B)).Reachable t) : t.Readable B := by
  have hinv : (∃ log, t.LogInv log) ∧ Summable t.filed := by
    refine LTS.Inductive.reachable (T := (calls B ledger).restrict (Fits B))
      (I := fun t => (∃ log, t.LogInv log) ∧ Summable t.filed) ⟨fun t h => ⟨(logInv_inductive B ledger).init t h, ?_⟩, fun t k t' ⟨hl, ht⟩ st => ?_⟩ h
    · rw [show t = .empty ledger from h]
      exact ⟨fun p hp => (List.not_mem_nil hp).elim, fun d key => show (0 : Int) ≤ i64Max by decide⟩
    · obtain ⟨st, hf⟩ := LTS.restrict_step.1 st
      refine ⟨(logInv_inductive B ledger).step t k t' hl st, ?_⟩
      obtain ⟨log, hl⟩ := hl
      obtain ⟨-, rfl, -⟩ := st
      exact (t.after_effect B k).summable hl ht hf
  exact readable_of_summable B hinv.2

/-! ## Sample runs -/

theorem step_after {B : Backend} {ledger : LedgerId} {t : Tables H P} {k : Call H P} (hk : Offers B k)
    (hroom : (t.after B k).entries.length < 2 ^ 63) : (calls B ledger).step t k (t.after B k) := ⟨hk, rfl, hroom⟩

/-- The accounts of the sales, and an append of its own for each entry. -/
def marchCalls (drafts : List (Entry Preimage .draft cents)) : List (Call Preimage cents) :=
  [.registerAccount ⟨cashId, cash⟩, .registerAccount ⟨salesId, sales⟩] ++
    drafts.map fun draft => .append 0 [draft.withState .balanced]

set_option maxRecDepth 10000 in
theorem fromSeal_march : ∀ draft ∈ [saleOfMarch, Journal.transfer ⟨30, by decide⟩ cashId salesId,
    Journal.transfer ⟨31, by decide⟩ cashId salesId], Journal.FromSeal (draft.withState .balanced) := by
  intro draft hd
  refine ⟨draft, (((Journal.new books).withPolicy .permissive).afterAll Journal.marchDefined :
    Journal Preimage cents).context, ?_⟩
  rcases List.mem_cons.1 hd with rfl | hd
  · exact toOption_eq_some.1 (by decide)
  rcases List.mem_pair.1 hd with rfl | rfl
  · exact toOption_eq_some.1 (by decide)
  · exact toOption_eq_some.1 (by decide)

/-- Not vacuous: the sale is appended. -/
theorem march_sale_readable : ((((Tables.empty books).after .sqlite (.registerAccount ⟨cashId, cash⟩)).after .sqlite
    (.registerAccount ⟨salesId, sales⟩)).after .sqlite (.append 0 [saleOfMarch.withState .balanced]) :
      Tables Preimage cents).Readable .sqlite := by
  let t₁ : Tables Preimage cents := (Tables.empty books).after .sqlite (.registerAccount ⟨cashId, cash⟩)
  let t₂ := t₁.after .sqlite (.registerAccount ⟨salesId, sales⟩)
  let k : Call Preimage cents := .append 0 [saleOfMarch.withState .balanced]
  have hfits : Fits .sqlite t₂ k := by
    refine ⟨fun e he => ?_, fun d key => ?_⟩
    · rw [List.mem_singleton.1 he]
      exact fromSeal_march _ List.mem_cons_self
    · have hps : t₂.filed ++ t₂.incoming .sqlite [saleOfMarch.withState .balanced] =
          [.debit cashId tenEuro .eur, .credit salesId tenEuro .eur] := by decide
      have hall : gross d key [.debit cashId tenEuro .eur, .credit salesId tenEuro .eur] ≤ 2000 :=
        (List.filter_sublist.map _).sum_le_sum fun n hn => by
          rcases List.mem_pair.1 hn with rfl | rfl <;> decide
      rw [hps]
      exact hall.trans (by decide)
  have hrun : ((calls .sqlite books).restrict (Fits .sqlite)).Run (Tables.empty books)
      [.registerAccount ⟨cashId, cash⟩, .registerAccount ⟨salesId, sales⟩, k] (t₂.after .sqlite k) :=
    .cons ⟨step_after trivial (by decide), trivial⟩ <| .cons ⟨step_after trivial (by decide), trivial⟩ <|
      .cons ⟨step_after (fun e he => by rw [List.mem_singleton.1 he]; decide) (by decide), hfits⟩ (.nil _)
  exact readable_of_fits ⟨_, _, rfl, hrun⟩

/-- Batches of sealed entries only. -/
def SealedBatches (_ : Tables H P) : Call H P → Prop
  | .append _ batch | .appendDeferred _ batch => ∀ e ∈ batch, Journal.FromSeal e
  | _ => True

/-- Two entries of the largest amount between the same accounts. -/
def largest : List (Entry Preimage .draft cents) :=
  [Journal.transfer ⟨30, by decide⟩ cashId salesId, Journal.transfer ⟨31, by decide⟩ cashId salesId]

/-- The tables after them. -/
def afterLargest (B : Backend) : Tables Preimage cents := (marchCalls largest).foldl (after B) (.empty books)

set_option maxRecDepth 10000 in
theorem reachable_afterLargest (B : Backend) : ((calls B books).restrict SealedBatches).Reachable (afterLargest B) := by
  have hsealed : ∀ draft ∈ largest, ∀ e ∈ [draft.withState .balanced], Journal.FromSeal e := fun draft hd e he => by
    rw [List.mem_singleton.1 he]
    exact fromSeal_march draft (List.mem_cons_of_mem _ hd)
  have hshort : ∀ draft ∈ largest, ∀ e ∈ [draft.withState .balanced], e.postings.length < 2 ^ 64 := by decide
  refine ⟨_, marchCalls largest, rfl, ?_⟩
  cases B
  all_goals
    exact .cons ⟨step_after trivial (by decide), trivial⟩ <| .cons ⟨step_after trivial (by decide), trivial⟩ <|
      .cons ⟨step_after (hshort _ List.mem_cons_self) (by decide), hsealed _ List.mem_cons_self⟩ <|
      .cons ⟨step_after (hshort _ (List.mem_cons_of_mem _ List.mem_cons_self)) (by decide),
        hsealed _ (List.mem_cons_of_mem _ List.mem_cons_self)⟩ (.nil _)

/-- The reads of a key, and of everything up to a date, fail. -/
structure Unreadable (B : Backend) (t : Tables H P) (key : BalanceKey) (stop : Date) : Prop where
  balance : t.balance B key none = .error .database
  trialBalance : t.trialBalance none = .error .database
  closing : t.trialBalanceThroughDate B.dialect stop = .error .database
  statement : t.statement B key ⟨none, 256⟩ = .error (.money .overflow)

set_option maxRecDepth 10000 in
/-- **Accepted, and unreadable.** On either backend two sealed entries are appended,
and the balance, the trial balance, the statement and the closing balance of their
month fail. -/
theorem accepted_unreadable :
    (((calls .sqlite books).restrict SealedBatches).Reachable (afterLargest .sqlite) ∧
      (afterLargest .sqlite).entries.length = 2 ∧
      Unreadable .sqlite (afterLargest .sqlite) ⟨cashId, .eur, .settled⟩ march.end) ∧
    ((calls .postgres books).restrict SealedBatches).Reachable (afterLargest .postgres) ∧
      (afterLargest .postgres).entries.length = 2 ∧
      Unreadable .postgres (afterLargest .postgres) ⟨cashId, .eur, .settled⟩ march.end := by
  refine ⟨⟨reachable_afterLargest .sqlite, by decide, ?_⟩, reachable_afterLargest .postgres, by decide, ?_⟩
  · exact ⟨error?_eq_some.1 (by decide), error?_eq_some.1 (by decide), error?_eq_some.1 (by decide),
      error?_eq_some.1 (by decide)⟩
  · exact ⟨error?_eq_some.1 (by decide), error?_eq_some.1 (by decide), error?_eq_some.1 (by decide),
      error?_eq_some.1 (by decide)⟩

end Tables

end DoubleEntry.L4
