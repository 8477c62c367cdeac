import DoubleEntry.L3Ledger.ContentHash
import DoubleEntry.L4Store.SqlReads

/-!
# Handles in the Postgres store

A handle has 32 bits, the `account_index` columns of Postgres are signed. A handle that
does not fit is written as the greatest one that does, and one that does is written as it
is (`Narrow`).

**Assumptions.** `NarrowCall`, of each call: its handles are below the greatest that fits. The
entries are any balanced ones.

**Results.**
* `handle_inj_iff`: when two handles share a column.
* `registerAccount_written`: a registration does not touch the path of another handle.
* `read_stored_iff`: the rows of an entry read back as the entry exactly when it posts to
  narrow handles.
* `handles_kept`: over any calls that use narrow handles only, the rows keep them apart,
  every entry is read back and every sum is that of what was posted to its handle.
* `wideSale_lost`: an entry that is accepted and not read back.
-/
namespace DoubleEntry.L4

open DoubleEntry.Core DoubleEntry.L1 DoubleEntry.L2 DoubleEntry.L3

/-! ## Columns -/

/-- `i32::MAX` -/
def i32Max : Nat := 2 ^ 31 - 1

/-- The column has room for the handle. -/
def Narrow (id : AccountId) : Prop := id.index ≤ i32Max

instance (id : AccountId) : Decidable (Narrow id) := inferInstanceAs (Decidable (id.index ≤ i32Max))

variable {a b id : AccountId}

theorem handle_ext_iff : a = b ↔ a.index = b.index := ⟨congrArg AccountId.index, AccountId.ext⟩

theorem handle_eq_iff : Backend.postgres.handle id = id ↔ Narrow id := by
  rw [handle_ext_iff]
  exact min_eq_left_iff

/-- Two handles get the same column exactly when neither is below the greatest one. -/
theorem handle_inj_iff : Backend.postgres.handle a = Backend.postgres.handle b ↔ a = b ∨ i32Max ≤ a.index ∧ i32Max ≤ b.index := by
  rw [handle_ext_iff, handle_ext_iff]
  simp only [Backend.handle, i32Max]
  omega

variable {H : Type} {P : Scale} {e : Entry H .balanced P}

theorem stored_eq_iff : Backend.postgres.stored e = e ↔ ∀ p ∈ e.postings, Narrow p.account := by
  have hposting : ∀ p : Posting P, { p with account := Backend.postgres.handle p.account } = p ↔ Narrow p.account := by
    intro p
    rw [← handle_eq_iff]
    refine ⟨fun h => congrArg Posting.account h, fun h => ?_⟩
    rw [h]
  have hmap : Backend.postgres.stored e = e ↔
      (e.postings.map fun p => { p with account := Backend.postgres.handle p.account }) = e.postings := by
    cases e
    simp [Backend.stored]
  rw [hmap, ← List.map_id e.postings, List.map_map, List.map_inj_left]
  simp only [Function.comp_id, id_eq, hposting, List.map_id]

section
variable [Blake3 H] [DecidableEq H]

/-- The values of the rows, verified against the content hash.
mirrors src/storage/postgres.rs:926-954,977-1051 -/
def EntryRow.read (r : EntryRow H P) : Except (IntegrityError H) (Logged H P) :=
  ((r.entry.withState .draft).adoptVerified r.contentHash).map fun entry => ⟨entry, r.contentHash⟩

/-- An entry is read back exactly when its handles fit the column. -/
theorem read_stored_iff {r : EntryRow H P} (h : r.toLogged = ⟨Backend.postgres.stored e, e.contentHash⟩) :
    r.read = .ok ⟨e, e.contentHash⟩ ↔ ∀ p ∈ e.postings, Narrow p.account := by
  have hentry : r.entry = Backend.postgres.stored e := congrArg Logged.entry h
  have hhash : r.contentHash = e.contentHash := congrArg Logged.contentHash h
  rw [← stored_eq_iff, EntryRow.read, map_eq_ok, hentry, hhash]
  constructor
  · rintro ⟨adopted, hadopted, hsame⟩
    obtain ⟨-, rfl⟩ := Entry.adoptVerified_eq_ok.1 hadopted
    exact congrArg Logged.entry hsame
  · intro hstored
    rw [hstored]
    exact ⟨e, Entry.adoptVerified_eq_ok.2 ⟨rfl, rfl⟩, rfl⟩

end

/-! ## What the handles are used for -/

namespace Tables

section
variable [Blake3 H] [DecidableEq H]

/-- The entries a call puts on file. -/
def taken (B : Backend) (t : Tables H P) : Call H P → List (Entry H .balanced P)
  | .append xid batch =>
    match t.append B xid batch with
    | .ok _ => fresh t.keys batch
    | .error _ => []
  | .appendDeferred xid batch =>
    match t.appendDeferred B xid batch with
    | .ok _ => fresh t.keys batch
    | .error _ => []
  | _ => []

/-- The record a call registers. -/
def registered (B : Backend) (t : Tables H P) : Call H P → List AccountRecord
  | .registerAccount record =>
    match t.registerAccount B record with
    | .ok _ => [record]
    | .error _ => []
  | _ => []

def takenIn (B : Backend) : Tables H P → List (Call H P) → List (Entry H .balanced P)
  | _, [] => []
  | t, k :: ks => t.taken B k ++ takenIn B (t.after B k) ks

def registeredIn (B : Backend) : Tables H P → List (Call H P) → List AccountRecord
  | _, [] => []
  | t, k :: ks => t.registered B k ++ registeredIn B (t.after B k) ks

/-- What the sequenced entries below `size` post, as they were appended. -/
def posted (t : Tables H P) (es : List (Entry H .balanced P)) (size : Option Nat) : List (Posting P) :=
  ((t.entries.zip es).filter fun x => x.1.placed.any fun p => p.1 < prefixBound size).flatMap (·.2.postings)

/-- The handles of the records registered and of the entries appended stay apart, and what
is read by them is theirs. -/
structure HandlesKept (t : Tables H P) (records : List AccountRecord) (es : List (Entry H .balanced P)) : Prop where
  apart : ∀ a ∈ records.map (·.id) ++ (es.flatMap (·.postings)).map (·.account),
    ∀ b ∈ records.map (·.id) ++ (es.flatMap (·.postings)).map (·.account),
    a ≠ b → Backend.postgres.handle a ≠ Backend.postgres.handle b
  accounts : ∀ record ∈ records, (t.accounts.get? record.id).map Account.path = some record.account.path
  read : t.entries.map EntryRow.read = es.map fun e => .ok ⟨e, e.contentHash⟩
  balance : ∀ e ∈ es, ∀ p ∈ e.postings, ∀ size, t.balance .postgres p.key size = sumRow (t.posted es size) p.key
  trialBalance : ∀ size, t.trialBalance size = sumByKey (t.posted es size)

/-! ## Calls -/

omit [DecidableEq H] in
theorem Lands.accounts {B : Backend} {t t' : Tables H P} {batch : List (Entry H .balanced P)} (h : Lands B t batch t') :
    t'.accounts = t.accounts := by
  induction h with
  | nil => rfl
  | replay _ _ ih => exact ih
  | insert _ _ _ row _ ih =>
    obtain ⟨rfl, -, -⟩ := insertRow_eq_some row
    exact ih

omit [Blake3 H] [DecidableEq H] in
/-- A registration writes its row, and a row of the same handle has the same path. -/
theorem registerAccount_written {B : Backend} {t t' : Tables H P} {record : AccountRecord}
    (h : t.registerAccount B record = .ok t') :
    t' = { t with accounts := t.accounts.insert (B.handle record.id) record.account } ∧
      ∀ stored, t.accounts.get? (B.handle record.id) = some stored → stored.path = record.account.path := by
  unfold registerAccount at h
  simp only at h
  split at h
  · cases h
  split at h
  · cases h
  cases hget : t.accounts.get? (B.handle record.id) with
  | some stored =>
    simp only [hget] at h
    split at h
    · rename_i hpath
      cases h
      exact ⟨rfl, fun _ hs => Option.some.inj hs ▸ hpath⟩
    · cases h
  | none =>
    simp only [hget] at h
    split at h
    · cases h
    · cases h
      exact ⟨rfl, fun _ hs => absurd hs (by simp)⟩

/-- What a call does to the rows. -/
structure Does (B : Backend) (t : Tables H P) (k : Call H P) (t' : Tables H P) : Prop where
  rows : t'.entries.map (·.toLogged) = t.entries.map (·.toLogged) ++ (t.taken B k).map fun e => ⟨B.stored e, e.contentHash⟩
  accounts : (t'.accounts = t.accounts ∧ t.registered B k = []) ∨ ∃ record, t.registered B k = [record] ∧
    t'.accounts = t.accounts.insert (B.handle record.id) record.account ∧
    ∀ stored, t.accounts.get? (B.handle record.id) = some stored → stored.path = record.account.path

theorem Does.keep {B : Backend} {t t' : Tables H P} {k : Call H P} (hrows : t'.entries = t.entries)
    (haccounts : t'.accounts = t.accounts) (htaken : t.taken B k = []) (hregistered : t.registered B k = []) :
    Does B t k t' := ⟨by rw [hrows, htaken, List.map_nil, List.append_nil], .inl ⟨haccounts, hregistered⟩⟩

theorem after_does {t : Tables H P} {log : List (Logged H P)} (hl : t.LogInv log) (B : Backend) (k : Call H P) :
    Does B t k (t.after B k) := by
  have kept : ∀ {x : Except SqlError (Tables H P)}, t.taken B k = [] → t.registered B k = [] →
      (∀ t', x = .ok t' → t'.entries = t.entries ∧ t'.accounts = t.accounts) → Does B t k (Journal.keep x t) :=
    fun {x} htaken hregistered hx => by
      cases x with
      | error e => exact .keep rfl rfl htaken hregistered
      | ok t' => exact .keep (hx t' rfl).1 (hx t' rfl).2 htaken hregistered
  cases k with
  | registerAccount record =>
    cases h : t.registerAccount B record with
    | error e =>
      have hafter : t.after B (.registerAccount record) = t := by rw [after, h]; rfl
      rw [hafter]
      exact .keep rfl rfl rfl (by simp only [registered, h])
    | ok t' =>
      have hafter : t.after B (.registerAccount record) = t' := by rw [after, h]; rfl
      obtain ⟨rfl, hsame⟩ := registerAccount_written h
      rw [hafter]
      exact ⟨by simp [taken], .inr ⟨record, by simp only [registered, h], rfl, hsame⟩⟩
  | append xid batch =>
    cases h : t.append B xid batch with
    | error e =>
      have hafter : t.after B (.append xid batch) = t := by rw [after, h]; rfl
      rw [hafter]
      exact .keep rfl rfl (by simp only [taken, h]) rfl
    | ok x =>
      have hafter : t.after B (.append xid batch) = x.2 := by rw [after, h]; rfl
      obtain ⟨t₁, acc, hlands, heq⟩ := lands_of_append h
      rw [hafter, heq]
      have hrows : (t₁.storeAccumulator acc).entries.map (·.toLogged) = _ := hlands.rows
      exact ⟨by simpa only [taken, h] using hrows, .inl ⟨hlands.accounts, rfl⟩⟩
  | appendDeferred xid batch =>
    cases h : t.appendDeferred B xid batch with
    | error e =>
      have hafter : t.after B (.appendDeferred xid batch) = t := by rw [after, h]; rfl
      rw [hafter]
      exact .keep rfl rfl (by simp only [taken, h]) rfl
    | ok x =>
      have hafter : t.after B (.appendDeferred xid batch) = x.2 := by rw [after, h]; rfl
      have hlands := lands_of_appendDeferred h
      rw [hafter]
      exact ⟨by simpa only [taken, h] using hlands.rows, .inl ⟨hlands.accounts, rfl⟩⟩
  | sequence xmin =>
    cases h : t.sequence xmin with
    | error e =>
      have hafter : t.after B (.sequence xmin) = t := by rw [after, h]; rfl
      rw [hafter]
      exact .keep rfl rfl rfl rfl
    | ok x =>
      have hafter : t.after B (.sequence xmin) = x.2 := by rw [after, h]; rfl
      have hplaced := (sequence_spec hl h).2
      rw [hafter]
      exact ⟨by rw [hplaced.leaves]; simp [taken], .inl ⟨by rw [hplaced.frame], rfl⟩⟩
  | definePeriod period =>
    refine kept rfl rfl fun t' h => ?_
    obtain ⟨periods, -, rfl⟩ := map_eq_ok.1 h
    exact ⟨rfl, rfl⟩
  | transitionPeriod id target =>
    refine kept rfl rfl fun t' h => ?_
    obtain ⟨periods, -, rfl⟩ := map_eq_ok.1 h
    exact ⟨rfl, rfl⟩
  | sealPeriod id =>
    refine kept rfl rfl fun t' h => ?_
    obtain ⟨⟨s, t₁⟩, hs, rfl⟩ := map_eq_ok.1 h
    obtain rfl := sealPeriod_eq_ok hs
    exact ⟨rfl, rfl⟩

/-! ## Runs -/

/-- A call that uses narrow handles only. -/
def NarrowCall (_ : Tables H P) : Call H P → Prop
  | .registerAccount record => Narrow record.id
  | .append _ batch | .appendDeferred _ batch => ∀ e ∈ batch, ∀ p ∈ e.postings, Narrow p.account
  | _ => True

omit [Blake3 H] [DecidableEq H] in
theorem mem_of_mem_fresh {batch : List (Entry H .balanced P)} : ∀ {known : List IdempotencyKey}, e ∈ fresh known batch → e ∈ batch := by
  induction batch with
  | nil => exact fun h => h
  | cons x batch ih =>
    intro known h
    simp only [fresh] at h
    split at h
    · exact List.mem_cons_of_mem _ (ih h)
    · rcases List.mem_cons.1 h with rfl | h
      · exact List.mem_cons_self
      · exact List.mem_cons_of_mem _ (ih h)

theorem narrow_taken {B : Backend} {t : Tables H P} {k : Call H P} (h : NarrowCall t k) :
    ∀ e ∈ t.taken B k, ∀ p ∈ e.postings, Narrow p.account := by
  intro e he
  cases k with
  | append xid batch =>
    simp only [taken] at he
    cases hok : t.append B xid batch with
    | error err => simp [hok] at he
    | ok x =>
      simp only [hok] at he
      exact h e (mem_of_mem_fresh he)
  | appendDeferred xid batch =>
    simp only [taken] at he
    cases hok : t.appendDeferred B xid batch with
    | error err => simp [hok] at he
    | ok x =>
      simp only [hok] at he
      exact h e (mem_of_mem_fresh he)
  | _ => exact absurd he List.not_mem_nil

/-- The rows are those of the entries taken, and the accounts those of the records. -/
structure Filed (records : List AccountRecord) (es : List (Entry H .balanced P)) (t : Tables H P) : Prop where
  log : ∃ log, t.LogInv log
  rows : t.entries.map (·.toLogged) = es.map fun e => ⟨Backend.postgres.stored e, e.contentHash⟩
  accounts : ∀ record ∈ records, (t.accounts.get? record.id).map Account.path = some record.account.path
  narrowRecords : ∀ record ∈ records, Narrow record.id
  narrow : ∀ e ∈ es, ∀ p ∈ e.postings, Narrow p.account

theorem Filed.step {ledger : LedgerId} {records : List AccountRecord} {es : List (Entry H .balanced P)} {t t' : Tables H P}
    {k : Call H P} (h : Filed records es t) (hk : NarrowCall t k) (st : (calls .postgres ledger).step t k t') :
    Filed (records ++ t.registered .postgres k) (es ++ t.taken .postgres k) t' := by
  have hlog' := (logInv_inductive .postgres ledger).step t k t' h.log st
  obtain ⟨log, hl⟩ := h.log
  obtain ⟨-, rfl, -⟩ := st
  have hdoes := after_does hl .postgres k
  have hnarrow : ∀ e ∈ es ++ t.taken .postgres k, ∀ p ∈ e.postings, Narrow p.account := fun e he => by
    rcases List.mem_append.1 he with he | he
    · exact h.narrow e he
    · exact narrow_taken hk e he
  have hrows : (t.after .postgres k).entries.map (·.toLogged) =
      (es ++ t.taken .postgres k).map fun e => ⟨Backend.postgres.stored e, e.contentHash⟩ := by
    rw [hdoes.rows, h.rows, List.map_append]
  rcases hdoes.accounts with ⟨haccounts, hnone⟩ | ⟨record, hone, haccounts, hsame⟩
  · rw [hnone, List.append_nil]
    exact ⟨hlog', hrows, by rw [haccounts]; exact h.accounts, h.narrowRecords, hnarrow⟩
  · have hrecord : Narrow record.id := by
      cases k with
      | registerAccount r =>
        simp only [registered] at hone
        cases hok : t.registerAccount .postgres r with
        | error err => simp [hok] at hone
        | ok x =>
          simp only [hok, List.cons.injEq, and_true] at hone
          exact hone ▸ hk
      | _ => cases hone
    rw [handle_eq_iff.2 hrecord] at haccounts hsame
    rw [hone]
    refine ⟨hlog', hrows, fun r hr => ?_, fun r hr => ?_, hnarrow⟩
    · rw [haccounts, OrdMap.get?_insert]
      rcases List.mem_append.1 hr with hr | hr
      · by_cases hid : record.id = r.id
        · have hold := h.accounts r hr
          obtain ⟨stored, hget, hpath⟩ := Option.map_eq_some_iff.1 hold
          rw [if_pos hid, Option.map_some, ← hpath, hsame stored (hid ▸ hget)]
        · rw [if_neg hid]
          exact h.accounts r hr
      · rw [List.mem_singleton.1 hr, if_pos rfl, Option.map_some]
    · rcases List.mem_append.1 hr with hr | hr
      · exact h.narrowRecords r hr
      · rwa [List.mem_singleton.1 hr]

theorem filed_of_run {ledger : LedgerId} {ks : List (Call H P)} {t t' : Tables H P}
    (h : ((calls .postgres ledger).restrict NarrowCall).Run t ks t') :
    ∀ {records : List AccountRecord} {es : List (Entry H .balanced P)}, Filed records es t →
      Filed (records ++ t.registeredIn .postgres ks) (es ++ t.takenIn .postgres ks) t' := by
  induction h with
  | nil t =>
    intro records es hf
    rwa [registeredIn, takenIn, List.append_nil, List.append_nil]
  | @cons t t₁ t' k ks st _ ih =>
    intro records es hf
    have hstep := hf.step st.2 st.1
    have hafter : t₁ = t.after .postgres k := st.1.2.1
    have hrest := ih hstep
    rw [hafter] at hrest
    rwa [registeredIn, takenIn, ← List.append_assoc, ← List.append_assoc]

theorem Filed.kept {records : List AccountRecord} {es : List (Entry H .balanced P)} {t : Tables H P} (h : Filed records es t) :
    t.HandlesKept records es := by
  have hes : es = t.entries.map (·.entry) := by
    have hentry := congrArg (List.map Logged.entry) h.rows
    rw [List.map_map, List.map_map] at hentry
    refine Eq.trans ?_ hentry.symm
    exact (List.map_id es).symm.trans (List.map_congr_left fun e he => (stored_eq_iff.2 (h.narrow e he)).symm)
  have hposted : ∀ size, t.posted es size = (t.sequencedBelow (prefixBound size)).flatMap (·.entry.postings) := fun size => by
    have hzip : t.entries.zip es = t.entries.map fun r => (r, r.entry) := by
      rw [hes]
      conv_lhs => rw [← List.map_id t.entries, List.map_map, List.zip_map']
      rfl
    rw [posted, hzip, List.filter_map, List.flatMap_map]
    rfl
  have hused : ∀ a ∈ records.map (·.id) ++ (es.flatMap (·.postings)).map (·.account), Narrow a := fun a ha => by
    rcases List.mem_append.1 ha with ha | ha
    · obtain ⟨record, hr, rfl⟩ := List.mem_map.1 ha
      exact h.narrowRecords record hr
    · obtain ⟨p, hp, rfl⟩ := List.mem_map.1 ha
      obtain ⟨e, he, hp⟩ := List.mem_flatMap.1 hp
      exact h.narrow e he p hp
  refine ⟨fun a ha b hb hne => ?_, h.accounts, ?_, fun e he p hp size => ?_, fun size => ?_⟩
  · rw [handle_eq_iff.2 (hused a ha), handle_eq_iff.2 (hused b hb)]
    exact hne
  · conv_rhs => rw [hes, List.map_map]
    refine List.map_congr_left fun r hr => ?_
    have hmem : r.toLogged ∈ es.map fun e => (⟨Backend.postgres.stored e, e.contentHash⟩ : Logged H P) := by
      rw [← h.rows]
      exact List.mem_map_of_mem hr
    obtain ⟨e, he, hlogged⟩ := List.mem_map.1 hmem
    have hread := (read_stored_iff hlogged.symm).2 (h.narrow e he)
    have hentry : r.entry = e := (congrArg Logged.entry hlogged).symm.trans (stored_eq_iff.2 (h.narrow e he))
    rw [hread, Function.comp, hentry]
  · have hkey : Backend.postgres.storedKey p.key = p.key := by
      rw [Backend.storedKey, show p.key.account = p.account from rfl, handle_eq_iff.2 (h.narrow e he p hp)]
      rfl
    rw [balance, hkey, hposted]
  · rw [trialBalance, hposted]

/-- **Narrow handles survive**: in every run of the Postgres store whose registrations and
postings use them only. And a handle beyond them does not: two of them share a column, and
an entry is read back from its rows exactly when it posts to none. -/
theorem handles_kept {ledger : LedgerId} {ks : List (Call H P)} {t : Tables H P}
    (h : ((calls .postgres ledger).restrict NarrowCall).Run (.empty ledger) ks t) :
    t.HandlesKept (registeredIn .postgres (.empty ledger) ks) (takenIn .postgres (.empty ledger) ks) ∧
    (∀ a b : AccountId, a ≠ b → (Backend.postgres.handle a ≠ Backend.postgres.handle b ↔ a.index < i32Max ∨ b.index < i32Max)) ∧
    ∀ (e : Entry H .balanced P) (r : EntryRow H P), r.toLogged = ⟨Backend.postgres.stored e, e.contentHash⟩ →
      (r.read = .ok ⟨e, e.contentHash⟩ ↔ ∀ p ∈ e.postings, Narrow p.account) := by
  have hempty : Filed [] [] (.empty ledger : Tables H P) :=
    ⟨⟨[], logInv_empty ledger⟩, rfl, fun r hr => absurd hr List.not_mem_nil, fun r hr => absurd hr List.not_mem_nil,
      fun e he => absurd he List.not_mem_nil⟩
  refine ⟨(filed_of_run h hempty).kept, fun a b hne => ?_, fun e r => read_stored_iff⟩
  rw [ne_eq, handle_inj_iff]
  simp only [hne, false_or, not_and_or, not_le]

end

/-! ## Sample runs -/

/-- The tables after the sale of March. -/
def soldOn (B : Backend) : Tables Preimage cents := (marchCalls [saleOfMarch]).foldl (after B) (.empty books)

set_option maxRecDepth 10000 in
/-- Not vacuous: the sale is on file. -/
theorem sale_kept : (soldOn .postgres).entries.length = 1 ∧ (soldOn .postgres).HandlesKept
    (registeredIn .postgres (.empty books) (marchCalls [saleOfMarch]))
    (takenIn .postgres (.empty books) (marchCalls [saleOfMarch])) := by
  have hnarrow : ∀ e ∈ [saleOfMarch.withState .balanced], ∀ p ∈ e.postings, Narrow p.account := by decide
  have hshort : ∀ e ∈ [saleOfMarch.withState .balanced], e.postings.length < 2 ^ 64 := by decide
  have hrun : ((calls .postgres books).restrict NarrowCall).Run (.empty books) (marchCalls [saleOfMarch]) (soldOn .postgres) :=
    .cons ⟨step_after trivial (by decide), (by decide : Narrow cashId)⟩ <|
      .cons ⟨step_after trivial (by decide), (by decide : Narrow salesId)⟩ <|
      .cons ⟨step_after hshort (by decide), hnarrow⟩ (.nil _)
  exact ⟨by decide, (handles_kept hrun).1⟩

/-- The first handle that does not fit the column. -/
def wideId : AccountId := .ofPosition (i32Max + 1)

/-- A sale into the account of that handle. -/
def wideSale : Entry Preimage .balanced cents :=
  { saleOfMarch.withState .balanced with postings := [.debit wideId tenEuro .eur, .credit salesId tenEuro .eur] }

def wideCalls : List (Call Preimage cents) :=
  [.registerAccount ⟨wideId, cash⟩, .registerAccount ⟨salesId, sales⟩, .append 0 [wideSale]]

set_option maxRecDepth 20000 in
/-- Both calls are accepted, and the entry is not read back. -/
theorem wideSale_lost : (registeredIn .postgres (.empty books) wideCalls).map (·.id) = [wideId, salesId] ∧
    takenIn .postgres (.empty books) wideCalls = [wideSale] ∧
    ((wideCalls.foldl (after .postgres) (.empty books)).entries.map fun r => r.read.toOption) = [none] ∧
    ¬ ∀ ks (t : Tables Preimage cents), (calls .postgres books).Run (.empty books) ks t →
      t.HandlesKept (registeredIn .postgres (.empty books) ks) (takenIn .postgres (.empty books) ks) := by
  have hregistered : (registeredIn .postgres (.empty books) wideCalls).map (·.id) = [wideId, salesId] := by decide
  refine ⟨hregistered, by decide, by decide, fun h => ?_⟩
  have hshort : ∀ e ∈ [wideSale], e.postings.length < 2 ^ 64 := by decide
  have hrun : (calls .postgres books).Run (.empty books) wideCalls (wideCalls.foldl (after .postgres) (.empty books)) :=
    .cons (step_after trivial (by decide)) <| .cons (step_after trivial (by decide)) <|
      .cons (step_after hshort (by decide)) (.nil _)
  have hread := (h _ _ hrun).read
  have hnone : (wideCalls.foldl (after .postgres) (.empty books)).entries.map (fun r => r.read.toOption) = [none] := by decide
  rw [← Function.comp_def Except.toOption EntryRow.read, ← List.map_map, hread, List.map_map] at hnone
  have htaken : takenIn .postgres (.empty books) wideCalls = [wideSale] := by decide
  rw [htaken] at hnone
  cases hnone

end Tables

end DoubleEntry.L4
