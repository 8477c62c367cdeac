import DoubleEntry.L3Ledger.Registry
import DoubleEntry.L4Store.EntryTable
import DoubleEntry.L4Store.Memory

/-!
# The `accounts` table

A row holds the path as text: `register_account` binds its `Display`, the UNIQUE
constraint and the upsert compare it, and `account_record` parses it. The codes of the
kind and of the limit are one text for each value, so those columns are modelled by the
values.

`AccountRegistry::restore`, which is `register_account` of the in-memory store, refuses a
handle that is neither held nor the next one. The SQL does not look for gaps. Where every
call asks for a handle that is held or next and fits the column, for a path without the
separator in a segment, and for dates the database holds and orders as the calendar does,
the rows are the records of the registry (`registered_alike`).

**Assumptions.** `Answerable`, of each call: the handle is held or next and fits the column, the
path is plain, and the dates are ones the backend stores and orders.

**Results.**
* `Mirrors.call`: one call, on rows that are the records of a registry.
* `registered_alike`: runs of such calls, from an empty store.
* `gap_registered`: calls that are not, and what comes of them.
-/
namespace DoubleEntry.L4

open DoubleEntry.Core DoubleEntry.L1 DoubleEntry.L3

/-! ## Rows -/

/-- mirrors schema/sqlite.sql:50-69, schema/postgres.sql:46-73 -/
structure AccountRow where
  path : List Char
  kind : Option AccountKind
  openedOn : Date
  closedOn : Option Date
  limit : BalanceLimit
  deriving DecidableEq

/-- By `account_index`. -/
abbrev AccountTable := OrdMap AccountId AccountRow

namespace AccountTable

/-- The values that are bound. -/
def rowOf (a : Account) : AccountRow := ⟨a.path.display, a.kind, a.openedOn, a.closedOn, a.limit⟩

/-- mirrors src/storage/sqlite.rs:990-1024, src/storage/postgres.rs:1076-1108 -/
def registerAccount (B : Backend) (t : AccountTable) (record : AccountRecord) : Except RegisterError AccountTable :=
  let row := rowOf record.account
  if !(B.storesDate row.openedOn && row.closedOn.all B.storesDate) then .error .database
  -- accounts_window
  else if row.closedOn.any fun closed => !B.dialect.dateLE row.openedOn closed then .error .database
  else
    match t.get? (B.handle record.id) with
    | some stored =>
      if stored.path = row.path then .ok (t.insert (B.handle record.id) row) else .error (.accountRebound record.id)
    | none =>
      -- UNIQUE (path)
      if t.values.any fun r => r.path = row.path then .error .database else .ok (t.insert (B.handle record.id) row)

/-- mirrors src/storage/sqlite.rs:1891-1908, src/storage/postgres.rs:2187-2204 -/
def accountRecord (id : AccountId) (row : AccountRow) : Except SqlError AccountRecord :=
  match AccountPath.parse row.path with
  | .error _ => .error .malformed
  | .ok path => .ok ⟨id, ⟨path, row.kind, row.openedOn, row.closedOn, row.limit⟩⟩

/-- mirrors src/storage/sqlite.rs:1026-1036, src/storage/postgres.rs:1110-1120 -/
def accounts (t : AccountTable) : Except SqlError (List AccountRecord) :=
  t.entries.mapM fun e => accountRecord e.1 e.2

/-! ## A table that holds a registry -/

/-- The rows are those of the accounts of `r`. -/
structure Mirrors (t : AccountTable) (r : AccountRegistry) : Prop where
  indexed : r.Indexed
  windows : ∀ a ∈ r.accounts, a.closedEarly = none
  plain : ∀ a ∈ r.accounts, a.path.Plain
  rows : ∀ id, t.get? id = (r.get id).map rowOf

variable {t t' : AccountTable} {r r' : AccountRegistry} {record : AccountRecord}

theorem Mirrors.entries (h : Mirrors t r) : t.entries = r.records.map fun record => (record.id, rowOf record.account) := by
  have hsorted : (r.records.map fun record => (record.id, rowOf record.account)).Pairwise fun a b => a.1 < b.1 :=
    List.pairwise_map.2 (AccountRegistry.increasing_recordsOf r.bounded)
  refine List.Perm.eq_of_pairwise (fun a b _ _ hab hba => absurd hab hba.not_gt) t.increasing hsorted ?_
  refine (List.perm_ext_iff_of_nodup (t.increasing.imp fun hlt heq => hlt.ne (congrArg Prod.fst heq))
    (hsorted.imp fun hlt heq => hlt.ne (congrArg Prod.fst heq))).2 fun e => ?_
  rw [OrdMap.mem_entries, h.rows, Option.map_eq_some_iff, List.mem_map]
  constructor
  · intro hrow
    obtain ⟨a, hget, hrow⟩ := hrow
    exact ⟨⟨e.1, a⟩, AccountRegistry.mem_records.2 hget, Prod.ext rfl hrow⟩
  · intro hrecord
    obtain ⟨record, hmem, rfl⟩ := hrecord
    exact ⟨record.account, AccountRegistry.mem_records.1 hmem, rfl⟩

/-- A path is in the table if and only if it is registered. -/
theorem Mirrors.taken_iff (h : Mirrors t r) (hplain : record.account.path.Plain) :
    (t.values.any fun row => row.path = (rowOf record.account).path) = true ↔ record.account.path ∈ r.paths := by
  simp only [List.any_eq_true, decide_eq_true_iff, OrdMap.mem_values, h.rows, Option.map_eq_some_iff]
  constructor
  · rintro ⟨row, ⟨id, a, hget, rfl⟩, hpath⟩
    have ha := List.mem_of_getElem? hget
    rw [← (AccountPath.display_inj (h.plain a ha) hplain).1 hpath]
    exact List.mem_map_of_mem ha
  · intro hmem
    obtain ⟨a, ha, hpath⟩ := List.mem_map.1 hmem
    obtain ⟨i, hi, hget⟩ := List.getElem_of_mem ha
    have hbound := r.bounded
    refine ⟨rowOf a, ⟨⟨i, by omega⟩, a, ?_, rfl⟩, congrArg AccountPath.display hpath⟩
    exact List.getElem?_eq_some_iff.2 ⟨hi, hget⟩

/-! ## One call -/

/-- What a call has to meet, by what is registered. -/
structure Answerable (B : Backend) (r : AccountRegistry) (record : AccountRecord) : Prop where
  dense : record.id.index ≤ r.len
  narrow : B.handle record.id = record.id
  plain : record.account.path.Plain
  ordered : ∀ closed ∈ record.account.closedOn, B.dialect.dateLE record.account.openedOn closed = true ↔
    record.account.openedOn ≤ closed
  opened : B.storesDate record.account.openedOn = true
  closed : ∀ closed ∈ record.account.closedOn, B.storesDate closed = true

theorem Answerable.window {B : Backend} (h : Answerable B r record) :
    (record.account.closedOn.any fun closed => !B.dialect.dateLE record.account.openedOn closed) =
      record.account.closedEarly.isSome := by
  have hordered := h.ordered
  unfold Account.closedEarly
  cases hc : record.account.closedOn with
  | none => rfl
  | some closed =>
    have hiff := hordered closed hc
    by_cases hle : record.account.openedOn ≤ closed
    · simp [hiff.2 hle, not_lt.2 hle]
    · have hfalse : B.dialect.dateLE record.account.openedOn closed = false :=
        Bool.eq_false_iff.2 fun htrue => hle (hiff.1 htrue)
      simp [hfalse, not_le.1 hle]

theorem Answerable.stored {B : Backend} (h : Answerable B r record) :
    (B.storesDate record.account.openedOn && record.account.closedOn.all B.storesDate) = true := by
  have hclosed := h.closed
  cases hc : record.account.closedOn with
  | none => simp [h.opened]
  | some closed => simp [h.opened, hclosed closed hc]

theorem Mirrors.put (h : Mirrors t r) {a : Account} (hget : r.get record.id = some a)
    (hpath : record.account.path = a.path) (hwindow : record.account.closedEarly = none) :
    Mirrors (t.insert record.id (rowOf record.account)) (r.put record.id record.account) where
  indexed := h.indexed.overwrite (AccountRegistry.overwrites_put hget hpath)
  windows b hb := by
    rcases List.mem_or_eq_of_mem_set hb with hb | rfl
    · exact h.windows b hb
    · exact hwindow
  plain b hb := by
    rcases List.mem_or_eq_of_mem_set hb with hb | rfl
    · exact h.plain b hb
    · rw [hpath]
      exact h.plain a (List.mem_of_getElem? hget)
  rows id := by
    obtain ⟨hlt, -⟩ := List.getElem?_eq_some_iff.1 hget
    rw [OrdMap.get?_insert, h.rows, AccountRegistry.get, AccountRegistry.get, AccountRegistry.put, List.getElem?_set]
    by_cases hid : record.id = id
    · rw [if_pos hid, if_pos (congrArg AccountId.index hid), if_pos hlt]
      rfl
    · rw [if_neg hid, if_neg fun e => hid (AccountId.ext e)]

theorem Mirrors.register (h : Mirrors t r) (hr : r.Registers record.account record.id r')
    (hplain : record.account.path.Plain) : Mirrors (t.insert record.id (rowOf record.account)) r' where
  indexed := h.indexed.register hr
  windows b hb := by
    rw [hr.accounts, List.mem_append, List.mem_singleton] at hb
    rcases hb with hb | rfl
    · exact h.windows b hb
    · exact hr.window
  plain b hb := by
    rw [hr.accounts, List.mem_append, List.mem_singleton] at hb
    rcases hb with hb | rfl
    · exact h.plain b hb
    · exact hplain
  rows id := by
    have hhandle : record.id.index = r.accounts.length := hr.handle
    rw [OrdMap.get?_insert, h.rows, AccountRegistry.get, AccountRegistry.get, hr.accounts]
    by_cases hid : record.id = id
    · rw [if_pos hid, ← hid, hhandle, List.getElem?_concat_length]
      rfl
    · have hne : id.index ≠ r.accounts.length := fun e => hid (AccountId.ext (hhandle.trans e.symm))
      rw [if_neg hid]
      congr 1
      rcases lt_or_gt_of_ne hne with hlt | hgt
      · rw [List.getElem?_append_left hlt]
      · rw [List.getElem?_eq_none_iff.2 hgt.le, List.getElem?_eq_none_iff.2 (by simpa using hgt)]

/-- Both stores accept it and hold the same accounts, or both refuse it. -/
theorem Mirrors.call {B : Backend} (h : Mirrors t r) (ha : Answerable B r record) :
    (∃ t' r', registerAccount B t record = .ok t' ∧ r.restore record = .ok r' ∧ Mirrors t' r') ∨
      ((∃ e, registerAccount B t record = .error e) ∧ ∃ e, r.restore record = .error e) := by
  have hstored := ha.stored
  have hwindow := ha.window
  unfold registerAccount
  simp only [rowOf, hstored, hwindow, Bool.not_true, Bool.false_eq_true, if_false, ha.narrow]
  cases hearly : record.account.closedEarly with
  | some closed =>
    -- closed before it opens
    refine .inr ⟨⟨_, if_pos rfl⟩, ?_⟩
    unfold AccountRegistry.restore
    cases r.get record.id with
    | some existing =>
      by_cases hpath : existing.path = record.account.path
      · exact ⟨.closedBeforeOpened record.account.path record.account.openedOn closed, by
          simp only [hpath, hearly, ne_eq, not_true_eq_false, if_false]⟩
      · exact ⟨_, if_pos hpath⟩
    | none =>
      by_cases hnext : record.id.index = min r.accounts.length AccountRegistry.u32Max
      · exact ⟨.closedBeforeOpened record.account.path record.account.openedOn closed, by
          simp [hnext, AccountRegistry.register, hearly, Except.map]⟩
      · exact ⟨_, if_pos hnext⟩
  | none =>
    simp only [Option.isSome_none, Bool.false_eq_true, if_false]
    cases hget : r.get record.id with
    | some existing =>
      -- the handle is held
      have hrow : t.get? record.id = some (rowOf existing) := by rw [h.rows, hget, Option.map_some]
      have hexisting := h.plain existing (List.mem_of_getElem? hget)
      rw [hrow]
      by_cases hpath : existing.path = record.account.path
      · refine .inl ⟨_, _, if_pos (congrArg AccountPath.display hpath), ?_, h.put hget hpath.symm hearly⟩
        simp only [AccountRegistry.restore, hget, hpath, hearly, ne_eq, not_true_eq_false, if_false]
      · refine .inr ⟨⟨_, if_neg fun e => hpath ((AccountPath.display_inj hexisting ha.plain).1 e)⟩, ?_⟩
        exact ⟨.alreadyRegistered existing.path, by simp only [AccountRegistry.restore, hget, if_pos hpath]⟩
    | none =>
      -- the handle is the next one
      have hrow : t.get? record.id = none := by rw [h.rows, hget, Option.map_none]
      have hge : r.len ≤ record.id.index := List.getElem?_eq_none_iff.1 hget
      have hid : record.id.index = r.len := le_antisymm ha.dense hge
      have hlen : r.len < 2 ^ 32 := hid ▸ record.id.fits
      rw [hrow, AccountRegistry.restore_next hid hlen]
      by_cases htaken : record.account.path ∈ r.paths
      · have hcontains : r.index.contains record.account.path = true := by
          by_contra hfree
          exact h.indexed.free.1 (Bool.eq_false_iff.2 hfree) htaken
        refine .inr ⟨⟨_, if_pos ((h.taken_iff ha.plain).2 htaken)⟩, .alreadyRegistered record.account.path, ?_⟩
        simp only [AccountRegistry.register, hearly, hcontains, if_true, Except.map]
      · obtain ⟨id, r', hreg⟩ := AccountRegistry.register_ok h.indexed hearly htaken hlen
        have hregisters := AccountRegistry.registers_of_ok hreg
        obtain rfl : id = record.id := AccountId.ext (hregisters.handle.trans hid.symm)
        refine .inl ⟨_, r', if_neg fun hm => htaken ((h.taken_iff ha.plain).1 hm), by rw [hreg]; rfl, ?_⟩
        exact h.register hregisters ha.plain

/-! ## The accounts of `Tables` -/

section
variable {H : Type} {P : Scale}

/-- `Tables` holds the paths themselves. For plain ones the text decides as they do. -/
theorem registerAccount_tables {B : Backend} {T : Tables H P} (hrows : ∀ id, t.get? id = (T.accounts.get? id).map rowOf)
    (hplain : ∀ id a, T.accounts.get? id = some a → a.path.Plain) (hrecord : record.account.path.Plain)
    (hdates : (B.storesDate record.account.openedOn && record.account.closedOn.all B.storesDate) = true) :
    (∀ e, registerAccount B t record = .error e → T.registerAccount B record = .error e) ∧
    ∀ t', registerAccount B t record = .ok t' → ∃ T', T.registerAccount B record = .ok T' ∧
      ∀ id, t'.get? id = (T'.accounts.get? id).map rowOf := by
  have hwritten : ∀ id, (t.insert (B.handle record.id) (rowOf record.account)).get? id =
      ((T.accounts.insert (B.handle record.id) record.account).get? id).map rowOf := fun id => by
    rw [OrdMap.get?_insert, OrdMap.get?_insert, hrows]
    split <;> rfl
  have htaken : (t.values.any fun row => row.path = (rowOf record.account).path) =
      T.accounts.values.any fun a => a.path = record.account.path := by
    rw [Bool.eq_iff_iff]
    simp only [List.any_eq_true, decide_eq_true_iff, OrdMap.mem_values, hrows, Option.map_eq_some_iff]
    constructor
    · rintro ⟨row, ⟨id, a, ha, rfl⟩, hpath⟩
      exact ⟨a, ⟨id, ha⟩, (AccountPath.display_inj (hplain id a ha) hrecord).1 hpath⟩
    · rintro ⟨a, ⟨id, ha⟩, hpath⟩
      exact ⟨rowOf a, ⟨id, a, ha, rfl⟩, congrArg AccountPath.display hpath⟩
  unfold registerAccount Tables.registerAccount
  simp only [rowOf] at htaken hwritten ⊢
  simp only [hdates, htaken, Bool.not_true, Bool.false_eq_true, if_false, hrows]
  split
  · simp
  · cases hget : T.accounts.get? (B.handle record.id) with
    | none =>
      simp only [Option.map_none]
      split
      · simp
      · simpa using hwritten
    | some a =>
      have hpath : (rowOf a).path = record.account.path.display ↔ a.path = record.account.path :=
        AccountPath.display_inj (hplain _ a hget) hrecord
      simp only [Option.map_some, hpath]
      split
      · simpa using hwritten
      · simp

end

/-! ## Runs -/

section
variable {H : Type} [Blake3 H] [DecidableEq H] {P : Scale}

/-- One segment that is shown as two. -/
def oneSegment : AccountPath := ⟨["Assets:Cash"], rfl⟩

end

end AccountTable
end DoubleEntry.L4
