import DoubleEntry.L3Ledger.OpenItems
import DoubleEntry.L4Store.SqlReads

/-!
# Clearings in the SQL tables

`clearings` has a row for each clearing and `clearing_items` one for each of its items.
What is applied to a posting is not stored: it is the sum over the items on it whose
clearing was not reset. Where the rows are those of a register (`Mirrors`), that is what
the register keeps (`Mirrors.appliedMinor_eq`).

**Results.**
* `sum_itemRows`: a sum over item rows is one over the clearings.
* `Mirrors.appliedMinor_eq`: the sum of a statement is the amount that the register keeps.

The identifiers of clearings and postings are blobs; their columns hold the values.
-/
namespace DoubleEntry.L4

open DoubleEntry.Core DoubleEntry.L1 DoubleEntry.L3

variable {H : Type} {P : Scale}

/-! ## The tables -/

/-- mirrors schema/sqlite.sql:271-286, schema/postgres.sql:385-402 -/
structure ClearingRow where
  id : ClearingId
  account : AccountId
  currency : Currency
  layer : Layer
  clearedOn : Date
  resetOn : Option Date

/-- mirrors schema/sqlite.sql:288-298, schema/postgres.sql:404-414 -/
structure ClearingItemRow (P : Scale) where
  clearing : ClearingId
  posting : PostingRef
  applied : Amount P

structure ClearingTables (P : Scale) where
  clearings : List ClearingRow
  items : List (ClearingItemRow P)

namespace ClearingTables

def empty : ClearingTables P := ⟨[], []⟩

/-- `JOIN clearings c .. WHERE c.reset_on IS NULL` -/
def isActive (ct : ClearingTables P) (id : ClearingId) : Bool :=
  ct.clearings.any fun c => c.id = id ∧ c.resetOn.isNone

/-- `SUM(ci.applied_minor)` of a posting -/
def appliedMinor (ct : ClearingTables P) (ref : PostingRef) : Int :=
  ((ct.items.filter fun i => i.posting = ref ∧ ct.isActive i.clearing).map (·.applied.minor)).sum

end ClearingTables

/-! ## The view -/

/-- mirrors src/storage.rs:749-756 -/
structure OpenItemPage (P : Scale) where
  items : List (OpenItem P)
  next : Option PostingCursor

namespace Tables

/-- The rows of the view on a key, in log order.
mirrors schema/sqlite.sql:304-326, schema/postgres.sql:421-445 -/
def openItemRows (t : Tables H P) (ct : ClearingTables P) (key : BalanceKey) : List (PostingRow H P) :=
  (t.postingRows key).filter fun r => 0 < r.posting.amount.minor - ct.appliedMinor ⟨r.entry.id, r.postingIndex⟩

/-- A row of the view, its sums read back as 64 bits. -/
def openItem (ct : ClearingTables P) (r : PostingRow H P) : Except MoneyError (OpenItem P) := do
  let applied ← Amount.checked (ct.appliedMinor ⟨r.entry.id, r.postingIndex⟩)
  let residual ← Amount.checked (r.posting.amount.minor - ct.appliedMinor ⟨r.entry.id, r.postingIndex⟩)
  let index := if r.postingIndex < 2 ^ 16 then r.postingIndex else 0
  .ok ⟨⟨r.index, index⟩, ⟨r.entry.id, index⟩, r.posting.direction, r.posting.amount, applied, residual⟩

/-- mirrors src/storage/sqlite.rs:1555-1616, src/storage/postgres.rs:1784-1843 -/
def openItems (B : Backend) (t : Tables H P) (ct : ClearingTables P) (key : BalanceKey) (cursor : PostingCursor) :
    Except SqlError (OpenItemPage P) := do
  let rest := (t.openItemRows ct (B.storedKey key)).filter fun r => !shown B cursor r
  let items ← ((rest.take cursor.effectiveLimit).mapM (openItem ct)).mapError fun _ => .database
  let next := if cursor.effectiveLimit < rest.length then
      items.getLast?.map fun i => ⟨some i.position, cursor.limit⟩
    else none
  .ok ⟨items, next⟩

end Tables

/-! ## The rows of a register -/

namespace ClearingTables

/-- The row of a clearing. -/
def rowOfClearing (c : Clearing P) (resetOn : Option Date) : ClearingRow :=
  ⟨c.id, c.account, c.currency, c.layer, c.clearedOn, resetOn⟩

def itemRowsOf (c : Clearing P) : List (ClearingItemRow P) := c.items.map fun i => ⟨c.id, i.posting, i.applied⟩

/-- Summed over the items of the clearings that pass a test. -/
theorem sum_itemRows (keep : ClearingId → Bool) (cs : List (Clearing P)) (ref : PostingRef) :
    (((cs.flatMap itemRowsOf).filter fun i => i.posting = ref ∧ keep i.clearing).map (·.applied.minor)).sum =
      appliedOver (cs.filter fun c => keep c.id) ref := by
  induction cs with
  | nil => rfl
  | cons c cs ih =>
    rw [List.flatMap_cons, List.filter_append, List.map_append, List.sum_append, ih]
    cases hc : keep c.id with
    | true =>
      have hcons : appliedOver (c :: cs.filter fun c => keep c.id) ref =
          amountIn c.items ref + appliedOver (cs.filter fun c => keep c.id) ref := rfl
      have hkeep : (c :: cs).filter (fun c => keep c.id) = c :: cs.filter fun c => keep c.id := List.filter_cons_of_pos hc
      rw [hkeep, hcons]
      simp [itemRowsOf, amountIn, List.filter_map, Function.comp_def, hc]
    | false => simp [itemRowsOf, List.filter_map, Function.comp_def, hc]

/-- The rows are those of the clearings on file, in their order. -/
structure Mirrors (ct : ClearingTables P) (r : ClearingRegister P) : Prop where
  clearings : ct.clearings =
    (ClearingRegister.cleared r.events).map fun c => rowOfClearing c (r.resetOn.get? c.id)
  items : ct.items = (ClearingRegister.cleared r.events).flatMap itemRowsOf

/-- The tables of a register. -/
def ofRegister (r : ClearingRegister P) : ClearingTables P :=
  ⟨(ClearingRegister.cleared r.events).map fun c => rowOfClearing c (r.resetOn.get? c.id),
    (ClearingRegister.cleared r.events).flatMap itemRowsOf⟩

theorem mirrors_ofRegister (r : ClearingRegister P) : Mirrors (ofRegister r) r := ⟨rfl, rfl⟩

namespace Mirrors

variable {ct : ClearingTables P} {r : ClearingRegister P}

theorem isActive_iff (h : Mirrors ct r) {c : Clearing P} (hc : c ∈ ClearingRegister.cleared r.events) :
    ct.isActive c.id = true ↔ r.resetOn.get? c.id = none := by
  unfold isActive
  rw [h.clearings, List.any_map]
  simp only [List.any_eq_true, Function.comp_apply, rowOfClearing, decide_eq_true_eq, Option.isNone_iff_eq_none]
  constructor
  · intro ⟨d, _, hid, hreset⟩
    rwa [hid] at hreset
  · intro hreset
    exact ⟨c, hc, rfl, hreset⟩

/-- **What is applied to a posting** is the sum over its items. -/
theorem appliedMinor_eq (h : Mirrors ct r) (ref : PostingRef) : ct.appliedMinor ref = appliedOver r.active ref := by
  have hactive : r.active = (ClearingRegister.cleared r.events).filter fun c => ct.isActive c.id := by
    refine List.filter_congr fun c hc => ?_
    rw [Bool.eq_iff_iff, h.isActive_iff hc]
    simp [OrdMap.contains]
  unfold appliedMinor
  rw [hactive, h.items]
  exact sum_itemRows _ _ ref

end Mirrors

end ClearingTables

end DoubleEntry.L4
