import DoubleEntry.L3Ledger.ClearingReplay
import DoubleEntry.L4Store.ClearingTables
import DoubleEntry.L4Store.Retries

/-!
# The statements of a clearing

What `clear` and `reset_clearing` read and write, a statement at a time, and what the
constraints of the tables let pass. Each is related to the register in memory over rows that
mirror it: the facts of a posting are those `checkItem` finds (`Mirrors.postingFacts_eq`),
the rows of an accepted clearing are those of the next register (`Mirrors.clear`), and a reset
that finds a row to update is one the register accepts (`Mirrors.reset`).

The postings on file stay over the calls on a store (`Effect.postingAt_stays`), so a register
accepts a sequence of calls over more postings too (`replay_mono`).

**Results.**
* `checkAlone_eq_ok`: what the checks before the transaction let pass.
* `Mirrors.postingFacts_eq`, `Mirrors.clear`, `Mirrors.reset`: one lemma a statement.
* `Effect.postingAt_stays`: what a statement found is still there when a later one runs.

Dates that the backend cannot bind are refused with the statement (`admitsClearing`).
-/
namespace DoubleEntry.L4

open DoubleEntry.Core DoubleEntry.L1 DoubleEntry.L2 DoubleEntry.L3

variable {H : Type} {P : Scale}

/-! ## The statements -/

/-- What a clearing or a reset fails with. -/
inductive ClearError
  | clearing (e : ClearingError)
  | notResettable (id : ClearingId)
  | database
  deriving DecidableEq

/-- mirrors src/storage/sqlite.rs:934-940 -/
structure PostingFacts (P : Scale) where
  direction : Direction
  account : AccountId
  currency : Currency
  layer : Layer
  residual : Amount P

/-- The reference as the columns hold it. -/
def Backend.storedRef (B : Backend) (ref : PostingRef) : PostingRef := { ref with index := B.postingIndex ref.index }

/-- `SELECT .. FROM postings WHERE entry_id = .. AND posting_index = ..` -/
def Tables.postingAt (B : Backend) (t : Tables H P) (ref : PostingRef) : Option (Posting P) :=
  (t.entries.find? fun r => r.entry.id = ref.entry).bind fun r => r.entry.postings[B.postingIndex ref.index]?

/-- mirrors src/storage/sqlite.rs:942-982, src/storage/postgres.rs:2071-2109 -/
def Tables.postingFacts (B : Backend) (t : Tables H P) (ct : ClearingTables P) (ref : PostingRef) :
    Except ClearError (PostingFacts P) :=
  match t.postingAt B ref with
  | none => .error (.clearing (.unknownPosting ref))
  | some p =>
    match Amount.checked (p.amount.minor - ct.appliedMinor (B.storedRef ref)) with
    | .error _ => .error .database
    | .ok residual => .ok ⟨p.direction, p.account, p.currency, p.layer, residual⟩

/-- The loop over the items alone, with the references seen.
mirrors src/storage/sqlite.rs:1438-1452, src/storage/postgres.rs:1665-1679 -/
def checkAlone : List PostingRef → List (ClearedItem P) → Except ClearingError Unit
  | _, [] => .ok ()
  | seen, item :: items =>
    if seen.contains item.posting then .error (.duplicateItem item.posting)
    else if item.applied.isPositive = false then .error (.nonPositiveApplication item.posting)
    else checkAlone (item.posting :: seen) items

/-- mirrors src/storage/sqlite.rs:1432-1452, src/storage/postgres.rs:1659-1679 -/
def checkForm (c : Clearing P) : Except ClearingError Unit :=
  if c.items.length < 2 then .error (.tooFewItems c.items.length) else checkAlone [] c.items

/-- mirrors src/storage/sqlite.rs:1472-1500, src/storage/postgres.rs:1696-1724 -/
def checkFacts (c : Clearing P) (item : ClearedItem P) (facts : PostingFacts P) : Except ClearingError Unit :=
  if facts.account ≠ c.account then .error (.wrongAccount item.posting c.account)
  else if facts.currency ≠ c.currency then .error (.wrongCurrency item.posting c.currency)
  else if facts.layer ≠ c.layer then .error (.wrongLayer item.posting c.layer)
  else if facts.residual < item.applied then
    .error (.overApplied item.posting item.applied.minor facts.residual.minor P.val)
  else .ok ()

/-- What is inserted into `clearings`. -/
def Backend.clearingRow (B : Backend) (c : Clearing P) : ClearingRow :=
  ⟨c.id, B.handle c.account, c.currency, c.layer, c.clearedOn, none⟩

/-- What is inserted into `clearing_items`. -/
def Backend.itemRow (B : Backend) (id : ClearingId) (item : ClearedItem P) : ClearingItemRow P :=
  ⟨id, B.storedRef item.posting, item.applied⟩

namespace ClearingTables

/-- What `clearings` asks of a new row: a date that can be bound, and its constraints. -/
def admitsClearing (B : Backend) (ct : ClearingTables P) (t : Tables H P) (row : ClearingRow) : Bool :=
  B.storesDate row.clearedOn &&
  -- PRIMARY KEY (clearing_id), FOREIGN KEY (account_index)
  (ct.clearings.all fun c => c.id ≠ row.id) && t.accounts.contains row.account

/-- The constraints of `clearing_items`. -/
def admitsItem (ct : ClearingTables P) (t : Tables H P) (row : ClearingItemRow P) : Bool :=
  -- PRIMARY KEY (clearing_id, entry_id, posting_index)
  (ct.items.all fun i => i.clearing ≠ row.clearing ∨ i.posting ≠ row.posting) &&
  -- FOREIGN KEY (clearing_id), FOREIGN KEY (entry_id, posting_index), clearing_items_positive
  (ct.clearings.any fun c => c.id = row.clearing) &&
  (t.entries.any fun r => r.entry.id = row.posting.entry ∧ row.posting.index < r.entry.postings.length) &&
  row.applied.isPositive

/-- `UPDATE clearings SET reset_on = .. WHERE clearing_id = .. AND reset_on IS NULL`
mirrors src/storage/sqlite.rs:1539-1553, src/storage/postgres.rs:1764-1782 -/
def resetClearing (B : Backend) (ct : ClearingTables P) (id : ClearingId) (on : Date) :
    Except ClearError (ClearingTables P) :=
  if !B.storesDate on then .error .database
  else if ct.isActive id then
    .ok { ct with clearings := ct.clearings.map fun c =>
      if c.id = id ∧ c.resetOn.isNone then { c with resetOn := some on } else c }
  else .error (.notResettable id)

end ClearingTables

/-! ## The postings on file -/

namespace Tables

variable [Blake3 H]

omit [Blake3 H] in
theorem fresh_subset (known : List IdempotencyKey) (batch : List (Entry H .balanced P)) : fresh known batch ⊆ batch := by
  induction batch generalizing known with
  | nil => exact List.Subset.refl _
  | cons e es ih =>
    rw [fresh]
    split
    · exact List.subset_cons_of_subset e (ih known)
    · exact List.cons_subset_cons e (ih _)

/-- The rows a call adds are those of entries it submits. -/
theorem Effect.leaves [DecidableEq H] {B : Backend} {t t' : Tables H P} {k : Call H P} {log : List (Logged H P)}
    (h : Effect B t k t') (hl : t.LogInv log) (hk : SealedBatches t k) : ∃ es : List (Entry H .balanced P),
      (∀ e ∈ es, Journal.FromSeal e) ∧ t'.leaves = t.leaves ++ es.map fun e => ⟨B.stored e, e.contentHash⟩ := by
  cases h with
  | keep entries subtrees =>
    refine ⟨[], fun _ he => absurd he List.not_mem_nil, ?_⟩
    rw [Tables.leaves, entries, List.map_nil, List.append_nil]
    rfl
  | appended ok =>
    obtain ⟨t₁, accumulator, hlands, rfl⟩ := lands_of_append ok
    exact ⟨_, fun e he => hk e (fresh_subset _ _ he), hlands.rows⟩
  | deferred ok => exact ⟨_, fun e he => hk e (fresh_subset _ _ he), (lands_of_appendDeferred ok).rows⟩
  | sequenced ok =>
    refine ⟨[], fun _ he => absurd he List.not_mem_nil, ?_⟩
    rw [List.map_nil, List.append_nil]
    exact (sequence_spec hl ok).2.leaves

/-- Every row holds a sealed entry, as the columns hold it. -/
structure SealedRows (B : Backend) (t : Tables H P) : Prop where
  log : ∃ log, t.LogInv log
  sealed : ∀ x ∈ t.leaves, ∃ e, Journal.FromSeal e ∧ x.entry = B.stored e

theorem sealedRows_inductive [DecidableEq H] (B : Backend) (ledger : LedgerId) :
    ((calls B ledger).restrict SealedBatches : LTS (Tables H P) (Call H P)).Inductive (SealedRows B) where
  init t h := by
    obtain rfl : t = .empty ledger := h
    exact ⟨⟨[], logInv_empty ledger⟩, fun x hx => absurd hx List.not_mem_nil⟩
  step t k t' h st := by
    obtain ⟨hst, hk⟩ := st
    have hlog := (logInv_inductive B ledger).step t k t' h.log hst
    obtain ⟨-, rfl, -⟩ := hst
    obtain ⟨log, hl⟩ := h.log
    obtain ⟨es, hes, hleaves⟩ := (t.after_effect B k).leaves hl hk
    refine ⟨hlog, fun x hx => ?_⟩
    rw [hleaves] at hx
    rcases List.mem_append.1 hx with hx | hx
    · exact h.sealed x hx
    · obtain ⟨e, he, rfl⟩ := List.mem_map.1 hx
      exact ⟨e, hes e he, rfl⟩

omit [Blake3 H] in
theorem postingAt_eq (B : Backend) (t : Tables H P) (ref : PostingRef) : t.postingAt B ref =
    (t.leaves.find? fun x => x.entry.id = ref.entry).bind fun x => x.entry.postings[B.postingIndex ref.index]? := by
  unfold postingAt leaves
  rw [List.find?_map, Option.bind_map]
  rfl

theorem Effect.postingAt_stays [DecidableEq H] {B : Backend} {t t' : Tables H P} {k : Call H P}
    (h : Effect B t k t') (ht : SealedRows B t) (hk : SealedBatches t k) {ref : PostingRef} {p : Posting P}
    (hp : t.postingAt B ref = some p) : t'.postingAt B ref = some p := by
  obtain ⟨log, hl⟩ := ht.log
  obtain ⟨es, -, hleaves⟩ := h.leaves hl hk
  rw [postingAt_eq] at hp ⊢
  obtain ⟨x, hx, hat⟩ := Option.bind_eq_some_iff.1 hp
  rw [hleaves, List.find?_append, hx]
  exact hat

/-- What is found is a positive posting, by a reference and with an account that the columns hold. -/
theorem SealedRows.postingAt_spec {B : Backend} {t : Tables H P} (h : SealedRows B t) {ref : PostingRef} {p : Posting P}
    (hp : t.postingAt B ref = some p) :
    B.storedRef ref = ref ∧ B.handle p.account = p.account ∧ 0 < p.amount.minor := by
  rw [postingAt_eq] at hp
  obtain ⟨x, hx, hat⟩ := Option.bind_eq_some_iff.1 hp
  obtain ⟨e, he, hstored⟩ := h.sealed x (List.mem_of_find?_eq_some hx)
  rw [hstored] at hat
  obtain ⟨hlt, hget⟩ := List.getElem?_eq_some_iff.1 hat
  have hmem : p ∈ (B.stored e).postings := hget ▸ List.getElem_mem hlt
  obtain ⟨q, hq, rfl⟩ := List.mem_map.1 hmem
  refine ⟨?_, ?_, he.postable.1 q hq⟩
  · obtain ⟨draft, ctx, hs⟩ := he
    have hlen : e.postings.length ≤ 32767 := (Entry.length_of_seal hs).2
    rw [show (B.stored e).postings.length = e.postings.length from List.length_map _] at hlt
    cases B with
    | sqlite => rfl
    | postgres =>
      have hlt : min ref.index 32767 < e.postings.length := hlt
      have hindex : min ref.index 32767 = ref.index := by omega
      show ({ ref with index := min ref.index 32767 } : PostingRef) = ref
      rw [hindex]
  · cases B with
    | sqlite => rfl
    | postgres =>
      have hindex : min (min q.account.index (2 ^ 31 - 1)) (2 ^ 31 - 1) = min q.account.index (2 ^ 31 - 1) := by omega
      exact AccountId.ext hindex

end Tables

/-! ## The statements over a register -/

/-- What the checks before the transaction let pass. -/
theorem checkAlone_eq_ok {seen : List PostingRef} {items : List (ClearedItem P)} :
    checkAlone seen items = .ok () ↔ (items.map (·.posting)).Nodup ∧ (∀ item ∈ items, item.posting ∉ seen) ∧
      ∀ item ∈ items, 0 < item.applied.minor := by
  induction items generalizing seen with
  | nil => simp [checkAlone]
  | cons item items ih =>
    rw [checkAlone, List.contains_eq_mem]
    by_cases hseen : item.posting ∈ seen
    · simp [hseen]
    by_cases hpos : 0 < item.applied.minor
    · have hpositive : item.applied.isPositive = true := decide_eq_true hpos
      rw [if_neg (by simpa using hseen), if_neg (by simp [hpositive]), ih]
      simp only [List.map_cons, List.nodup_cons, List.mem_cons, List.mem_map, not_or, forall_eq_or_imp, hseen, hpos,
        not_false_eq_true, true_and]
      constructor
      · intro h
        obtain ⟨hn, hout, hall⟩ := h
        exact ⟨⟨fun hmem => by
          obtain ⟨x, hx, he⟩ := hmem
          exact (hout x hx).1 he, hn⟩, fun x hx => (hout x hx).2, hall⟩
      · intro h
        obtain ⟨⟨hout, hn⟩, hrest, hall⟩ := h
        exact ⟨hn, fun x hx => ⟨fun he => hout ⟨x, hx, he⟩, hrest x hx⟩, hall⟩
    · have hpositive : item.applied.isPositive = false := decide_eq_false hpos
      simp [hseen, hpositive, hpos]

theorem checkForm_eq_ok {c : Clearing P} : checkForm c = .ok () ↔ 2 ≤ c.items.length ∧
    (c.items.map (·.posting)).Nodup ∧ ∀ item ∈ c.items, 0 < item.applied.minor := by
  unfold checkForm
  by_cases hlen : c.items.length < 2
  · simp [hlen]
  · rw [if_neg hlen, checkAlone_eq_ok]
    simp [not_lt.1 hlen]

theorem checkFacts_eq_ok {c : Clearing P} {item : ClearedItem P} {facts : PostingFacts P} :
    checkFacts c item facts = .ok () ↔ facts.account = c.account ∧ facts.currency = c.currency ∧
      facts.layer = c.layer ∧ item.applied ≤ facts.residual := by
  unfold checkFacts
  by_cases ha : facts.account = c.account
  · by_cases hc : facts.currency = c.currency
    · by_cases hl : facts.layer = c.layer
      · by_cases hr : facts.residual < item.applied
        · simp [ha, hc, hl, hr]
        · simp [ha, hc, hl, not_lt.1 hr]
      · simp [ha, hc, hl]
    · simp [ha, hc]
  · simp [ha]

namespace ClearingTables.Mirrors

variable {B : Backend} {t : Tables H P} {ct : ClearingTables P} {r r' : ClearingRegister P}

/-- **The facts of a posting** are those the register finds. -/
theorem postingFacts_eq [Blake3 H] (h : Mirrors ct r) (ht : t.SealedRows B)
    (hr : ClearingRegister.Consistent (t.postingAt B) r) (ref : PostingRef) :
    (t.postingFacts B ct ref).map (·.residual) = (r.residualOf ref (t.postingAt B)).mapError .clearing ∧
    ∀ facts, t.postingFacts B ct ref = .ok facts → ∃ p, t.postingAt B ref = some p ∧ facts.direction = p.direction ∧
      facts.account = p.account ∧ facts.currency = p.currency ∧ facts.layer = p.layer ∧
      p.amount.checkedSub (r.appliedTo ref) = .ok facts.residual := by
  unfold Tables.postingFacts ClearingRegister.residualOf
  cases hp : t.postingAt B ref with
  | none => exact ⟨rfl, fun facts hf => by cases hf⟩
  | some p =>
    obtain ⟨href, -, -⟩ := ht.postingAt_spec hp
    have hminor : p.amount.minor - ct.appliedMinor (B.storedRef ref) = p.amount.minor - (r.appliedTo ref).minor := by
      rw [href, h.appliedMinor_eq, hr.applied]
    have hfits : FitsI64 (p.amount.minor - (r.appliedTo ref).minor) := by
      have hnonneg := hr.applied_nonneg ref
      have hle := hr.bounded ref p hp
      have hhigh := p.amount.fits.2
      have hmin : i64Min ≤ 0 := by decide
      exact ⟨by omega, by omega⟩
    have hchecked : Amount.checked (p.amount.minor - ct.appliedMinor (B.storedRef ref)) =
        .ok (⟨_, hfits⟩ : Amount P) := by
      rw [hminor]
      exact Amount.checked_eq_ok.2 rfl
    have hsub : p.amount.checkedSub (r.appliedTo ref) = .ok (⟨_, hfits⟩ : Amount P) := Amount.checkedSub_eq_ok.2 rfl
    simp only [hchecked, hsub]
    refine ⟨rfl, fun facts hf => ?_⟩
    cases hf
    exact ⟨p, rfl, rfl, rfl, rfl, rfl, hsub⟩

/-- An identifier that no row has is new to the register. -/
theorem fresh_iff {postings : PostingRef → Option (Posting P)} (h : Mirrors ct r)
    (hr : ClearingRegister.Consistent postings r) (id : ClearingId) :
    (ct.clearings.any fun row => row.id = id) = false ↔ r.byId.get? id = none := by
  rw [← Option.not_isSome_iff_eq_none, hr.recorded_iff, h.clearings, List.any_map, List.any_eq_false]
  simp [rowOfClearing]

theorem clear {postings lookup : PostingRef → Option (Posting P)} (h : Mirrors ct r)
    (hr : ClearingRegister.Consistent postings r) {c : Clearing P} (hc : r.clear c lookup = .ok r') :
    Mirrors ⟨ct.clearings ++ [rowOfClearing c none], ct.items ++ itemRowsOf c⟩ r' := by
  obtain ⟨hid, -, seen, sides, applied, -, -, -, rfl⟩ := ClearingRegister.clear_eq_ok.1 hc
  have hunreset : r.resetOn.get? c.id = none := by
    by_contra hne
    have hrec := hr.resets c.id (Option.isSome_iff_ne_none.2 hne)
    rw [hid] at hrec
    cases hrec
  have hcleared : ClearingRegister.cleared (r.events ++ [.cleared c]) = ClearingRegister.cleared r.events ++ [c] :=
    ClearingRegister.cleared_append _ _
  constructor
  · show ct.clearings ++ [rowOfClearing c none] = (ClearingRegister.cleared (r.events ++ [.cleared c])).map _
    rw [hcleared, List.map_append, ← h.clearings, List.map_singleton, hunreset]
  · show ct.items ++ itemRowsOf c = (ClearingRegister.cleared (r.events ++ [.cleared c])).flatMap _
    rw [hcleared, List.flatMap_append, ← h.items, List.flatMap_singleton]

/-- **A reset** that updates a row is one the register accepts. -/
theorem reset {postings : PostingRef → Option (Posting P)} {ct' : ClearingTables P} (h : Mirrors ct r)
    (hr : ClearingRegister.Consistent postings r) {id : ClearingId} {on : Date} (hct : ct.resetClearing B id on = .ok ct') :
    ∃ r', r.reset id on = .ok r' ∧ Mirrors ct' r' := by
  unfold resetClearing at hct
  split at hct
  · cases hct
  split at hct
  · rename_i hactive
    cases hct
    obtain ⟨row, hrow, hand⟩ := List.any_eq_true.1 hactive
    rw [h.clearings] at hrow
    obtain ⟨c, hc, rfl⟩ := List.mem_map.1 hrow
    obtain ⟨hid, hnone⟩ := of_decide_eq_true hand
    obtain rfl : c.id = id := hid
    have hunreset : r.resetOn.get? c.id = none := Option.isNone_iff_eq_none.1 hnone
    obtain ⟨r', hok⟩ := hr.reset_ok (hr.recorded_iff.2 ⟨c, hc, rfl⟩) hunreset on
    refine ⟨r', hok, ?_⟩
    obtain ⟨-, -, -, -, -, -, -, rfl⟩ := ClearingRegister.reset_eq_ok.1 hok
    have hcleared : ClearingRegister.cleared (r.events ++ [.reset c.id on]) = ClearingRegister.cleared r.events := by
      rw [ClearingRegister.cleared_append]
      exact List.append_nil _
    constructor
    · show _ = (ClearingRegister.cleared (r.events ++ [.reset c.id on])).map _
      rw [hcleared, h.clearings, List.map_map]
      refine List.map_congr_left fun d _ => ?_
      simp only [Function.comp_apply, rowOfClearing]
      by_cases hd : d.id = c.id
      · simp [hd, hunreset]
      · rw [if_neg fun hand => hd hand.1, OrdMap.get?_insert_ne (Ne.symm hd)]
    · show _ = (ClearingRegister.cleared (r.events ++ [.reset c.id on])).flatMap _
      rw [hcleared, h.items]
  · cases hct

end ClearingTables.Mirrors

end DoubleEntry.L4
