import DoubleEntry.L2Merkle.Proofs
import DoubleEntry.L4Store.SqlReads

/-!
# Heads and proofs from the rows

A head is read from one row, a proof is built by replaying every sequenced row
into a `MerkleLog`. The two agree because each row's `tree_root` is the root of
the rows up to it (`Represents`), which every call keeps (`sqlite_log_represented`).

**Assumptions.** None on the hash. Every call is of one caller after another; what SQLite places
fits the column, or the call is refused.

**Results.**
* `Tables.placed_inductive`: SQLite places an entry when it takes it, so every row has a
  position.
* `headAt_eq`, `headAt_past`: historical heads.
* `sqlite_log_represented`: rows, heads, proofs and subtrees agree after any calls.
-/
namespace DoubleEntry.L4

open DoubleEntry.Core DoubleEntry.L1 DoubleEntry.L2 DoubleEntry.L3

variable {H : Type} [Blake3 H] {P : Scale}

/-! ## The reads -/

/-- The variants of `SqliteError` and `PostgresError` a head or a proof returns. -/
inductive LogError
  | logNotDense (expected found : Nat)
  | proof (e : ProofError)
  deriving DecidableEq

omit [Blake3 H] in
/-- The loop of `log`, `log_index` against the position of the row. -/
def denseLeaves : Nat → List (Nat × H) → Except LogError (List H)
  | _, [] => .ok []
  | expected, (stored, contentHash) :: rows =>
    if stored ≠ expected then .error (.logNotDense expected stored)
    else (denseLeaves (expected + 1) rows).map (contentHash :: ·)

namespace Tables

/-- mirrors src/storage/sqlite.rs:331-354, src/storage/postgres.rs:453-482 -/
def merkleLog (t : Tables H P) : Except LogError (MerkleLog H) :=
  let rows := (t.entries.filterMap fun r => r.placed.map fun p => (p.1, r.toLogged)).insertionSort
    fun a b => a.1 ≤ b.1
  (denseLeaves 0 (rows.map fun row => (row.1, row.2.contentHash))).map .fromLeaves

/-- The row of the last leaf. mirrors src/storage/sqlite.rs:1137-1161, src/storage/postgres.rs:1307-1331 -/
def headAt (t : Tables H P) (size : Nat) : Except LogError (TreeHead H) :=
  if size = 0 then .ok ⟨0, emptyRoot⟩
  else
    -- i64::try_from(size.saturating_sub(1)).unwrap_or(i64::MAX)
    let index := min (size - 1) (2 ^ 63 - 1)
    match (t.entries.filterMap (·.placed)).find? fun p => p.1 = index with
    | none => .error (.proof (.sizeOutOfRange size 0))
    | some p => .ok ⟨size, p.2⟩

/-- mirrors src/storage/sqlite.rs:1208-1210 -/
def proveInclusion (t : Tables H P) (index : Nat) : Except LogError (InclusionProof H) := do
  let log ← t.merkleLog
  (log.inclusionProof index).mapError .proof

/-- mirrors src/storage/sqlite.rs:1212-1218 -/
def proveInclusionAt (t : Tables H P) (index size : Nat) : Except LogError (InclusionProof H) := do
  let log ← t.merkleLog
  (log.inclusionProofAt index size).mapError .proof

/-- mirrors src/storage/sqlite.rs:1220-1222 -/
def proveConsistency (t : Tables H P) (oldSize : Nat) : Except LogError (ConsistencyProof H) := do
  let log ← t.merkleLog
  (log.consistencyProof oldSize).mapError .proof

/-- mirrors src/storage/sqlite.rs:1224-1233 -/
def proveConsistencyBetween (t : Tables H P) (oldSize newSize : Nat) : Except LogError (ConsistencyProof H) := do
  let log ← t.merkleLog
  (log.consistencyProofBetween oldSize newSize).mapError .proof

end Tables

/-! ## What the rows represent -/

/-- The sequenced rows are the leaves, each at its position with the root up to it,
and `log_subtrees` is the accumulator over them. -/
structure Represents (t : Tables H P) (leaves : List H) : Prop where
  indices : ((t.entries.filterMap (·.placed)).map Prod.fst).Perm (List.range leaves.length)
  placed : ∀ r ∈ t.entries, ∀ index root, r.placed = some (index, root) →
    leaves[index]? = some r.contentHash ∧ root = mth (leaves.take (index + 1))
  subtrees : t.subtrees = (leaves.foldl MerkleAccumulator.push .new).subtrees

section
variable {t : Tables H P} {log : List (Logged H P)}

theorem mem_numbered {x : (Nat × H) × Logged H P} : x ∈ numbered log ↔
    log[x.1.1]? = some x.2 ∧ x.1.2 = mth (hashes (log.take (x.1.1 + 1))) := by
  obtain ⟨⟨index, root⟩, leaf⟩ := x
  unfold numbered
  simp only [List.mem_map, List.mem_zipIdx_iff_getElem?, Prod.mk.injEq, Prod.exists]
  constructor
  · intro ⟨y, i, hy, ⟨hi, hroot⟩, hleaf⟩
    subst hi hroot hleaf
    exact ⟨hy, rfl⟩
  · intro ⟨hleaf, hroot⟩
    exact ⟨leaf, index, hleaf, ⟨rfl, hroot.symm⟩, rfl⟩

/-- Tables that hold a log represent its hashes. -/
theorem Tables.LogInv.represents (h : t.LogInv log) : Represents t (hashes log) where
  indices := by simpa [hashes] using h.logOf.indices
  placed r hr index root hp := by
    have hmem : ((index, root), r.toLogged) ∈ placedRows t.entries := List.mem_filterMap.2 ⟨r, hr, by simp [hp]⟩
    obtain ⟨hleaf, hroot⟩ := mem_numbered.1 (h.logOf.mem_iff.1 hmem)
    refine ⟨?_, ?_⟩
    · rw [hashes, List.getElem?_map, hleaf]
      rfl
    · simpa [hashes, List.map_take] using hroot
  subtrees := congrArg MerkleAccumulator.subtrees (h.covers.unique (MerkleAccumulator.covers_foldl _))

end

/-! ## The reads are the log's -/

omit [Blake3 H] in
theorem denseLeaves_range (leaves : List H) : ∀ expected,
    denseLeaves expected ((List.range' expected leaves.length).zip leaves) = .ok leaves := by
  induction leaves with
  | nil => exact fun _ => rfl
  | cons x leaves ih =>
    intro expected
    simp [List.range'_succ, denseLeaves, ih, Except.map]

section
variable {t : Tables H P} {log : List (Logged H P)}

theorem numbered_hashes (log : List (Logged H P)) :
    ((numbered log).map fun x => (x.1.1, x.2)).map (fun row => (row.1, row.2.contentHash)) =
      (List.range' 0 (hashes log).length).zip (hashes log) := by
  have hindices : List.range' 0 (hashes log).length = (numbered log).map fun x => x.1.1 := by
    rw [positions_numbered, hashes, List.length_map, List.range_eq_range']
  have hhashes : hashes log = (numbered log).map fun x => x.2.contentHash := by
    conv_lhs => rw [← leaves_numbered log]
    rw [hashes, List.map_map]
    rfl
  rw [hindices, hhashes, List.zip_map', List.map_map]
  rfl

theorem Tables.merkleLog_eq (h : LogOf t.entries log) : t.merkleLog = .ok (.fromLeaves (hashes log)) := by
  unfold Tables.merkleLog
  simp only [Tables.ordered_eq h, numbered_hashes, denseLeaves_range]
  rfl

end

namespace Represents

variable {t : Tables H P} {leaves : List H}

theorem sequencedCount_eq (h : Represents t leaves) : t.sequencedCount = leaves.length := by
  have hlen := h.indices.length_eq
  simpa [Tables.sequencedCount] using hlen

theorem length_le (h : Represents t leaves) : leaves.length ≤ t.entries.length := by
  rw [← h.sequencedCount_eq]
  exact List.length_filterMap_le _ _

/-- The row of a leaf holds the root up to it. -/
theorem find?_placed (h : Represents t leaves) {index : Nat} (hi : index < leaves.length) :
    (t.entries.filterMap (·.placed)).find? (fun p => p.1 = index) = some (index, mth (leaves.take (index + 1))) := by
  have hmem : index ∈ (t.entries.filterMap (·.placed)).map Prod.fst := h.indices.mem_iff.2 (List.mem_range.2 hi)
  obtain ⟨⟨stored, root⟩, hp, hstored⟩ := List.mem_map.1 hmem
  obtain rfl : stored = index := hstored
  have hu : ((t.entries.filterMap (·.placed)).map Prod.fst).Nodup := h.indices.nodup_iff.2 List.nodup_range
  obtain ⟨r, hr, hplaced⟩ := List.mem_filterMap.1 hp
  obtain ⟨-, rfl⟩ := h.placed r hr stored root hplaced
  exact (find?_unique hu).2 ⟨hp, rfl⟩

/-- **Historical heads** are those of the prefixes, while the positions fit the column. -/
theorem headAt_eq (h : Represents t leaves) (hroom : t.entries.length < 2 ^ 63) {size : Nat}
    (hsize : size ≤ leaves.length) : t.headAt size = .ok ⟨size, mth (leaves.take size)⟩ := by
  have hle := h.length_le
  unfold Tables.headAt
  by_cases hzero : size = 0
  · subst hzero
    rfl
  · have hindex : min (size - 1) (2 ^ 63 - 1) = size - 1 := by omega
    have hfind := h.find?_placed (show size - 1 < leaves.length by omega)
    have hsucc : size - 1 + 1 = size := by omega
    simp only [if_neg hzero, hindex, hfind, hsucc]

theorem headAt_past (h : Represents t leaves) (hroom : t.entries.length < 2 ^ 63) {size : Nat}
    (hsize : leaves.length < size) : t.headAt size = .error (.proof (.sizeOutOfRange size 0)) := by
  have hle := h.length_le
  have hzero : size ≠ 0 := by omega
  have hnone : (t.entries.filterMap (·.placed)).find? (fun p => p.1 = min (size - 1) (2 ^ 63 - 1)) = none := by
    rw [List.find?_eq_none]
    intro p hp
    have hlt := List.mem_range.1 (h.indices.mem_iff.1 (List.mem_map_of_mem (f := Prod.fst) hp))
    have hne : p.1 ≠ min (size - 1) (2 ^ 63 - 1) := by omega
    simpa using hne
  unfold Tables.headAt
  simp only [if_neg hzero, hnone]

end Represents

/-! ## Heads of a log -/

/-- The head of the first entries of the log. -/
def OfLog (log : List (Logged H P)) (head : TreeHead H) : Prop :=
  head.size ≤ log.length ∧ head.root = mth ((hashes log).take head.size)

theorem OfLog.append {log : List (Logged H P)} {head : TreeHead H} (h : OfLog log head) (later : List (Logged H P)) :
    OfLog (log ++ later) head := by
  refine ⟨h.1.trans (by simp), ?_⟩
  rw [hashes, List.map_append, List.take_append_of_le_length (by simpa using h.1)]
  exact h.2

/-! ## Every state of the store -/

section
variable [DecidableEq H]

/-- The heads and proofs of the tables are those of a log of these leaves, and verify. -/
structure Agrees (t : Tables H P) (leaves : List H) : Prop where
  tail : t.tail = .ok ⟨leaves.length, leaves.foldl MerkleAccumulator.push .new⟩
  head : t.head = ⟨leaves.length, mth leaves⟩
  headAt : ∀ size ≤ leaves.length, t.headAt size = .ok ⟨size, mth (leaves.take size)⟩
  headPast : ∀ size, leaves.length < size → t.headAt size = .error (.proof (.sizeOutOfRange size 0))
  inclusion : ∀ index payload, leaves[index]? = some payload → ∃ p, t.proveInclusion index = .ok p ∧
    p.verify payload t.head = true
  inclusionAt : ∀ index size payload, leaves[index]? = some payload → index < size → size ≤ leaves.length →
    ∃ p head, t.proveInclusionAt index size = .ok p ∧ t.headAt size = .ok head ∧ p.verify payload head = true
  consistency : ∀ old ≤ leaves.length, ∃ p oldHead, t.proveConsistency old = .ok p ∧ t.headAt old = .ok oldHead ∧
    p.verify oldHead t.head = true
  consistencyBetween : ∀ old new, old ≤ new → new ≤ leaves.length → ∃ p oldHead newHead,
    t.proveConsistencyBetween old new = .ok p ∧ t.headAt old = .ok oldHead ∧ t.headAt new = .ok newHead ∧
      p.verify oldHead newHead = true

theorem Tables.LogInv.agrees {t : Tables H P} {log : List (Logged H P)} (h : t.LogInv log)
    (hroom : t.entries.length < 2 ^ 63) : Agrees t (hashes log) := by
  have hlog : t.merkleLog = .ok (.fromLeaves (hashes log)) := t.merkleLog_eq h.logOf
  have hhead : t.head = ⟨(hashes log).length, mth (hashes log)⟩ := by
    rw [t.head_eq h.logOf, hashes, List.length_map]
  have hheadAt : ∀ size ≤ (hashes log).length, t.headAt size = .ok ⟨size, mth ((hashes log).take size)⟩ :=
    fun size hsize => h.represents.headAt_eq hroom hsize
  have hinclusion : ∀ index size payload, (hashes log)[index]? = some payload → index < size →
      size ≤ (hashes log).length → ∃ p, t.proveInclusionAt index size = .ok p ∧
        p.verify payload ⟨size, mth ((hashes log).take size)⟩ = true := by
    intro index size payload hleaf hlt hsize
    have hleaves : (MerkleLog.fromLeaves (hashes log)).leaves = hashes log := MerkleLog.leaves_fromLeaves _
    obtain ⟨p, hp, hv⟩ := MerkleLog.inclusionProofAt_verifies (hleaves ▸ hsize) hlt (hleaves ▸ hleaf)
    refine ⟨p, ?_, by simpa using hv⟩
    simp [Tables.proveInclusionAt, hlog, hp, bind, Except.bind]
  have hconsistency : ∀ old new, old ≤ new → new ≤ (hashes log).length → ∃ p,
      t.proveConsistencyBetween old new = .ok p ∧
        p.verify ⟨old, mth ((hashes log).take old)⟩ ⟨new, mth ((hashes log).take new)⟩ = true := by
    intro old new hle hnew
    have hlen : new ≤ (MerkleLog.fromLeaves (hashes log)).leaves.length := by simpa using hnew
    obtain ⟨p, oldHead, newHead, hp, hold, hnewHead, hv⟩ := MerkleLog.consistencyProofBetween_complete hle hlen
    rw [MerkleLog.headAt_eq (hle.trans hlen)] at hold
    rw [MerkleLog.headAt_eq hlen] at hnewHead
    cases hold
    cases hnewHead
    refine ⟨p, ?_, by simpa using hv⟩
    simp [Tables.proveConsistencyBetween, hlog, hp, bind, Except.bind]
  have hall : ((hashes log).take (hashes log).length) = hashes log := List.take_length
  constructor
  · rw [h.tail_eq hroom, h.covers.unique (MerkleAccumulator.covers_foldl _), hashes, List.length_map]
  · exact hhead
  · exact hheadAt
  · exact fun size hsize => h.represents.headAt_past hroom hsize
  · intro index payload hleaf
    obtain ⟨hlt, -⟩ := List.getElem?_eq_some_iff.1 hleaf
    obtain ⟨p, hp, hv⟩ := hinclusion index _ payload hleaf hlt le_rfl
    refine ⟨p, ?_, by rw [hhead, ← hall]; simpa using hv⟩
    simpa [Tables.proveInclusion, Tables.proveInclusionAt, hlog, bind, Except.bind, MerkleLog.inclusionProof, MerkleLog.len] using hp
  · intro index size payload hleaf hlt hsize
    obtain ⟨p, hp, hv⟩ := hinclusion index size payload hleaf hlt hsize
    exact ⟨p, _, hp, hheadAt size hsize, hv⟩
  · intro old hold
    obtain ⟨p, hp, hv⟩ := hconsistency old _ hold le_rfl
    refine ⟨p, _, ?_, hheadAt old hold, by rw [hhead]; simpa using hv⟩
    simpa [Tables.proveConsistency, Tables.proveConsistencyBetween, hlog, bind, Except.bind, MerkleLog.consistencyProof, MerkleLog.len] using hp
  · intro old new hle hnew
    obtain ⟨p, hp, hv⟩ := hconsistency old new hle hnew
    exact ⟨p, _, _, hp, hheadAt old (hle.trans hnew), hheadAt new hnew, hv⟩

/-- The rows can be numbered in the column. -/
theorem Tables.room_of_reachable {B : Backend} {ledger : LedgerId} {t : Tables H P}
    (ht : (Tables.calls B ledger).Reachable t) : t.entries.length < 2 ^ 63 := by
  have hroom : (Tables.calls B ledger : LTS (Tables H P) (Tables.Call H P)).Inductive fun t => t.entries.length < 2 ^ 63 :=
    ⟨fun t h => by
      obtain rfl : t = .empty ledger := h
      exact Nat.two_pow_pos 63, fun _ _ _ _ st => st.2.2⟩
  exact hroom.reachable ht

/-- SQLite places an entry when it takes it. -/
theorem Tables.placed_inductive (ledger : LedgerId) :
    (Tables.calls .sqlite ledger : LTS (Tables H P) (Tables.Call H P)).Inductive fun t =>
      (∃ log, t.LogInv log) ∧ ∀ r ∈ t.entries, r.placed.isSome where
  init t h := by
    obtain rfl : t = .empty ledger := h
    exact ⟨⟨[], Tables.logInv_empty ledger⟩, fun r hr => absurd hr List.not_mem_nil⟩
  step t k t' h st := by
    refine ⟨(Tables.logInv_inductive .sqlite ledger).step t k t' h.1 st, ?_⟩
    obtain ⟨hoffers, rfl, -⟩ := st
    obtain ⟨⟨log, hl⟩, hplaced⟩ := h
    have heffect := t.after_effect .sqlite k
    generalize t.after .sqlite k = t' at heffect
    cases heffect with
    | keep entries subtrees =>
      rw [entries]
      exact hplaced
    | appended ok =>
      obtain ⟨rows, subtrees, rfl, -, hnew⟩ := Tables.append_spec hl ok
      intro r hr
      rcases List.mem_append.1 hr with hr | hr
      · exact hplaced r hr
      · exact (hnew r hr).1
    | deferred ok => cases hoffers.1
    | sequenced ok => cases hoffers

/-- **The rows of SQLite are a log.** After any calls every row has a position, the positions
are dense, each row has the root up to it and the subtrees are the accumulator; so heads and
proofs agree, and verify. -/
theorem sqlite_log_represented (ledger : LedgerId) {t : Tables H P}
    (ht : (Tables.calls .sqlite ledger).Reachable t) :
    (∀ r ∈ t.entries, r.placed.isSome) ∧ ∃ leaves, Represents t leaves ∧ Agrees t leaves := by
  obtain ⟨⟨log, hl⟩, hplaced⟩ := (Tables.placed_inductive ledger).reachable ht
  exact ⟨hplaced, hashes log, hl.represents, hl.agrees (Tables.room_of_reachable ht)⟩

end

/-! ## A retry and a refused batch in between -/

namespace Tables

/-- The sale of March comes again with a sale of April; then a batch is refused. -/
def retriedBatch : List (Entry Preimage .balanced cents) :=
  [saleOfMarch.withState .balanced, saleOfApril.withState .balanced]

/-- A new sale, and the sale of April under the key of the sale of March. -/
def refusedBatch : List (Entry Preimage .balanced cents) :=
  [nextSale.withState .balanced,
    { saleOfApril.withState .balanced with idempotencyKey := saleOfMarch.idempotencyKey }]

def resentCalls : List (Call Preimage cents) :=
  marchCalls [saleOfMarch] ++ [.append 0 retriedBatch, .append 0 refusedBatch]

def resent : Tables Preimage cents := resentCalls.foldl (after .sqlite) (.empty books)

set_option maxRecDepth 10000 in
theorem reachable_resent : (calls .sqlite books).Reachable resent := by
  have hfirst : ∀ e ∈ [saleOfMarch.withState .balanced], e.postings.length < 2 ^ 64 := by decide
  have hretried : ∀ e ∈ retriedBatch, e.postings.length < 2 ^ 64 := by decide
  have hrefused : ∀ e ∈ refusedBatch, e.postings.length < 2 ^ 64 := by decide
  refine ⟨_, resentCalls, rfl, ?_⟩
  exact .cons (step_after trivial (by decide)) <| .cons (step_after trivial (by decide)) <|
    .cons (step_after hfirst (by decide)) <| .cons (step_after hretried (by decide)) <|
    .cons (step_after hrefused (by decide)) (.nil _)

set_option maxRecDepth 10000 in
/-- Not vacuous: two sales are on file. -/
theorem resent_represented : resent.entries.length = 2 ∧ (∀ r ∈ resent.entries, r.placed.isSome) ∧
    ∃ leaves, Represents resent leaves ∧ Agrees resent leaves :=
  ⟨by decide, sqlite_log_represented books reachable_resent⟩

end Tables

end DoubleEntry.L4
