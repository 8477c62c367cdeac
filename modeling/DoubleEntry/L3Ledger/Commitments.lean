import DoubleEntry.L2Merkle.Proofs
import DoubleEntry.L3Ledger.BatchRun

/-!
# What a journal has committed to

A tree head is a commitment to a prefix when the log recomputes it at its size
(`headAt`), and it stays one in a log that extends the first (`headAt_stays`).
A refused batch truncates the log and rebuilds it, and each commitment to the
accounts rebuilds the log of their bindings; still no step of a journal takes
back a leaf of either log (`mutate_later`), so every head it has shown, and
every head in a seal, stays a commitment (`commitments_stay`).

**Assumptions.** None on the hash: heads are recomputed, nothing is inverted. Any mutations
with any entries, batches that are refused among them.

**Results.**
* `mutate_log`, `mutate_later`: a step takes no leaf back.
* `consistency_from`: from a head the log recomputes every later size has a proof.
* `commitments_stay`: heads, commitments to the accounts, and seals.
-/
namespace DoubleEntry.L3

open DoubleEntry.Core DoubleEntry.L1 DoubleEntry.L2

section
variable {H : Type} [Blake3 H]

/-! ## Logs that extend a log -/

/-- A head stays a commitment in a longer log. -/
theorem headAt_stays {log log' : MerkleLog H} (hp : log.leaves <+: log'.leaves) {size : Nat} {h : TreeHead H}
    (hh : log.headAt size = .ok h) : log'.headAt size = .ok h := by
  obtain ⟨more, hm⟩ := hp
  by_cases hle : size ≤ log.leaves.length
  · have hle' : size ≤ log'.leaves.length := by
      rw [← hm, List.length_append]
      omega
    rw [MerkleLog.headAt_eq hle] at hh
    rw [MerkleLog.headAt_eq hle', ← hm, List.take_append_of_le_length hle]
    exact hh
  · unfold MerkleLog.headAt MerkleLog.rootAt at hh
    rw [if_pos (by omega)] at hh
    cases hh

/-- The head of a log is what it recomputes at its length. -/
theorem headAt_head (log : MerkleLog H) : log.headAt log.head.size = .ok log.head := by
  rw [MerkleLog.head_eq]
  show log.headAt log.leaves.length = _
  rw [MerkleLog.headAt_eq le_rfl, List.take_length]

theorem size_of_headAt {log : MerkleLog H} {size : Nat} {h : TreeHead H} (hh : log.headAt size = .ok h) :
    h.size = size := by
  unfold MerkleLog.headAt at hh
  split at hh
  · cases hh
  · cases hh
    rfl

/-- From a head the log recomputes, every later size has a proof. -/
theorem consistency_from [DecidableEq H] {log : MerkleLog H} {h : TreeHead H} (hh : log.headAt h.size = .ok h) {n : Nat}
    (hle : h.size ≤ n) (hn : n ≤ log.len) : ∃ p new, log.consistencyProofBetween h.size n = .ok p ∧
      log.headAt n = .ok new ∧ p.verify h new = true := by
  obtain ⟨p, old, new, hp, hold, hnew, hv⟩ := MerkleLog.consistencyProofBetween_complete hle hn
  rw [hh] at hold
  cases hold
  exact ⟨p, new, hp, hnew, hv⟩

/-- Registering accounts extends the log of the bindings. -/
theorem bindingLog_grows {r r' : AccountRegistry} (h : r.Grows r') :
    (r.bindingLog : MerkleLog H).leaves <+: r'.bindingLog.leaves := by
  obtain ⟨more, hm⟩ := h
  unfold AccountRegistry.bindingLog
  rw [MerkleLog.leaves_fromLeaves, MerkleLog.leaves_fromLeaves, bindingLeaves, bindingLeaves, ← hm, List.zipIdx_append,
    List.map_append]
  exact List.prefix_append _ _

end

namespace Journal

variable {H : Type} [Blake3 H] [DecidableEq H] {P : Scale}

/-- mirrors src/journal.rs:737-739 -/
def headAt (j : Journal H P) (size : Nat) : Except ProofError (TreeHead H) := j.log.headAt size

/-- mirrors src/journal.rs:800-806 -/
def proveConsistencyBetween (j : Journal H P) (oldSize newSize : Nat) : Except ProofError (ConsistencyProof H) :=
  j.log.consistencyProofBetween oldSize newSize

/-! ## One step -/

/-- Nothing committed to is taken back. -/
structure Later (j j' : Journal H P) : Prop where
  log : j.log.leaves <+: j'.log.leaves
  accounts : j.accounts.Grows j'.accounts
  seals : j.seals.seals <+: j'.seals.seals

omit [DecidableEq H] in
theorem Later.refl (j : Journal H P) : Later j j := ⟨List.prefix_rfl, .refl _, List.prefix_rfl⟩

omit [DecidableEq H] in
theorem Later.trans {j j' j'' : Journal H P} (h : Later j j') (h' : Later j' j'') : Later j j'' :=
  ⟨h.log.trans h'.log, h.accounts.trans h'.accounts, h.seals.trans h'.seals⟩

/-- The seals of a journal commit to its log and its accounts. -/
def SealsCommit (j : Journal H P) : Prop := ∀ s ∈ j.seals.seals,
  j.headAt s.treeHead.size = .ok s.treeHead ∧ (j.accounts.bindingLog : MerkleLog H).headAt s.accounts.size = .ok s.accounts

/-- What a step does to the accounts and the seals: at most one seal is taken, of
the log and the accounts as they are. -/
theorem mutate_books (j : Journal H P) (m : Mutation H P) : j.accounts.Grows (j.mutate m).accounts ∧
    ((j.mutate m).seals.seals = j.seals.seals ∨ ∃ s : Seal H, (j.mutate m).seals.seals = j.seals.seals ++ [s] ∧
      s.treeHead = j.head ∧ s.accounts = j.accounts.commitment) := by
  cases m with
  | call k =>
    show j.accounts.Grows (j.after k).accounts ∧ ((j.after k).seals.seals = j.seals.seals ∨ ∃ s : Seal H,
      (j.after k).seals.seals = j.seals.seals ++ [s] ∧ s.treeHead = j.head ∧ s.accounts = j.accounts.commitment)
    have h := j.after_effect k
    generalize j.after k = j' at h ⊢
    cases h with
    | data grows => exact ⟨grows, .inl rfl⟩
    | recorded => exact ⟨.refl _, .inl rfl⟩
    | defined => exact ⟨.refl _, .inl rfl⟩
    | moved => exact ⟨.refl _, .inl rfl⟩
    | @sealed id q closing => exact ⟨.refl _, .inr ⟨j.buildSeal q closing id, rfl, rfl, rfl⟩⟩
  | recordValidated entry =>
    rcases j.mutate_recordValidated entry with h | ⟨balances, -, h⟩
    · rw [h]
      exact ⟨.refl _, .inl rfl⟩
    · rw [h]
      exact ⟨.refl _, .inl rfl⟩
  | recordBatch entries =>
    obtain ⟨hs, -⟩ := j.recordBatch_frame entries
    show j.accounts.Grows (j.recordBatch entries).2.accounts ∧ _
    rw [hs.accounts]
    exact ⟨.refl _, .inl (congrArg SealChain.seals hs.seals)⟩

/-- The log is extended, also by a batch that is refused. -/
theorem mutate_log {j : Journal H P} (hj : j.Logged) (m : Mutation H P) : j.log.leaves <+: (j.mutate m).log.leaves := by
  rcases j.mutate_cases m with h | ⟨new, happ, -⟩ | ⟨entries, e, -, hb⟩
  · rw [h.log]
  · rw [happ.logged hj, happ.entries_eq, List.map_append, hj]
    exact List.prefix_append _ _
  · obtain ⟨balances, sites, h⟩ := recordBatch_error hj hb
    rw [h]
    exact List.prefix_rfl

theorem mutate_later {j : Journal H P} (hj : j.Logged) (m : Mutation H P) : Later j (j.mutate m) where
  log := mutate_log hj m
  accounts := (j.mutate_books m).1
  seals := by
    rcases (j.mutate_books m).2 with h | ⟨s, h, -⟩
    · rw [h]
    · rw [h]
      exact List.prefix_append _ _

/-- A seal commits when it is taken, and the others keep committing. -/
theorem SealsCommit.mutate {j : Journal H P} (h : j.SealsCommit) (hj : j.Logged) (m : Mutation H P) :
    (j.mutate m).SealsCommit := by
  have hlater := mutate_later hj m
  have hstay : ∀ t a : TreeHead H, j.headAt t.size = .ok t ∧ (j.accounts.bindingLog : MerkleLog H).headAt a.size = .ok a →
      (j.mutate m).headAt t.size = .ok t ∧ ((j.mutate m).accounts.bindingLog : MerkleLog H).headAt a.size = .ok a :=
    fun t a ⟨ht, ha⟩ => ⟨headAt_stays hlater.log ht, headAt_stays (bindingLog_grows hlater.accounts) ha⟩
  intro s hs
  rcases (j.mutate_books m).2 with e | ⟨x, e, hx, hx'⟩
  · rw [e] at hs
    exact hstay _ _ (h s hs)
  · rw [e] at hs
    rcases List.mem_append.1 hs with hs | hs
    · exact hstay _ _ (h s hs)
    · rw [List.mem_singleton.1 hs, hx, hx']
      exact hstay _ _ ⟨headAt_head j.log, headAt_head _⟩

/-! ## Runs -/

theorem logged_reachable {ledger : LedgerId} {j : Journal H P} (hj : (mutations ledger).Reachable j) :
    j.Logged ∧ j.SealsCommit := by
  refine LTS.Inductive.reachable (I := fun j => j.Logged ∧ j.SealsCommit) ⟨fun j h => ?_, fun j m j' h st => ?_⟩ hj
  · obtain ⟨policy, rfl⟩ := h
    exact ⟨rfl, fun s hs => by cases hs⟩
  · obtain rfl : j' = j.mutate m := st
    exact ⟨mutate_logged h.1 m, h.2.mutate h.1 m⟩

theorem later_of_run {ledger : LedgerId} {j j' : Journal H P} {ms : List (Mutation H P)} (hj : j.Logged)
    (r : (mutations ledger).Run j ms j') : Later j j' :=
  r.rel (I := Logged) (fun _ m _ h st => st ▸ mutate_logged h m) Later.refl (fun _ _ _ => Later.trans)
    (fun _ m _ h st => st ▸ mutate_later h m) hj

/-- A tree head that a caller has seen: the current one, one of an earlier size, or
one in a seal. -/
def Shown (j : Journal H P) (h : TreeHead H) : Prop :=
  h = j.head ∨ (∃ size, j.headAt size = .ok h) ∨ ∃ s ∈ j.seals.seals, h = s.treeHead

/-- A commitment to the accounts that a caller has seen: the current one, or one in a seal. -/
def ShownAccounts (j : Journal H P) (h : TreeHead H) : Prop :=
  h = j.accounts.commitment ∨ ∃ s ∈ j.seals.seals, h = s.accounts

/-- **Commitments are append-only.** In every later state a tree head shown before
is recomputed at its size, and the proof from its size to any later size verifies
against it; and a commitment to the accounts is recomputed over its first bindings. -/
theorem commitments_stay {ledger : LedgerId} {j j' : Journal H P} {ms : List (Mutation H P)}
    (hj : (mutations ledger).Reachable j) (r : (mutations ledger).Run j ms j') :
    (∀ h, j.Shown h → j'.headAt h.size = .ok h ∧ ∀ n, h.size ≤ n → n ≤ j'.log.len →
      ∃ p new, j'.proveConsistencyBetween h.size n = .ok p ∧ j'.headAt n = .ok new ∧ p.verify h new = true) ∧
    (∀ h, j.ShownAccounts h → (j'.accounts.bindingLog : MerkleLog H).headAt h.size = .ok h) ∧
    ∀ s ∈ j.seals.seals, s ∈ j'.seals.seals := by
  obtain ⟨hlogged, hcommit⟩ := logged_reachable hj
  have hlater := later_of_run hlogged r
  refine ⟨fun h hh => ?_, fun h hh => ?_, fun s hs => hlater.seals.subset hs⟩
  · have hnow : j.headAt h.size = .ok h := by
      rcases hh with rfl | ⟨size, hh⟩ | ⟨s, hs, rfl⟩
      · exact headAt_head j.log
      · rw [size_of_headAt hh]
        exact hh
      · exact (hcommit s hs).1
    have hthen : j'.headAt h.size = .ok h := headAt_stays hlater.log hnow
    exact ⟨hthen, fun n hle hn => consistency_from hthen hle hn⟩
  · have hnow : (j.accounts.bindingLog : MerkleLog H).headAt h.size = .ok h := by
      rcases hh with rfl | ⟨s, hs, rfl⟩
      · exact headAt_head _
      · exact (hcommit s hs).2
    exact headAt_stays (bindingLog_grows hlater.accounts) hnow

/-- A sale in March. -/
def marchBooked : List (Mutation Preimage cents) :=
  [.call (.register cash), .call (.register sales), .call (.definePeriod march), .call (.record saleOfMarch),
    .call (.transitionPeriod march.id .closing)]

/-- March sealed, and a batch of April of which the second entry is refused, and then the first alone. -/
def aprilBatches : List (Mutation Preimage cents) :=
  [.call (.sealPeriod march.id), .recordBatch [saleOfApril.withState .balanced, saleOfApril.withState .balanced,
    { saleOfMarch.withState .balanced with bookingDate := april.end }], .recordBatch [saleOfApril.withState .balanced]]

set_option maxRecDepth 10000 in
/-- Not vacuous: the head of March, across a refused batch and an accepted one. -/
theorem march_head_stays : ∃ p later,
    (((((new books).withPolicy .permissive).mutateAll marchBooked).mutateAll aprilBatches :
      Journal Preimage cents).proveConsistencyBetween
        (((new books).withPolicy .permissive).mutateAll marchBooked : Journal Preimage cents).head.size 2 = .ok p) ∧
      p.verify (((new books).withPolicy .permissive).mutateAll marchBooked : Journal Preimage cents).head later = true := by
  obtain ⟨-, hproof⟩ := (commitments_stay
    ⟨_, marchBooked, ⟨.permissive, rfl⟩, run_mutateAll books _ marchBooked⟩
    (run_mutateAll books _ aprilBatches)).1 _ (.inl rfl)
  obtain ⟨p, later, hp, -, hv⟩ := hproof 2 (by decide) (by decide)
  exact ⟨p, later, hp, hv⟩

end Journal

end DoubleEntry.L3
