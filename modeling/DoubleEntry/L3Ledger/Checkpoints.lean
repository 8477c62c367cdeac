import DoubleEntry.L3Ledger.BalanceReads
import DoubleEntry.L3Ledger.Commitments

/-!
# Checkpoints

A checkpoint is a balance with the tree head it was taken against, which names the
prefix it covers. Verifying recomputes the head at that size and replays the key over
the prefix.

* `verifyCheckpoint_eq_ok`: what is accepted is the fold of the prefix and its head.
* `checkpoints_hold`: a checkpoint that was taken is accepted in every later state; the
  entries it covers are still the first ones (`run_extends`).

**Assumptions.** A journal that is reached by its mutators with sealed entries. What is verified
may be any value: a checkpoint is data a caller keeps.

**Left out.** The tables that checkpoints are stored in are `CheckpointTable`.
-/
namespace DoubleEntry.L3

open DoubleEntry.Core DoubleEntry.L1 DoubleEntry.L2

/-- mirrors src/checkpoint.rs:35-47 -/
structure Checkpoint (H : Type) (P : Scale) where
  key : BalanceKey
  balance : Balance P
  treeHead : TreeHead H

/-- mirrors src/checkpoint.rs:65-67 -/
def Checkpoint.size {H : Type} {P : Scale} (c : Checkpoint H P) : Nat := c.treeHead.size

/-- mirrors src/checkpoint.rs:77-95 -/
inductive CheckpointError
  | balanceMismatch
  | sizeOutOfRange (size : Nat)
  | headMismatch
  | money (e : MoneyError)
  deriving DecidableEq

namespace Journal

variable {H : Type} [Blake3 H] [DecidableEq H] {P : Scale}

omit [DecidableEq H] in
/-- mirrors src/journal.rs:1255-1257 -/
def checkpoint (j : Journal H P) (key : BalanceKey) : Except MoneyError (Checkpoint H P) :=
  (j.balance key none).map fun balance => ⟨key, balance, j.head⟩

/-- mirrors src/journal.rs:1271-1289 -/
def verifyCheckpoint (j : Journal H P) (checkpoint : Checkpoint H P) : Except CheckpointError Unit :=
  let size := checkpoint.size
  if j.entries.length < size then .error (.sizeOutOfRange size)
  else
    match j.headAt size with
    | .error _ => .error (.sizeOutOfRange size)
    | .ok head =>
      if head ≠ checkpoint.treeHead then .error .headMismatch
      else
        match j.balance checkpoint.key (some size) with
        | .error e => .error (.money e)
        | .ok actual => if actual = checkpoint.balance then .ok () else .error .balanceMismatch

/-! ## The prefix stays -/

theorem Kept.extends {j : Journal H P} (h : j.Kept) {o : Operation H P} (hs : ∀ e ∈ j.offered o, FromSeal e) :
    j.entries <+: (j.operate o).entries := by
  rcases operate_short h.posted fun e he => (hs e he).postable.2 with hsame | ⟨new, happ, -⟩
  · rw [hsame.entries]
  · rw [happ.entries_eq]
    exact List.prefix_append _ _

theorem run_extends {ledger : LedgerId} {j j' : Journal H P} {os : List (Operation H P)} (hj : j.Kept)
    (r : (sealedOperations ledger).Run j os j') : j.entries <+: j'.entries := by
  refine r.rel (I := Kept) (R := fun j j' => j.entries <+: j'.entries) (fun j o j' h st => ?_) (fun _ => List.prefix_rfl)
    (fun _ _ _ => List.IsPrefix.trans) (fun j o j' h st => ?_) hj
  · obtain ⟨rfl, hs⟩ := LTS.restrict_step.1 st
    exact h.operate hs
  · obtain ⟨rfl, hs⟩ := LTS.restrict_step.1 st
    exact h.extends hs

/-! ## What is accepted -/

theorem verifyCheckpoint_eq_ok {j : Journal H P} {c : Checkpoint H P} : j.verifyCheckpoint c = .ok () ↔
    c.size ≤ j.entries.length ∧ j.headAt c.size = .ok c.treeHead ∧ j.balance c.key (some c.size) = .ok c.balance := by
  unfold verifyCheckpoint
  simp only
  by_cases hsize : j.entries.length < c.size
  · rw [if_pos hsize]
    exact iff_of_false (by simp) fun h => by omega
  rw [if_neg hsize]
  cases hhead : j.headAt c.size with
  | error e => simp
  | ok head =>
    simp only
    by_cases hne : head ≠ c.treeHead
    · rw [if_pos hne]
      exact iff_of_false (by simp) fun h => hne (by injection h.2.1)
    · rw [if_neg hne]
      rw [not_not] at hne
      cases hbalance : j.balance c.key (some c.size) with
      | error e => simp
      | ok actual =>
        simp only
        by_cases heq : actual = c.balance
        · rw [if_pos heq, hne, heq]
          exact iff_of_true rfl ⟨by omega, rfl, rfl⟩
        · rw [if_neg heq]
          exact iff_of_false (by simp) fun h => heq (by injection h.2.2)

omit [DecidableEq H] in
/-- The head at a size is that of the log of the first entries. -/
theorem headAt_entries {j : Journal H P} (h : j.Logged) {size : Nat} (hle : size ≤ j.entries.length) :
    j.headAt size = .ok (MerkleLog.fromLeaves ((j.entries.take size).map (·.contentHash))).head := by
  have hlen : j.log.leaves.length = j.entries.length := by rw [h, List.length_map]
  rw [headAt, MerkleLog.headAt_eq (by omega), MerkleLog.head_eq, MerkleLog.leaves_fromLeaves, h, List.length_map,
    List.length_take, Nat.min_eq_left hle, List.map_take]

omit [DecidableEq H] in
/-- The head now is the head at the number of entries. -/
theorem Kept.size_head {j : Journal H P} (h : j.Kept) : j.head.size = j.entries.length := by
  rw [head, MerkleLog.head_eq, h.posted.logged, List.length_map]

/-- **Checkpoints.** One taken in a reachable state is accepted after any operations, also
refused ones; and whatever is accepted is the fold of the key over the first entries, with
the head of the log at that size. -/
theorem checkpoints_hold {ledger : LedgerId} {j j' : Journal H P} {os : List (Operation H P)}
    (hj : (sealedOperations ledger).Reachable j) (r : (sealedOperations ledger).Run j os j') :
    (∀ key, ∃ c, j.checkpoint key = .ok c ∧ j'.verifyCheckpoint c = .ok ()) ∧
    ∀ c, j'.verifyCheckpoint c = .ok () → c.size ≤ j'.entries.length ∧
      foldOf (j'.entries.take c.size) c.key = .ok c.balance ∧
      j'.headAt c.size = .ok c.treeHead ∧
      c.treeHead = (MerkleLog.fromLeaves ((j'.entries.take c.size).map (·.contentHash))).head := by
  have hkept := kept_of_reachable hj
  have hkept' := kept_of_reachable (hj.run r)
  have hprefix := run_extends hkept r
  constructor
  · intro key
    refine ⟨⟨key, j.balances.getOrZero key, j.head⟩, rfl, verifyCheckpoint_eq_ok.2 ?_⟩
    have hsize : (⟨key, j.balances.getOrZero key, j.head⟩ : Checkpoint H P).size = j.entries.length := hkept.size_head
    have htake : j'.entries.take j.entries.length = j.entries := List.prefix_iff_eq_take.1 hprefix |>.symm
    have hlog : j.log.leaves <+: j'.log.leaves := by
      rw [hkept.posted.logged, hkept'.posted.logged]
      exact hprefix.map _
    refine ⟨?_, ?_, ?_⟩
    · rw [hsize]
      exact hprefix.length_le
    · exact headAt_stays hlog (headAt_head j.log)
    · rw [hsize, hkept'.balance_eq, htake]
      exact hkept.foldOf_eq key
  · intro c hc
    obtain ⟨hle, hhead, hbalance⟩ := verifyCheckpoint_eq_ok.1 hc
    rw [hkept'.balance_eq] at hbalance
    have hentries := headAt_entries hkept'.posted.logged hle
    rw [hhead] at hentries
    exact ⟨hle, hbalance, hhead, by injection hentries⟩

set_option maxRecDepth 10000 in
/-- Not vacuous: the checkpoint of the cash account in March, after the sale of April. -/
theorem marchCheckpoint_holds : ∃ c, marchSold.checkpoint ⟨cashId, .eur, .settled⟩ = .ok c ∧
    (marchSold.afterAll [.definePeriod april, .record saleOfApril]).verifyCheckpoint c = .ok () ∧
    (marchSold.afterAll [.definePeriod april, .record saleOfApril]).entries.length = 2 := by
  obtain ⟨c, hc, hv⟩ := (checkpoints_hold reachable_marchSold
    (run_sealedCalls books marchSold [.definePeriod april, .record saleOfApril])).1 ⟨cashId, .eur, .settled⟩
  exact ⟨c, hc, hv, by decide⟩

end Journal

end DoubleEntry.L3
