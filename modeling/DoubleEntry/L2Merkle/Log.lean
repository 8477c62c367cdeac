import DoubleEntry.Core.MerkleTree
import DoubleEntry.L1Values.Canonical

/-!
# The append-only Merkle log

`src/merkle.rs`: the leaves are content hashes, the tree is the one of
`Core.MerkleTree` with the tagged hashes of the crate. Sizes and indices are
natural numbers; the source's `u64` and `usize` are wide enough for any log that
fits in memory.

`MerkleLog` carries the proof that its accumulator covers its leaves, so `root`
is the tree hash of the leaves for every log there is (`MerkleLog.root_eq`).

**Results.**
* `covers_foldl`: pushing leaves keeps the accumulator that of its leaves (`Covers`).
* `inclusionProofAt_verifies`: a proof against an earlier head verifies.
* `accumulator_refines`: root, heights and nodes of an accumulator are those of the tree; it
  can be exported, restored and continued; a truncated log is the log of the first leaves.
  Up to `2 ^ 64` leaves, which is what the size of an accumulator can count.
-/
namespace DoubleEntry.L2

open DoubleEntry.Core DoubleEntry.L1

/-! ## Nodes
mirrors src/merkle.rs:31-54 -/

def tagEmpty : Bytes := utf8 "doubleentry/merkle/empty/v1"
def tagLeaf : Bytes := utf8 "doubleentry/merkle/leaf/v1"
def tagNode : Bytes := utf8 "doubleentry/merkle/node/v1"

section
variable {H : Type} [Blake3 H]

def emptyRoot : H := tagged tagEmpty []

def leafHash (payload : H) : H := tagged tagLeaf (Blake3.asBytes payload)

def nodeHash (left right : H) : H := tagged tagNode (Blake3.asBytes left ++ Blake3.asBytes right)

/-- The crate's tree over the payloads. -/
def merkle : TreeHash H H := ⟨emptyRoot, leafHash, nodeHash⟩

/-- mirrors src/merkle.rs:67-76 -/
def mth (leaves : List H) : H := merkle.mth leaves

end

/-- A commitment to the log at a given size. mirrors src/merkle.rs:85-90 -/
structure TreeHead (H : Type) where
  size : Nat
  root : H
  deriving DecidableEq, Repr

/-- mirrors src/merkle.rs:95-112 -/
inductive ProofError
  | indexOutOfRange (index size : Nat)
  | sizeOutOfRange (requested size : Nat)
  deriving DecidableEq, Repr

/-! ## Inclusion proofs -/

/-- mirrors src/merkle.rs:135-142 -/
structure InclusionProof (H : Type) where
  leafIndex : Nat
  treeSize : Nat
  path : List H
  deriving DecidableEq, Repr

section
variable {H : Type} [Blake3 H]

/-- Walks from the leaf to the root of the head. mirrors src/merkle.rs:167-194 -/
def InclusionProof.verify [DecidableEq H] (p : InclusionProof H) (leafPayload : H) (head : TreeHead H) : Bool :=
  if p.treeSize ≠ head.size ∨ p.treeSize ≤ p.leafIndex then false
  else
    match merkle.walk p.path p.leafIndex (p.treeSize - 1) (leafHash leafPayload) with
    | none => false
    | some (_, sname, acc) => decide (sname = 0) && decide (acc = head.root)

/-- `verify` from the outcome of the walk. -/
theorem InclusionProof.verify_eq_true [DecidableEq H] {p : InclusionProof H} {leafPayload : H} {head : TreeHead H}
    {f : Nat} (hsize : p.treeSize = head.size) (hlt : p.leafIndex < p.treeSize)
    (hw : merkle.walk p.path p.leafIndex (p.treeSize - 1) (leafHash leafPayload) = some (f, 0, head.root)) :
    p.verify leafPayload head = true := by
  rw [InclusionProof.verify, if_neg (by omega), hw]
  simp

/-! ## The accumulator -/

/-- The subtrees largest first, as the source's `Vec` holds them.
mirrors src/merkle.rs:347-350 -/
structure MerkleAccumulator (H : Type) where
  subtrees : List (Nat × H)
  size : Nat

/-- mirrors src/merkle.rs:121-129 -/
structure MalformedAccumulator where
  size : Nat
  expected : List Nat
  found : List Nat
  deriving DecidableEq, Repr

namespace MerkleAccumulator

/-- One height for each set bit, largest first. mirrors src/merkle.rs:361-367 -/
def coverOf (size : Nat) : List Nat := (List.range 64).reverse.filter fun bit => size.testBit bit

/-- mirrors src/merkle.rs:375-390 -/
def tryFromParts (subtrees : List (Nat × H)) (size : Nat) : Except MalformedAccumulator (MerkleAccumulator H) :=
  if subtrees.map Prod.fst = coverOf size then .ok ⟨subtrees, size⟩
  else .error ⟨size, coverOf size, subtrees.map Prod.fst⟩

/-- mirrors src/merkle.rs:355-357 -/
def new : MerkleAccumulator H := ⟨[], 0⟩

/-- Merges equal heights from the end of the `Vec`. mirrors src/merkle.rs:411-428 -/
def push (acc : MerkleAccumulator H) (payload : H) : MerkleAccumulator H :=
  ⟨(merkle.carry 0 (leafHash payload) acc.subtrees.reverse).reverse, acc.size + 1⟩

/-- mirrors src/merkle.rs:435-445 -/
def root (acc : MerkleAccumulator H) : H := merkle.peaksRoot acc.subtrees.reverse

/-- mirrors src/merkle.rs:459-464 -/
def head (acc : MerkleAccumulator H) : TreeHead H := ⟨acc.size, acc.root⟩

/-- The accumulator summarises these leaves. -/
structure Covers (acc : MerkleAccumulator H) (leaves : List H) : Prop where
  peaks : merkle.Peaks acc.subtrees.reverse leaves
  size : acc.size = leaves.length

theorem covers_new : (new : MerkleAccumulator H).Covers [] := ⟨.nil, rfl⟩

theorem Covers.push {acc : MerkleAccumulator H} {leaves : List H} (h : acc.Covers leaves) (payload : H) :
    (acc.push payload).Covers (leaves ++ [payload]) := by
  refine ⟨?_, ?_⟩
  · have := h.peaks.push payload
    simpa [MerkleAccumulator.push, merkle] using this
  · rw [List.length_append, MerkleAccumulator.push, h.size, List.length_singleton]

theorem Covers.root_eq {acc : MerkleAccumulator H} {leaves : List H} (h : acc.Covers leaves) :
    acc.root = mth leaves := h.peaks.root_eq

theorem Covers.head_eq {acc : MerkleAccumulator H} {leaves : List H} (h : acc.Covers leaves) :
    acc.head = ⟨leaves.length, mth leaves⟩ := by
  rw [head, h.size, h.root_eq]

theorem coverOf_eq {size : Nat} (h : size < 2 ^ 64) : coverOf size = size.bitIndices.reverse := by
  have hbits : ∀ i, size.testBit i → i < 64 := fun i hi => by
    by_contra hge
    have := Nat.pow_le_pow_right (by omega : 0 < 2) (not_lt.1 hge)
    have := Nat.ge_two_pow_of_testBit hi
    omega
  have hfilter : (List.range 64).filter (fun bit => size.testBit bit) = size.bitIndices := by
    have hp : ((List.range 64).filter fun bit => size.testBit bit).Perm size.bitIndices := by
      refine (List.perm_ext_iff_of_nodup (List.nodup_range.filter _) Nat.bitIndices_nodup).2 fun i => ?_
      rw [List.mem_filter, List.mem_range, Nat.mem_bitIndices]
      exact ⟨fun hi => hi.2, fun hi => ⟨hbits i hi, hi⟩⟩
    exact hp.eq_of_pairwise (fun a b _ _ hab hba => absurd hab (lt_asymm hba)) (List.pairwise_lt_range.filter _)
      Nat.bitIndices_sorted.pairwise
  rw [coverOf, List.filter_reverse, hfilter]

theorem Covers.heights_eq {acc : MerkleAccumulator H} {leaves : List H} (h : acc.Covers leaves)
    (hlen : leaves.length < 2 ^ 64) : acc.subtrees.map Prod.fst = coverOf acc.size := by
  have hp := congrArg List.reverse h.peaks.heights_eq
  rw [List.map_reverse, List.reverse_reverse] at hp
  rw [hp, h.size, coverOf_eq hlen]

theorem Covers.tryFromParts_eq {acc : MerkleAccumulator H} {leaves : List H} (h : acc.Covers leaves)
    (hlen : leaves.length < 2 ^ 64) : tryFromParts acc.subtrees acc.size = .ok acc := by
  rw [tryFromParts, if_pos (h.heights_eq hlen)]

theorem Covers.unique {acc acc' : MerkleAccumulator H} {leaves : List H} (h : acc.Covers leaves)
    (h' : acc'.Covers leaves) : acc = acc' := by
  obtain ⟨subtrees, size⟩ := acc
  obtain ⟨subtrees', size'⟩ := acc'
  obtain rfl : subtrees = subtrees' := List.reverse_injective (h.peaks.unique h'.peaks)
  obtain rfl : size = size' := h.size.trans h'.size.symm
  rfl

theorem Covers.foldl_push {acc : MerkleAccumulator H} {leaves : List H} (h : acc.Covers leaves) (more : List H) :
    (more.foldl MerkleAccumulator.push acc).Covers (leaves ++ more) := by
  induction more generalizing acc leaves with
  | nil => simpa using h
  | cons x more ih => simpa using ih (h.push x)

theorem covers_foldl (leaves : List H) : (leaves.foldl MerkleAccumulator.push .new).Covers leaves := by
  simpa using covers_new.foldl_push leaves

end MerkleAccumulator

/-! ## The log -/

/-- Leaves and the accumulator over them. mirrors src/merkle.rs:480-486 -/
structure MerkleLog (H : Type) [Blake3 H] where
  leaves : List H
  accumulator : MerkleAccumulator H
  covers : accumulator.Covers leaves

namespace MerkleLog

/-- mirrors src/merkle.rs:491-496 -/
def new : MerkleLog H := ⟨[], .new, MerkleAccumulator.covers_new⟩

/-- mirrors src/merkle.rs:529-532 -/
def append (log : MerkleLog H) (payload : H) : MerkleLog H :=
  ⟨log.leaves ++ [payload], log.accumulator.push payload, log.covers.push payload⟩

/-- mirrors src/merkle.rs:500-506 -/
def fromLeaves (leaves : List H) : MerkleLog H := leaves.foldl append new

@[simp] theorem leaves_append (log : MerkleLog H) (payload : H) :
    (log.append payload).leaves = log.leaves ++ [payload] := rfl

theorem leaves_foldl_append (l : List H) (log : MerkleLog H) :
    (l.foldl append log).leaves = log.leaves ++ l := by
  induction l generalizing log with
  | nil => simp
  | cons x l ih => rw [List.foldl_cons, ih, leaves_append, List.append_assoc, List.singleton_append]

@[simp] theorem leaves_fromLeaves (l : List H) : (fromLeaves l).leaves = l := by
  rw [fromLeaves, leaves_foldl_append]
  rfl

/-- mirrors src/merkle.rs:510-512 -/
def len (log : MerkleLog H) : Nat := log.leaves.length

/-- Drops the leaves from `len` on and rebuilds. mirrors src/merkle.rs:547-557 -/
def truncate (log : MerkleLog H) (len : Nat) : MerkleLog H :=
  if log.leaves.length ≤ len then log else fromLeaves (log.leaves.take len)

theorem leaves_truncate (log : MerkleLog H) (len : Nat) : (log.truncate len).leaves = log.leaves.take len := by
  rw [truncate]
  split
  · rw [List.take_of_length_le (by assumption)]
  · exact leaves_fromLeaves _

theorem ext_leaves {log log' : MerkleLog H} (h : log.leaves = log'.leaves) : log = log' := by
  obtain ⟨leaves, acc, covers⟩ := log
  obtain ⟨leaves', acc', covers'⟩ := log'
  obtain rfl : leaves = leaves' := h
  obtain rfl := covers.unique covers'
  rfl

/-- mirrors src/merkle.rs:564-566 -/
def root (log : MerkleLog H) : H := log.accumulator.root

/-- mirrors src/merkle.rs:580-585 -/
def head (log : MerkleLog H) : TreeHead H := ⟨log.len, log.root⟩

/-- The incremental root never drifts from the leaves. -/
theorem root_eq (log : MerkleLog H) : log.root = mth log.leaves := log.covers.root_eq

/-- mirrors src/merkle.rs:574-576 -/
def verifyIncrementalState [DecidableEq H] (log : MerkleLog H) : Bool := log.root = mth log.leaves

@[simp] theorem verifyIncrementalState_eq [DecidableEq H] (log : MerkleLog H) : log.verifyIncrementalState = true := by
  simp [verifyIncrementalState, log.root_eq]

theorem head_eq (log : MerkleLog H) : log.head = ⟨log.leaves.length, mth log.leaves⟩ := by
  rw [head, root_eq, len]

/-- mirrors src/merkle.rs:590-599 -/
def rootAt (log : MerkleLog H) (size : Nat) : Except ProofError H :=
  if log.leaves.length < size then .error (.sizeOutOfRange size log.len)
  else .ok (mth (log.leaves.take size))

/-- mirrors src/merkle.rs:610-615 -/
def headAt (log : MerkleLog H) (size : Nat) : Except ProofError (TreeHead H) :=
  match log.rootAt size with
  | .error e => .error e
  | .ok root => .ok ⟨size, root⟩

/-- The audit path of `index` in the first `size` leaves. mirrors src/merkle.rs:640-659 -/
def inclusionProofAt (log : MerkleLog H) (index size : Nat) : Except ProofError (InclusionProof H) :=
  if log.leaves.length < size then .error (.sizeOutOfRange size log.len)
  else if size ≤ index then .error (.indexOutOfRange index size)
  else .ok ⟨index, size, merkle.auditPath index (log.leaves.take size)⟩

/-- mirrors src/merkle.rs:622-624 -/
def inclusionProof (log : MerkleLog H) (index : Nat) : Except ProofError (InclusionProof H) :=
  log.inclusionProofAt index log.len

/-- **Inclusion proofs are complete**: the proof for a leaf at an earlier size is
built, and verifies against the head the log had then. -/
theorem inclusionProofAt_verifies [DecidableEq H] {log : MerkleLog H} {index size : Nat} {payload : H}
    (hsize : size ≤ log.leaves.length) (hidx : index < size) (hleaf : log.leaves[index]? = some payload) :
    ∃ p, log.inclusionProofAt index size = .ok p ∧
      p.verify payload ⟨size, mth (log.leaves.take size)⟩ = true := by
  have hlen : (log.leaves.take size).length = size := by rw [List.length_take]; omega
  have htake : (log.leaves.take size)[index]? = some payload := by
    rw [List.getElem?_take, if_pos hidx, hleaf]
  have hw := merkle.climb_auditPath htake
  rw [hlen] at hw
  refine ⟨⟨index, size, merkle.auditPath index (log.leaves.take size)⟩, ?_, ?_⟩
  · rw [inclusionProofAt, if_neg (by omega), if_neg (by omega)]
  · exact InclusionProof.verify_eq_true rfl hidx hw

end MerkleLog

/-- **The accumulator refines the tree hash.** After any pushes its root is the
tree hash, its heights are the cover of its size and its nodes the tree hashes of
the segments; exported, restored and continued it is as if it had never been; and
a truncated log is the log of the prefix. -/
theorem accumulator_refines {leaves : List H} (hlen : leaves.length < 2 ^ 64) :
    (leaves.foldl MerkleAccumulator.push .new).root = mth leaves ∧
    (leaves.foldl MerkleAccumulator.push .new).subtrees.map Prod.fst = MerkleAccumulator.coverOf leaves.length ∧
    (∃ segs : List (List H), segs.flatten = leaves ∧
      List.Forall₂ (fun p seg => seg.length = 2 ^ p.1 ∧ p.2 = mth seg)
        (leaves.foldl MerkleAccumulator.push .new).subtrees segs) ∧
    (∀ more : List H, (MerkleAccumulator.tryFromParts (leaves.foldl MerkleAccumulator.push .new).subtrees
        (leaves.foldl MerkleAccumulator.push .new).size).map (more.foldl MerkleAccumulator.push) =
      .ok ((leaves ++ more).foldl MerkleAccumulator.push .new)) ∧
    ∀ (log : MerkleLog H) (n : Nat), log.leaves = leaves → log.truncate n = .fromLeaves (leaves.take n) := by
  have hc := MerkleAccumulator.covers_foldl leaves
  refine ⟨hc.root_eq, by rw [hc.heights_eq hlen, hc.size], ?_, fun more => ?_, fun log n h => ?_⟩
  · obtain ⟨segs, hflat, hseg⟩ := hc.peaks.segments
    rw [List.reverse_reverse] at hseg
    exact ⟨segs, hflat, hseg⟩
  · rw [hc.tryFromParts_eq hlen, List.foldl_append]
    rfl
  · apply MerkleLog.ext_leaves
    rw [MerkleLog.leaves_truncate, MerkleLog.leaves_fromLeaves, h]

end

/-- Three leaves, not a power of two. -/
def threePayloads : List Preimage := [⟨[1]⟩, ⟨[2]⟩, ⟨[3]⟩]

/-- Not vacuous: three pushes leave a pair and a single leaf, and their root is the tree hash. -/
theorem threePayloads_refine : (threePayloads.foldl MerkleAccumulator.push .new).root = mth threePayloads ∧
    (threePayloads.foldl MerkleAccumulator.push .new).subtrees.map Prod.fst = [1, 0] :=
  have hlen : threePayloads.length < 2 ^ 64 := by decide
  have h := accumulator_refines hlen
  ⟨h.1, h.2.1.trans (by decide)⟩

end DoubleEntry.L2
