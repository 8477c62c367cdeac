import DoubleEntry.Core.Codec
import DoubleEntry.Core.MerkleConsistency
import DoubleEntry.L1Values.Encoding
import DoubleEntry.L2Merkle.Log

/-!
# Merkle proofs

Complete: the proofs a log builds verify against the heads it had
(`inclusionProofAt_complete`, `consistencyProofBetween_complete`).

Sound, when leaf and node hashes are injective (`CollisionFree`): an inclusion
proof that verifies against the head of a list is the one the log builds
(`inclusion_sound`), and a consistency proof that verifies pins the old root to
the root of the prefix (`consistency_sound`). Both compare the verifier's walk
with the honest one.

Nothing is assumed for completeness. `Binding` and `Collisionless` are the two assumptions on
the hash that later modules take: per tag, and altogether, each with the bytes of a digest
self-delimiting. `Framed` is an instance of them, for runs on concrete inputs.

**Results.**
* `inclusionProofAt_complete`, `MerkleLog.consistencyProofBetween_complete`: what a log proves
  verifies, for any index and any two sizes.
* `InclusionProof.verify_honest`: a proof a list builds verifies against the root of the list only.
* `inclusion_sound`, `consistency_sound`: any proof that verifies.
* `Binding.collisionFree`, `Collisionless.separated`: the assumptions, from one another.
-/
namespace DoubleEntry.L2

open DoubleEntry.Core DoubleEntry.L1

/-- mirrors src/merkle.rs:200-207 -/
structure ConsistencyProof (H : Type) where
  oldSize : Nat
  newSize : Nat
  path : List H
  deriving DecidableEq, Repr

section
variable {H : Type} [Blake3 H]

namespace ConsistencyProof

/-- The verifier's seed and the siblings that are left. A power of two leaves
the old root out. mirrors src/merkle.rs:291-302 -/
def start (p : ConsistencyProof H) (oldRoot : H) : Option (H × List H) :=
  if p.oldSize &&& (p.oldSize - 1) = 0 then some (oldRoot, p.path)
  else
    match p.path with
    | [] => none
    | seed :: path => some (seed, path)

/-- The loop: both roots, rebuilt from one path. mirrors src/merkle.rs:304-330 -/
def rebuilds [DecidableEq H] (p : ConsistencyProof H) (seed : H) (path : List H) (oldRoot newRoot : H) : Bool :=
  let (fname, sname) := stripOnes (p.oldSize - 1) (p.oldSize - 1) (p.newSize - 1)
  match merkle.climbBoth path fname sname (seed, seed) with
  | none => false
  | some (_, sname, fr, sr) => decide (sname = 0) && decide (fr = oldRoot) && decide (sr = newRoot)

/-- mirrors src/merkle.rs:270-332 -/
def verify [DecidableEq H] (p : ConsistencyProof H) (old new : TreeHead H) : Bool :=
  if p.oldSize ≠ old.size ∨ p.newSize ≠ new.size then false
  else if p.newSize < p.oldSize then false
  else if p.oldSize = p.newSize then p.path.isEmpty && decide (old.root = new.root)
  else if p.oldSize = 0 then p.path.isEmpty && decide (old.root = emptyRoot)
  else
    match p.start old.root with
    | none => false
    | some (seed, path) => p.rebuilds seed path old.root new.root

end ConsistencyProof

/-- Every pair of sizes the log has passed through. mirrors src/merkle.rs:691-719 -/
def MerkleLog.consistencyProofBetween (log : MerkleLog H) (oldSize newSize : Nat) :
    Except ProofError (ConsistencyProof H) :=
  if log.leaves.length < newSize then .error (.sizeOutOfRange newSize log.len)
  else if newSize < oldSize then .error (.sizeOutOfRange oldSize newSize)
  else .ok ⟨oldSize, newSize,
    if 0 < oldSize ∧ oldSize < newSize then merkle.subproof oldSize (log.leaves.take newSize) true else []⟩

/-- mirrors src/merkle.rs:672-674 -/
def MerkleLog.consistencyProof (log : MerkleLog H) (oldSize : Nat) : Except ProofError (ConsistencyProof H) :=
  log.consistencyProofBetween oldSize log.len

/-! ## Completeness -/

namespace MerkleLog

variable {log : MerkleLog H}

theorem headAt_eq {size : Nat} (h : size ≤ log.leaves.length) :
    log.headAt size = .ok ⟨size, mth (log.leaves.take size)⟩ := by
  unfold headAt rootAt
  rw [if_neg (by omega)]

/-- **Inclusion proofs are complete**, at every size the log has had. -/
theorem inclusionProofAt_complete [DecidableEq H] {index size : Nat} (hsize : size ≤ log.leaves.length)
    (hidx : index < size) : ∃ p head payload, log.inclusionProofAt index size = .ok p ∧ log.headAt size = .ok head ∧
      log.leaves[index]? = some payload ∧ p.verify payload head = true := by
  obtain ⟨p, hp, hv⟩ := inclusionProofAt_verifies hsize hidx (List.getElem?_eq_getElem (hidx.trans_le hsize))
  exact ⟨p, _, _, hp, headAt_eq hsize, List.getElem?_eq_getElem (hidx.trans_le hsize), hv⟩

end MerkleLog

section
variable [DecidableEq H]

theorem ConsistencyProof.rebuilds_eq_true {p : ConsistencyProof H} {seed oldRoot newRoot : H} {path : List H} :
    p.rebuilds seed path oldRoot newRoot = true ↔ ∃ f,
      merkle.climbBoth path (stripOnes (p.oldSize - 1) (p.oldSize - 1) (p.newSize - 1)).1
        (stripOnes (p.oldSize - 1) (p.oldSize - 1) (p.newSize - 1)).2 (seed, seed) = some (f, 0, oldRoot, newRoot) := by
  unfold ConsistencyProof.rebuilds
  simp only
  cases hc : merkle.climbBoth path (stripOnes (p.oldSize - 1) (p.oldSize - 1) (p.newSize - 1)).1
      (stripOnes (p.oldSize - 1) (p.oldSize - 1) (p.newSize - 1)).2 (seed, seed) with
  | none => simp
  | some x =>
    obtain ⟨f, s, fr, sr⟩ := x
    simp [and_assoc]

/-- What the verifier checks of two trees of different sizes. -/
theorem ConsistencyProof.verify_of_lt {p : ConsistencyProof H} {old new : TreeHead H} (h0 : 0 < old.size)
    (hlt : old.size < new.size) : p.verify old new = true ↔ p.oldSize = old.size ∧ p.newSize = new.size ∧
      ∃ seed path, p.start old.root = some (seed, path) ∧ p.rebuilds seed path old.root new.root = true := by
  unfold ConsistencyProof.verify
  by_cases hs : p.oldSize ≠ old.size ∨ p.newSize ≠ new.size
  · rw [if_pos hs]
    constructor
    · simp
    · rintro ⟨h₁, h₂, -⟩
      exact absurd hs (by simp [h₁, h₂])
  · obtain ⟨h₁, h₂⟩ : p.oldSize = old.size ∧ p.newSize = new.size := by simpa using hs
    rw [if_neg hs, if_neg (by omega), if_neg (by omega), if_neg (by omega)]
    cases hst : p.start old.root with
    | none => simp
    | some x =>
      obtain ⟨seed, path⟩ := x
      simp [h₁, h₂]

omit [DecidableEq H] in
/-- The proof of a log starts the verifier at the seed of the trail. -/
theorem start_subproof {leaves : List H} {m : Nat} {x : H} {ps : List H} (ht : merkle.Trail m leaves x ps)
    (hlt : m < leaves.length) :
    (⟨m, leaves.length, merkle.subproof m leaves true⟩ : ConsistencyProof H).start (mth (leaves.take m)) =
      some (x, ps) := by
  have h0 := ht.pos
  unfold ConsistencyProof.start
  by_cases hp : m.isPowerOfTwo
  · obtain ⟨hs, rfl⟩ := ht.subproof_of_pow hp
    rw [if_pos ((Nat.and_sub_one_eq_zero_iff_isPowerOfTwo (by omega)).2 hp), hs]
    rfl
  · rw [if_neg (mt (Nat.and_sub_one_eq_zero_iff_isPowerOfTwo (by omega)).1 hp), ht.subproof_of_not_pow hp (.inl hlt)]

/-- The proof between two sizes of one list verifies. -/
theorem verify_subproof {leaves : List H} {m : Nat} (h0 : 0 < m) (hlt : m < leaves.length) :
    (⟨m, leaves.length, merkle.subproof m leaves true⟩ : ConsistencyProof H).verify ⟨m, mth (leaves.take m)⟩
      ⟨leaves.length, mth leaves⟩ = true := by
  obtain ⟨x, ps, ht⟩ := (merkle : TreeHash H H).exists_trail leaves h0 hlt.le
  have hw := ht.climbBoth_eq hlt
  exact (ConsistencyProof.verify_of_lt h0 hlt).2
    ⟨rfl, rfl, x, ps, start_subproof ht hlt, ConsistencyProof.rebuilds_eq_true.2 ⟨0, hw⟩⟩

/-- **Consistency proofs are complete**, between any two sizes the log has had. -/
theorem MerkleLog.consistencyProofBetween_complete {log : MerkleLog H} {old new : Nat} (hle : old ≤ new)
    (hlen : new ≤ log.leaves.length) : ∃ p oldHead newHead, log.consistencyProofBetween old new = .ok p ∧
      log.headAt old = .ok oldHead ∧ log.headAt new = .ok newHead ∧ p.verify oldHead newHead = true := by
  refine ⟨⟨old, new, if 0 < old ∧ old < new then merkle.subproof old (log.leaves.take new) true else []⟩, _, _, ?_,
    headAt_eq (hle.trans hlen), headAt_eq hlen, ?_⟩
  · rw [consistencyProofBetween, if_neg (by omega), if_neg (by omega)]
  · by_cases hb : 0 < old ∧ old < new
    · have hnew : (log.leaves.take new).length = new := by rw [List.length_take]; omega
      have hlt : old < (log.leaves.take new).length := by omega
      have hv := verify_subproof hb.1 hlt
      rw [hnew, List.take_take, min_eq_left hle] at hv
      simp only [if_pos hb]
      exact hv
    · unfold ConsistencyProof.verify
      rw [if_neg (by simp), if_neg (by simpa using hle)]
      by_cases heq : old = new
      · subst heq
        simp
      · obtain rfl : old = 0 := by omega
        rw [if_neg (by simpa using heq), if_pos rfl]
        have hempty : (mth [] : H) = emptyRoot := rfl
        simp [hempty]

end

/-! ## Soundness -/

/-- Leaf and node hashes have no collision. -/
structure CollisionFree (H : Type) [Blake3 H] : Prop where
  leaf : ∀ a b : H, (leafHash a : H) = leafHash b → a = b
  node : ∀ a b c d : H, (nodeHash a b : H) = nodeHash c d → a = c ∧ b = d

/-- What is assumed of the hash: no two payloads share a digest under a tag, and the
bytes of a digest can be told from what follows them. -/
structure Binding (H : Type) [Blake3 H] : Prop where
  tagged : ∀ tag a b : Bytes, (tagged tag a : H) = L1.tagged tag b → a = b
  bytes : SelfDelimiting (fun _ => True) (Blake3.asBytes : H → Bytes)

theorem Binding.collisionFree (hb : Binding H) : CollisionFree H where
  leaf a b h := hb.bytes.injective trivial trivial (hb.tagged _ _ _ h)
  node a b c d h := by
    obtain ⟨hleft, hright⟩ := hb.bytes _ _ _ _ trivial trivial (hb.tagged _ _ _ h)
    exact ⟨hleft, hb.bytes.injective trivial trivial hright⟩

/-- The hash has no collisions at all, and the bytes of a digest can be told from what
follows them. -/
structure Collisionless (H : Type) [Blake3 H] : Prop where
  hash : Function.Injective (Blake3.hash : Bytes → H)
  bytes : SelfDelimiting (fun _ => True) (Blake3.asBytes : H → Bytes)

/-- The length in front of a tag tells it from the payload. -/
theorem Collisionless.tagged_inj (hc : Collisionless H) {tag tag' a b : Bytes} (hlen : tag.length < 2 ^ 64)
    (hlen' : tag'.length < 2 ^ 64) (h : (L1.tagged tag a : H) = L1.tagged tag' b) : tag = tag' ∧ a = b := by
  have hpre := hc.hash h
  rw [List.append_assoc, List.append_assoc] at hpre
  obtain ⟨hwidth, hrest⟩ := List.append_inj hpre rfl
  obtain ⟨htag, hab⟩ := List.append_inj hrest (leBytes_injective hlen hlen' hwidth)
  exact ⟨htag, hab⟩

theorem Collisionless.separated (hc : Collisionless H) : (merkle : TreeHash H H).Separated where
  leaf a b h := hc.bytes.injective trivial trivial (hc.tagged_inj (by decide) (by decide) h).2
  node a b c d h := by
    obtain ⟨-, hab⟩ := hc.tagged_inj (by decide) (by decide) h
    obtain ⟨hleft, hright⟩ := hc.bytes _ _ _ _ trivial trivial hab
    exact ⟨hleft, hc.bytes.injective trivial trivial hright⟩
  leaf_node a b c h := absurd (hc.tagged_inj (by decide) (by decide) h).1 (by decide)
  leaf_empty a h := absurd (hc.tagged_inj (by decide) (by decide) h).1 (by decide)
  node_empty a b h := absurd (hc.tagged_inj (by decide) (by decide) h).1 (by decide)

theorem Collisionless.mth_injective (hc : Collisionless H) : Function.Injective (mth : List H → H) :=
  fun l _ h => hc.separated.mth_injective l h

theorem eq_of_head (hc : CollisionFree H) {leaves leaves' : List H}
    (h : (⟨leaves.length, mth leaves⟩ : TreeHead H) = ⟨leaves'.length, mth leaves'⟩) : leaves = leaves' := by
  rw [TreeHead.mk.injEq] at h
  exact TreeHash.mth_inj (T := merkle) hc.leaf hc.node _ h.1 h.2

section
variable [DecidableEq H]

theorem InclusionProof.path_of_verify (hc : CollisionFree H) {leaves : List H} {p : InclusionProof H} {payload : H}
    (h : p.verify payload ⟨leaves.length, mth leaves⟩ = true) : p.treeSize = leaves.length ∧
      leaves[p.leafIndex]? = some payload ∧ p.path = merkle.auditPath p.leafIndex leaves := by
  unfold InclusionProof.verify at h
  split at h
  · cases h
  · rename_i hs
    obtain ⟨hsize, hidx⟩ : p.treeSize = leaves.length ∧ p.leafIndex < p.treeSize := by simpa using hs
    split at h
    · cases h
    · rename_i f s acc hw
      obtain ⟨rfl, rfl⟩ : s = 0 ∧ acc = mth leaves := by simpa using h
      have hlt : p.leafIndex < leaves.length := hsize ▸ hidx
      have hleaf := List.getElem?_eq_getElem hlt
      have honest := (merkle : TreeHash H H).climb_auditPath hleaf
      rw [hsize] at hw
      obtain ⟨hpath, hacc⟩ := TreeHash.walk_inj (T := merkle) hc.node hw honest
      obtain rfl := hc.leaf _ _ hacc
      exact ⟨hsize, hleaf, hpath⟩

/-- The proof a list builds verifies against a head of its size exactly when the root is its own. -/
theorem InclusionProof.verify_honest {leaves : List H} {index : Nat} {payload : H}
    (hleaf : leaves[index]? = some payload) {head : TreeHead H} (hsize : head.size = leaves.length) :
    (⟨index, leaves.length, merkle.auditPath index leaves⟩ : InclusionProof H).verify payload head = true ↔
      head.root = mth leaves := by
  obtain ⟨hlt, -⟩ := List.getElem?_eq_some_iff.1 hleaf
  have hwalk : (merkle : TreeHash H H).walk (merkle.auditPath index leaves) index (leaves.length - 1) (leafHash payload) =
      some (0, 0, mth leaves) := merkle.climb_auditPath hleaf
  unfold InclusionProof.verify
  rw [if_neg (by simp [hsize]; omega), hwalk]
  simp [eq_comm]

/-- **Inclusion proofs are sound.** A proof that verifies against the head of a
list is the one its log builds for the index, and the payload is the leaf there. -/
theorem inclusion_sound (hc : CollisionFree H) {leaves : List H} {p : InclusionProof H} {payload : H}
    (h : p.verify payload ⟨leaves.length, mth leaves⟩ = true) : p.leafIndex < leaves.length ∧
      leaves[p.leafIndex]? = some payload ∧ (MerkleLog.fromLeaves leaves).inclusionProof p.leafIndex = .ok p := by
  obtain ⟨hsize, hleaf, hpath⟩ := InclusionProof.path_of_verify hc h
  obtain ⟨hlt, -⟩ := List.getElem?_eq_some_iff.1 hleaf
  refine ⟨hlt, hleaf, ?_⟩
  rw [MerkleLog.inclusionProof, MerkleLog.inclusionProofAt, MerkleLog.len, MerkleLog.leaves_fromLeaves,
    if_neg (by omega), if_neg (by omega), List.take_length, ← hpath, ← hsize]

/-- **Consistency proofs are sound.** Whatever old root and proof are handed over,
if it verifies against the head of a list the old root is that of its prefix. -/
theorem consistency_sound (hc : CollisionFree H) {leaves : List H} {old : TreeHead H} {p : ConsistencyProof H}
    (h0 : 0 < old.size) (hle : old.size ≤ leaves.length)
    (h : p.verify old ⟨leaves.length, mth leaves⟩ = true) : old.root = mth (leaves.take old.size) := by
  rcases Nat.lt_or_eq_of_le hle with hlt | heq
  · obtain ⟨hold, hnew, seed, path, hst, hr⟩ := (ConsistencyProof.verify_of_lt h0 hlt).1 h
    obtain ⟨f, hw⟩ := ConsistencyProof.rebuilds_eq_true.1 hr
    obtain ⟨x, ps, ht⟩ := (merkle : TreeHash H H).exists_trail leaves h0 hle
    have honest := ht.climbBoth_eq hlt
    have hnew' : p.newSize = leaves.length := hnew
    rw [hold, hnew'] at hw
    -- the later root is the same on both walks, so they are one
    obtain ⟨rfl, rfl⟩ := TreeHash.walk_inj (T := merkle) hc.node (TreeHash.walk_of_climbBoth hw)
      (TreeHash.walk_of_climbBoth honest)
    rw [honest] at hw
    exact (congrArg (fun r => r.2.2.1) (Option.some.inj hw)).symm
  · unfold ConsistencyProof.verify at h
    split at h
    · cases h
    · rename_i hs
      obtain ⟨hold, hnew⟩ : p.oldSize = old.size ∧ p.newSize = leaves.length := by simpa using hs
      rw [if_neg (by omega), if_pos (by omega)] at h
      rw [heq, List.take_length]
      simp at h
      exact h.2

end

end

/-! ## A hash without collisions -/

/-- Digests that are their preimage, framed so that what follows one can be told. -/
structure Framed where
  bytes : Bytes
  deriving DecidableEq

instance : Blake3 Framed := ⟨fun h => List.replicate h.bytes.length 1 ++ 0 :: h.bytes, Framed.mk⟩

theorem replicate_frame_inj {a b : Bytes} : ∀ {m n : Nat},
    List.replicate m (1 : UInt8) ++ 0 :: a = List.replicate n (1 : UInt8) ++ 0 :: b → m = n ∧ a = b
  | 0, 0, h => by simpa using h
  | 0, n + 1, h => by simp [List.replicate_succ] at h
  | m + 1, 0, h => by simp [List.replicate_succ] at h
  | m + 1, n + 1, h => by
    rw [List.replicate_succ, List.replicate_succ, List.cons_append, List.cons_append] at h
    obtain ⟨rfl, rfl⟩ := replicate_frame_inj (List.cons.inj h).2
    exact ⟨rfl, rfl⟩

theorem frame_append_inj {a b : Framed} {x y : Bytes} (h : Blake3.asBytes a ++ x = Blake3.asBytes b ++ y) :
    a = b ∧ x = y := by
  simp only [Blake3.asBytes, List.append_assoc, List.cons_append] at h
  obtain ⟨hlen, h⟩ := replicate_frame_inj h
  obtain ⟨hb, hx⟩ := List.append_inj h hlen
  exact ⟨by cases a; cases b; exact congrArg _ hb, hx⟩

theorem binding_framed : Binding Framed where
  tagged _ _ _ h := List.append_cancel_left (congrArg Framed.bytes h)
  bytes _ _ _ _ _ _ h := frame_append_inj h

theorem collisionless_framed : Collisionless Framed where
  hash _ _ h := congrArg Framed.bytes h
  bytes _ _ _ _ _ _ h := frame_append_inj h

def threeLeaves : List Framed := [⟨[1]⟩, ⟨[2]⟩, ⟨[3]⟩]

/-- Not vacuous: the second leaf, as of the first two. -/
theorem second_of_two_complete : ∃ p head payload,
    (MerkleLog.fromLeaves threeLeaves).inclusionProofAt 1 2 = .ok p ∧
      (MerkleLog.fromLeaves threeLeaves).headAt 2 = .ok head ∧
      (MerkleLog.fromLeaves threeLeaves).leaves[1]? = some payload ∧ p.verify payload head = true :=
  MerkleLog.inclusionProofAt_complete (by decide) (by decide)

/-- Not vacuous: from one leaf to three. -/
theorem one_to_three_complete : ∃ p oldHead newHead,
    (MerkleLog.fromLeaves threeLeaves).consistencyProofBetween 1 3 = .ok p ∧
      (MerkleLog.fromLeaves threeLeaves).headAt 1 = .ok oldHead ∧
      (MerkleLog.fromLeaves threeLeaves).headAt 3 = .ok newHead ∧ p.verify oldHead newHead = true :=
  MerkleLog.consistencyProofBetween_complete (by decide) (by decide)

/-- The proof for the last of them. -/
def lastOfThree : InclusionProof Framed := ⟨2, 3, [nodeHash (leafHash ⟨[1]⟩) (leafHash ⟨[2]⟩)]⟩

/-- From the first two to all three. -/
def twoToThree : ConsistencyProof Framed := ⟨2, 3, [leafHash ⟨[3]⟩]⟩

set_option maxRecDepth 10000 in
/-- Not vacuous: it verifies. -/
theorem lastOfThree_sound : lastOfThree.leafIndex < threeLeaves.length ∧
    threeLeaves[lastOfThree.leafIndex]? = some ⟨[3]⟩ ∧
    (MerkleLog.fromLeaves threeLeaves).inclusionProof lastOfThree.leafIndex = .ok lastOfThree :=
  inclusion_sound binding_framed.collisionFree (by decide)

set_option maxRecDepth 10000 in
/-- Not vacuous: it verifies, and pins the root of the first two. -/
theorem twoToThree_sound : (⟨2, nodeHash (leafHash ⟨[1]⟩) (leafHash ⟨[2]⟩)⟩ : TreeHead Framed).root =
    mth (threeLeaves.take (⟨2, nodeHash (leafHash ⟨[1]⟩) (leafHash ⟨[2]⟩)⟩ : TreeHead Framed).size) :=
  have hv : twoToThree.verify ⟨2, nodeHash (leafHash ⟨[1]⟩) (leafHash ⟨[2]⟩)⟩ ⟨threeLeaves.length, mth threeLeaves⟩ =
    true := by decide
  consistency_sound binding_framed.collisionFree (by decide) (by decide) hv

end DoubleEntry.L2
