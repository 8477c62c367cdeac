import DoubleEntry.L3Ledger.Audit

/-!
# Heads that auditors archived

Auditors archive tree heads, and link a head to a later one by a consistency proof that
verifies. Proofs, heads and entries may all come from an adversary, and two auditors may
have been shown different ones. `Linked` is any chain of such proofs.

A head that is linked to one the journal has shown is that of its first entries
(`Linked.headOf`). So there is one history (`one_history`): auditors who are linked to
heads of one journal hold the same head at every size, and an entry that one of them was
shown at a position is the entry there, for all of them.

**Assumptions.** `CollisionFree`: leaf and node hashes are injective. `EverShown`: the head an
auditor's chain ends in is one that the journal has shown, in this state or an earlier one.

**Results.**
* `HeadOf.unique`: heads of one size are equal.
* `HeadOf.older`, `HeadOf.leaf`: a consistency proof, and an inclusion proof, under such a head.
* `one_history`: no two auditors are shown different histories.
-/
namespace DoubleEntry.L3

open DoubleEntry.Core DoubleEntry.L1 DoubleEntry.L2

variable {H : Type} [Blake3 H] [DecidableEq H] {P : Scale}

/-- Consistency proofs that verify lead from one head to the other. -/
inductive Linked : TreeHead H → TreeHead H → Prop
  | refl (h : TreeHead H) : Linked h h
  | step {old new last : TreeHead H} (p : ConsistencyProof H) (verifies : p.verify old new = true)
      (rest : Linked new last) : Linked old last

/-- A head of these leaves, or of the first of them. -/
def HeadOf (leaves : List H) (h : TreeHead H) : Prop := h.size ≤ leaves.length ∧ h.root = mth (leaves.take h.size)

omit [DecidableEq H] in
theorem headOf_of_headAt {log : MerkleLog H} {h : TreeHead H} (hh : log.headAt h.size = .ok h) :
    HeadOf log.leaves h :=
  have hl := Journal.headAt_leaves hh
  ⟨hl.1, congrArg TreeHead.root hl.2⟩

omit [DecidableEq H] in
theorem HeadOf.unique {leaves : List H} {a b : TreeHead H} (ha : HeadOf leaves a) (hb : HeadOf leaves b)
    (hsize : a.size = b.size) : a = b := by
  cases a
  cases b
  obtain rfl : _ = _ := hsize
  rw [TreeHead.mk.injEq]
  exact ⟨rfl, ha.2.trans hb.2.symm⟩

/-- One proof: the older head is of the same leaves. -/
theorem HeadOf.older (hc : CollisionFree H) {leaves : List H} {old new : TreeHead H} {p : ConsistencyProof H}
    (h : HeadOf leaves new) (hv : p.verify old new = true) : HeadOf leaves old ∧ old.size ≤ new.size := by
  have hlen : (leaves.take new.size).length = new.size := by
    rw [List.length_take]
    exact min_eq_left h.1
  have hle : old.size ≤ new.size := by
    by_contra hlt
    unfold ConsistencyProof.verify at hv
    split at hv
    · cases hv
    · rename_i hsizes
      rw [if_pos (by omega)] at hv
      cases hv
  refine ⟨⟨hle.trans h.1, ?_⟩, hle⟩
  rcases Nat.eq_zero_or_pos old.size with h0 | h0
  · -- the proof is vacuous, but it names the empty root
    unfold ConsistencyProof.verify at hv
    split at hv
    · cases hv
    · rename_i hsizes
      rw [if_neg (by omega)] at hv
      split at hv
      · rename_i heq
        have hroots : old.root = new.root := by simpa using (Bool.and_eq_true_iff.1 hv).2
        rw [hroots, h.2, show new.size = old.size by omega]
      · rw [if_pos (by omega)] at hv
        have hroot : old.root = emptyRoot := by simpa using (Bool.and_eq_true_iff.1 hv).2
        rw [hroot, h0, List.take_zero]
        rfl
  · have hnew : new = ⟨(leaves.take new.size).length, mth (leaves.take new.size)⟩ := by
      rw [hlen, ← h.2]
    have hv' : p.verify old ⟨(leaves.take new.size).length, mth (leaves.take new.size)⟩ = true := hnew ▸ hv
    rw [consistency_sound hc h0 (hle.trans hlen.ge) hv', List.take_take, min_eq_left hle]

/-- Any chain of proofs: the first head is of the leaves of the last. -/
theorem Linked.headOf (hc : CollisionFree H) {leaves : List H} {h last : TreeHead H} (hl : Linked h last) :
    HeadOf leaves last → HeadOf leaves h ∧ h.size ≤ last.size := by
  induction hl with
  | refl h => exact fun hh => ⟨hh, le_rfl⟩
  | step p hv _ ih =>
    intro hlast
    obtain ⟨hnew, hle⟩ := ih hlast
    obtain ⟨hold, hle'⟩ := hnew.older hc hv
    exact ⟨hold, hle'.trans hle⟩

/-- A leaf proven under a head is the one at its position. -/
theorem HeadOf.leaf (hc : CollisionFree H) {leaves : List H} {h : TreeHead H} {p : InclusionProof H} {payload : H}
    (hh : HeadOf leaves h) (hv : p.verify payload h = true) : p.leafIndex < h.size ∧ leaves[p.leafIndex]? = some payload := by
  have hlen : (leaves.take h.size).length = h.size := by
    rw [List.length_take]
    exact min_eq_left hh.1
  have hhead : h = ⟨(leaves.take h.size).length, mth (leaves.take h.size)⟩ := by
    rw [hlen, ← hh.2]
  obtain ⟨hlt, hleaf, -⟩ := inclusion_sound hc (hhead ▸ hv)
  rw [hlen] at hlt
  rw [List.getElem?_take, if_pos hlt] at hleaf
  exact ⟨hlt, hleaf⟩

namespace Journal

/-- What auditors are linked to: a head the journal has shown, in this state or an earlier one. -/
def EverShown (ledger : LedgerId) (j : Journal H P) (h : TreeHead H) : Prop :=
  ∃ (j₀ : Journal H P) (ms : List (Mutation H P)), (mutations ledger).Reachable j₀ ∧ (mutations ledger).Run j₀ ms j ∧
    j₀.Shown h

/-- **One history.** Heads that are linked to heads a journal has shown, at any times and by
any proofs, are heads of its log. Heads of one size are equal, whoever holds them; and an
entry accepted under any of them is the one the log has at that position. -/
theorem one_history (hc : CollisionFree H) {ledger : LedgerId} {j : Journal H P} {shown shown' h h' : TreeHead H}
    (hs : EverShown ledger j shown) (hs' : EverShown ledger j shown') (hl : Linked h shown) (hl' : Linked h' shown') :
    (j.headAt h.size = .ok h ∧ h.size ≤ shown.size) ∧ (h.size = h'.size → h = h') ∧
    (∀ (p : InclusionProof H) (payload : H), p.verify payload h = true →
      p.leafIndex < h.size ∧ ∃ e, j.entries[p.leafIndex]? = some e ∧ e.contentHash = payload) ∧
    ∀ (p p' : InclusionProof H) (payload payload' : H), p.verify payload h = true → p'.verify payload' h' = true →
      p.leafIndex = p'.leafIndex → payload = payload' := by
  have hof : ∀ {shown h : TreeHead H}, EverShown ledger j shown → Linked h shown →
      HeadOf j.log.leaves h ∧ h.size ≤ shown.size := by
    rintro shown h ⟨j₀, ms, hj₀, hr, hsh⟩ hl
    exact hl.headOf hc (headOf_of_headAt ((commitments_stay hj₀ hr).1 shown hsh).1)
  obtain ⟨hh, hle⟩ := hof hs hl
  obtain ⟨hh', -⟩ := hof hs' hl'
  have hlogged : j.Logged := by
    obtain ⟨j₀, ms, hj₀, hr, -⟩ := hs
    exact (logged_reachable (hj₀.run hr)).1
  refine ⟨⟨?_, hle⟩, hh.unique hh', fun p payload hv => ?_, fun p p' payload payload' hv hv' hindex => ?_⟩
  · have hhead := MerkleLog.headAt_eq hh.1
    rw [← hh.2] at hhead
    exact hhead
  · obtain ⟨hlt, hleaf⟩ := hh.leaf hc hv
    rw [hlogged, List.getElem?_map, Option.map_eq_some_iff] at hleaf
    exact ⟨hlt, hleaf⟩
  · have hleaf := (hh.leaf hc hv).2
    rw [hindex, (hh'.leaf hc hv').2] at hleaf
    exact (Option.some.inj hleaf).symm

/-! ## Two sales -/

/-- A second sale, in April. -/
def framedApril : Entry Framed .draft cents :=
  ((Entry.new saleOfApril.id saleOfApril.idempotencyKey april.start).post (.debit cashId tenEuro .eur)).post
    (.credit salesId tenEuro .eur)

/-- The sale of March, and that of April. -/
def framedSales : List (Mutation Framed cents) :=
  [.call (.register cash), .call (.register sales), .call (.record framedDraft), .call (.record framedApril)]

set_option maxRecDepth 10000 in
theorem framedSales_entries : (((new books).withPolicy .permissive).mutateAll framedSales : Journal Framed cents).entries =
    [framedDraft.withState .balanced, framedApril.withState .balanced] := by decide

/-- Not vacuous: an auditor who archived the head of the first sale, linked to that of both. -/
theorem first_sale_archived : ∃ (j : Journal Framed cents) (h : TreeHead Framed) (p : InclusionProof Framed),
    EverShown books j j.head ∧ Linked h j.head ∧ h.size = 1 ∧ j.head.size = 2 ∧ p.leafIndex = 0 ∧
    p.verify (framedDraft.withState .balanced).contentHash h = true ∧ j.headAt 1 = .ok h := by
  obtain ⟨j, hj⟩ : ∃ j : Journal Framed cents, j = ((new books).withPolicy .permissive).mutateAll framedSales := ⟨_, rfl⟩
  have hrun : (mutations books).Run ((new books).withPolicy .permissive : Journal Framed cents) framedSales j :=
    hj ▸ run_mutateAll books _ framedSales
  have hreach : (mutations books).Reachable j := ⟨_, framedSales, ⟨.permissive, rfl⟩, hrun⟩
  have hentries : j.entries = [framedDraft.withState .balanced, framedApril.withState .balanced] :=
    hj ▸ framedSales_entries
  have hleaves : j.log.leaves = j.entries.map (·.contentHash) := (logged_reachable hreach).1
  have hlen : j.log.leaves.length = 2 := by rw [hleaves, hentries]; rfl
  have hshown : EverShown books j j.head := ⟨j, [], hreach, .nil _, .inl rfl⟩
  -- the head of the first sale, its link to the head of both, and the path of the sale under it
  obtain ⟨p, old, new, -, hold, hnew, hv⟩ := MerkleLog.consistencyProofBetween_complete (show 1 ≤ 2 by decide) hlen.ge
  have hhead : j.head = new := by
    have h := headAt_head j.log
    rw [show j.log.head.size = 2 from hlen, hnew] at h
    exact (Except.ok.inj h).symm
  have hsize : old.size = 1 := size_of_headAt hold
  have hlink : Linked old j.head := hhead ▸ .step p hv (.refl _)
  obtain ⟨q, head, payload, hq, hhead', hpay, hverify⟩ := MerkleLog.inclusionProofAt_complete
    (show 1 ≤ j.log.leaves.length by omega) (show 0 < 1 by decide)
  obtain rfl : head = old := by
    rw [hhead'] at hold
    exact Except.ok.inj hold
  have hindex : q.leafIndex = 0 := by
    rw [MerkleLog.inclusionProofAt, if_neg (by omega), if_neg (by omega)] at hq
    rw [← Except.ok.inj hq]
  obtain rfl : payload = (framedDraft.withState .balanced).contentHash := by
    rw [hleaves, hentries] at hpay
    exact (Option.some.inj hpay).symm
  obtain ⟨⟨hat, -⟩, -, -, -⟩ := one_history binding_framed.collisionFree hshown hshown hlink hlink
  rw [hsize] at hat
  exact ⟨j, head, q, hshown, hlink, hsize, hlen, hindex, hverify, hat⟩

end Journal

end DoubleEntry.L3
