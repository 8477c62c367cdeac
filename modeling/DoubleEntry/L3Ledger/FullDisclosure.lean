import DoubleEntry.L3Ledger.Audit

/-!
# Disclosing every balance

A proof shows one row and says nothing about the others: that a key has no row cannot be
proven by a path. The head of a seal says how many rows there are. So proofs of as many
distinct keys are proofs of all of them, and a key that is not among them has no row
(`full_disclosure`), whoever made the proofs. `prove_all` makes such a list.

**Assumptions.** `Binding`, of the hash. The books are any that ten calls (`Call`) reach after
the period was sealed.

**Results.**
* `disclosed_rows`: distinct proofs under one head are distinct rows, and as many are all.
* `closing_stays`: the period still closes with what its seal commits to.
* `full_disclosure`: completeness and soundness of a disclosure.
-/
namespace DoubleEntry.L3

open DoubleEntry.Core DoubleEntry.L1 DoubleEntry.L2

variable {H : Type} [Blake3 H] {P Q : Scale}

/-- mirrors src/seal.rs:429-438 -/
def TrialBalanceCommitment.proveAll (c : TrialBalanceCommitment H P) : Except ProofError (List (BalanceProof H P)) :=
  c.rows.zipIdx.mapM fun row => (c.log.inclusionProof row.2).map fun proof => ⟨row.1.1, row.1.2, proof⟩

variable [DecidableEq H]

theorem proveAll_ok (tb : TrialBalance P) : ∃ ps : List (BalanceProof H P),
    (TrialBalanceCommitment.of tb).proveAll = .ok ps ∧ ps.map (fun p => (p.key, p.balance)) = tb.entries.entries ∧
      ∀ p ∈ ps, p.verify (trialBalanceHead tb) = true := by
  have hleaves : (TrialBalanceCommitment.of tb : TrialBalanceCommitment H P).log.leaves = balanceLeaves tb :=
    MerkleLog.leaves_fromLeaves _
  have hone : ∀ row ∈ tb.entries.entries.zipIdx, ∃ proof,
      (TrialBalanceCommitment.of tb : TrialBalanceCommitment H P).log.inclusionProof row.2 = .ok proof ∧
      (⟨row.1.1, row.1.2, proof⟩ : BalanceProof H P).verify (trialBalanceHead tb) = true := fun row hrow => by
    have hrow : tb.entries.entries[row.2]? = some row.1 := List.mem_zipIdx_iff_getElem?.1 hrow
    have hleaf : (TrialBalanceCommitment.of tb : TrialBalanceCommitment H P).log.leaves[row.2]? =
        some (balanceLeaf row.1.1 row.1.2) := by
      rw [hleaves, balanceLeaves, List.getElem?_map, hrow]
      rfl
    obtain ⟨hlt, -⟩ := List.getElem?_eq_some_iff.1 hleaf
    obtain ⟨p, hp, hv⟩ := MerkleLog.inclusionProofAt_verifies le_rfl hlt hleaf
    refine ⟨p, hp, ?_⟩
    rw [List.take_of_length_le le_rfl, hleaves] at hv
    rw [BalanceProof.verify, trialBalanceHead_eq]
    exact hv
  -- along the rows, with their positions
  suffices h : ∀ rows : List ((BalanceKey × Balance P) × Nat), (∀ row ∈ rows, row ∈ tb.entries.entries.zipIdx) →
      ∃ ps : List (BalanceProof H P), (rows.mapM fun row =>
        ((TrialBalanceCommitment.of tb : TrialBalanceCommitment H P).log.inclusionProof row.2).map fun proof =>
          (⟨row.1.1, row.1.2, proof⟩ : BalanceProof H P)) = .ok ps ∧
        ps.map (fun p => (p.key, p.balance)) = rows.map Prod.fst ∧ ∀ p ∈ ps, p.verify (trialBalanceHead tb) = true by
    obtain ⟨ps, hps, hrows, hv⟩ := h _ fun _ hrow => hrow
    exact ⟨ps, hps, hrows.trans (List.zipIdx_map_fst ..), hv⟩
  intro rows
  induction rows with
  | nil => exact fun _ => ⟨[], rfl, rfl, fun p hp => (List.not_mem_nil hp).elim⟩
  | cons row rows ih =>
    intro hmem
    obtain ⟨proof, hproof, hv⟩ := hone row (hmem row List.mem_cons_self)
    obtain ⟨ps, hps, hrows, hvs⟩ := ih fun r hr => hmem r (List.mem_cons_of_mem _ hr)
    refine ⟨⟨row.1.1, row.1.2, proof⟩ :: ps, ?_, ?_, fun p hp => ?_⟩
    · rw [List.mapM_cons, hproof, hps]
      rfl
    · rw [List.map_cons, hrows]
      rfl
    · rcases List.mem_cons.1 hp with rfl | hp
      · exact hv
      · exact hvs p hp

/-- Proofs of distinct keys under the head of a trial balance: each shows a row; they are no
more than it has, and as many leave no row out. -/
theorem disclosed_rows (hb : Binding H) {tb : TrialBalance P} {ps : List (BalanceProof H Q)}
    (hdistinct : (ps.map (·.key)).Nodup) (hv : ∀ p ∈ ps, p.verify (trialBalanceHead tb) = true) :
    (∀ p ∈ ps, ∃ b, tb.get p.key = some b ∧ ∀ d, b.side d = p.balance.side d) ∧ ps.length ≤ tb.len ∧
    (ps.length = tb.len → ∀ key, (tb.get key).isSome ↔ ∃ p ∈ ps, p.key = key) := by
  have hrow : ∀ p ∈ ps, ∃ b, tb.get p.key = some b ∧ ∀ d, b.side d = p.balance.side d := fun p hp => by
    obtain ⟨-, b, hget, hdebits, hcredits⟩ := BalanceProof.row_of_verify hb (hv p hp)
    refine ⟨b, hget, fun d => ?_⟩
    cases d
    · exact hdebits
    · exact hcredits
  have hmem : ∀ k ∈ ps.map (·.key), (tb.entries.get? k).isSome := fun k hk => by
    obtain ⟨p, hp, rfl⟩ := List.mem_map.1 hk
    obtain ⟨b, hget, -⟩ := hrow p hp
    exact Option.isSome_iff_exists.2 ⟨b, hget⟩
  obtain ⟨hle, hall⟩ := OrdMap.keys_complete hdistinct hmem
  rw [List.length_map] at hle hall
  refine ⟨hrow, hle, fun hlen key => ?_⟩
  rw [← List.mem_map]
  exact (hall hlen key).symm

namespace Journal

/-- The seal of a period commits to the balance that it still closes with. -/
theorem closing_stays {ledger : LedgerId} {j j' : Journal H P} {period : PeriodId} {s : Seal H} {ks : List (Call H P)}
    (hs : (j.sealPeriod period).1 = .ok s) (hr : (calls ledger).Run (j.sealPeriod period).2 ks j') :
    ∃ q closing, j'.calendar.get period = some q ∧ j'.trialBalanceThroughDate q.end = .ok closing ∧
      s.trialBalance = trialBalanceHead closing ∧ s.isSelfConsistent = true ∧
      j.trialBalanceThroughDate q.end = .ok closing := by
  obtain ⟨q, closing, -, hc, hbuild, hself, hentries, -, -, hcal, hmark⟩ := sealPeriod_eq_ok hs
  have hext := extends_of_run hr
  obtain ⟨q', hq', -, hend⟩ := hext.ranges period { q with state := .sealed } (by
    rw [hcal, PeriodCalendar.get_store, if_pos rfl])
  obtain ⟨later, hlater, hla⟩ := hext.entries
  refine ⟨q', closing, hq', ?_, by rw [hbuild]; rfl, hself, hend ▸ hc⟩
  rw [hend, trialBalanceThroughDate, hlater, hentries]
  exact (closingBalance_append fun e he => hla e he _ hmark).trans hc

/-- **A period can be disclosed whole.** In every later state `prove_all` over the closing
balance of a sealed period returns as many proofs as its seal has rows, of distinct keys, and
all verify against the seal. Conversely, proofs of distinct keys that verify against the seal
are of rows of that balance, whatever made them; and where they are as many as the seal says,
a key has a row only if it is one of them. -/
theorem full_disclosure (hb : Binding H) {ledger : LedgerId} {j j' : Journal H P} {period : PeriodId} {s : Seal H}
    {ks : List (Call H P)} (hs : (j.sealPeriod period).1 = .ok s)
    (hr : (calls ledger).Run (j.sealPeriod period).2 ks j') :
    ∃ q closing, j'.calendar.get period = some q ∧ j'.trialBalanceThroughDate q.end = .ok closing ∧
      (∃ ps : List (BalanceProof H P), (TrialBalanceCommitment.of closing).proveAll = .ok ps ∧
        ps.length = s.trialBalance.size ∧ (ps.map (·.key)).Nodup ∧ ∀ p ∈ ps, p.verifyAgainst s = true) ∧
      ∀ (Q : Scale) (ps : List (BalanceProof H Q)), (ps.map (·.key)).Nodup → (∀ p ∈ ps, p.verifyAgainst s = true) →
        (∀ p ∈ ps, ∃ b, closing.get p.key = some b ∧ ∀ d, b.side d = p.balance.side d) ∧
        ps.length ≤ s.trialBalance.size ∧
        (ps.length = s.trialBalance.size → ∀ key, (closing.get key).isSome ↔ ∃ p ∈ ps, p.key = key) := by
  obtain ⟨q, closing, hq, hc, hhead, hself, -⟩ := closing_stays hs hr
  have hsize : s.trialBalance.size = closing.len := by
    rw [hhead, trialBalanceHead_eq]
    exact List.length_map _
  refine ⟨q, closing, hq, hc, ?_, fun Q ps hdistinct hv => ?_⟩
  · obtain ⟨ps, hps, hrows, hv⟩ := proveAll_ok (H := H) closing
    refine ⟨ps, hps, ?_, ?_, fun p hp => ?_⟩
    · rw [hsize, ← List.length_map (f := fun p : BalanceProof H P => (p.key, p.balance)), hrows]
      rfl
    · have hkeys : ps.map (·.key) = closing.entries.keys := by
        rw [OrdMap.keys, ← hrows, List.map_map]
        rfl
      rw [hkeys]
      exact closing.entries.nodup_keys
    · rw [BalanceProof.verifyAgainst, hself, hhead, hv p hp]
      rfl
  · rw [hsize]
    refine disclosed_rows hb hdistinct fun p hp => ?_
    have hp := hv p hp
    rw [BalanceProof.verifyAgainst, Bool.and_eq_true, hhead] at hp
    exact hp.2

/-- Not vacuous: March has two rows, and no others. -/
theorem march_disclosed : ∃ (s : Seal Framed) (closing : TrialBalance cents) (ps : List (BalanceProof Framed cents)),
    (framedClosing.sealPeriod march.id).1 = .ok s ∧ framedBooks.trialBalanceThroughDate march.end = .ok closing ∧
    ps.length = 2 ∧ (∀ p ∈ ps, p.verifyAgainst s = true) ∧
    ∀ key, (closing.get key).isSome ↔ ∃ p ∈ ps, p.key = key := by
  obtain ⟨s, closing, hseals, hfits, -, -, -, -, hget, hclosing, -⟩ := framedBooks_seal
  obtain ⟨hdue, -, -, -, hrows⟩ := framedClosing_due
  obtain ⟨hk, hc⟩ := chained_of_reachable booked_framedClosing
  obtain ⟨closing', hclosing', -, hseal⟩ := sealPeriod_of_sealable hc hk hdue
  have hs : (framedClosing.sealPeriod march.id).1 = .ok (framedClosing.buildSeal { march with state := .closing } closing'
    march.id) := by rw [hseal]
  have hrun : (calls books).Run (framedClosing.sealPeriod march.id).2 [] framedBooks := .nil _
  obtain ⟨q, closing'', hq, hc'', ⟨ps, -, hlen, hdistinct, hv⟩, hall⟩ := full_disclosure binding_framed hs hrun
  obtain rfl : { march with state := .sealed } = q := Option.some.inj (hget.symm.trans hq)
  have hsize : (framedClosing.buildSeal { march with state := .closing } closing' march.id).trialBalance.size = 2 := by
    have hclosing' : framedClosing.trialBalanceThroughDate march.end = .ok closing' := hclosing'
    rw [hclosing'] at hrows
    show (trialBalanceHead closing' : TreeHead Framed).size = 2
    rw [trialBalanceHead_eq]
    exact (List.length_map _).trans (congrArg Prod.fst (Option.some.inj hrows))
  exact ⟨_, closing'', ps, hs, hc'', hlen.trans hsize, hv, (hall cents ps hdistinct hv).2.2 hlen⟩

end Journal

end DoubleEntry.L3
