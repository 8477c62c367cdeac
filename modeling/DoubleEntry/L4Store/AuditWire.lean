import DoubleEntry.L3Ledger.Audit
import DoubleEntry.L4Store.ColdTierRun
import DoubleEntry.L4Store.EntryWire
import DoubleEntry.L4Store.PathText

/-!
# Evidence on the wire

Seals, proofs and sealed balances are records of their fields, and an account is named by
the text of its path. A seal is read only if it has the hash of its fields.

Whoever holds the hash of the last seal is sent the seals and a sealed balance, by anyone.
What it accepts is settled by the books, and everything that can be said of an account gets
through, unless its path has the separator in a segment (`wire_audit_exact`).

**Assumptions.** `Binding`, of the hash; the journal is reached by ten calls (`Call`), and the
counters of its seals fit a `u64`.

**Results.**
* `lossless_sealCodec`, `sealedBalance_read`: what was written is read back.
* `within_sealCodec`, `within_sealedBalanceCodec`: what is read is in range, whoever sent it.
* `acceptedOnWire_sent`, `wire_audit_exact`: completeness, and the books decide.
-/
namespace DoubleEntry.L4

open DoubleEntry.Core DoubleEntry.L1 DoubleEntry.L2 DoubleEntry.L3

/-! ## Identifiers and keys -/

/-- mirrors src/serde_support.rs:14-34, src/period.rs:60 -/
def periodIdCodec : Codec PeriodId := .text (·.label.text) fun s => (Label.new s).toOption.map PeriodId.mk

/-- mirrors src/serde_support.rs:14-34, src/period.rs:101 -/
def ledgerIdCodec : Codec LedgerId := .text (·.label.text) fun s => (Label.new s).toOption.map LedgerId.mk

/-- mirrors src/account.rs:129-142 -/
def pathCodec : Codec AccountPath :=
  .text (fun p => String.ofList p.display) fun s => (AccountPath.parse s.toList).toOption

/-- mirrors src/balance.rs:80-88 -/
def balanceKeyCodec : Codec BalanceKey :=
  .record3 "account" "currency" "layer" accountIdCodec currencyCodec layerCodec BalanceKey.account BalanceKey.currency
    BalanceKey.layer BalanceKey.mk

/-- mirrors src/balance.rs:16-22 -/
def balanceCodec {P : Scale} : Codec (Balance P) :=
  .record2 "debits" "credits" amountCodec amountCodec Balance.debits Balance.credits Balance.mk

theorem lossless_periodIdCodec : periodIdCodec.Lossless fun _ => True := .text fun i _ => by
  rw [new_text]
  rfl

theorem lossless_ledgerIdCodec : ledgerIdCodec.Lossless fun _ => True := .text fun i _ => by
  rw [new_text]
  rfl

theorem lossless_pathCodec : pathCodec.Lossless AccountPath.Plain := .text fun p hp => by
  rw [String.toList_ofList, AccountPath.parse_display hp]
  rfl

/-- A path that was read has no separator in a segment. -/
theorem within_pathCodec : pathCodec.Within AccountPath.Plain := by
  intro t p h
  cases t with
  | str s => exact AccountPath.plain_parse (toOption_eq_some.1 h)
  | _ => cases h

theorem lossless_balanceKeyCodec : balanceKeyCodec.Lossless fun _ => True := fun k _ =>
  Codec.Lossless.record3 (by decide) lossless_accountIdCodec lossless_currencyCodec lossless_layerCodec (fun _ => rfl) k
    ⟨trivial, trivial, trivial⟩

theorem lossless_balanceCodec {P : Scale} :
    (balanceCodec : Codec (Balance P)).Lossless fun b => b.debits.minor ≠ i64Min ∧ b.credits.minor ≠ i64Min :=
  .record2 (by decide) lossless_amountCodec lossless_amountCodec fun _ => rfl

/-! ## Heads, proofs and seals -/

section
variable {H : Type} [HashBytes H] {P : Scale}

/-- mirrors src/merkle.rs:84-92 -/
def treeHeadCodec : Codec (TreeHead H) :=
  .record2 "size" "root" (.unsigned 64) hashCodec TreeHead.size TreeHead.root TreeHead.mk

/-- mirrors src/merkle.rs:134-143 -/
def inclusionProofCodec : Codec (InclusionProof H) :=
  .record3 "leaf_index" "tree_size" "path" (.unsigned 64) (.unsigned 64) hashCodec.list InclusionProof.leafIndex
    InclusionProof.treeSize InclusionProof.path InclusionProof.mk

/-- mirrors src/seal.rs:449-457 -/
def balanceProofCodec : Codec (BalanceProof H P) :=
  .record3 "key" "balance" "proof" balanceKeyCodec balanceCodec inclusionProofCodec BalanceProof.key BalanceProof.balance
    BalanceProof.proof BalanceProof.mk

/-- mirrors src/account.rs:576-584 -/
def bindingProofCodec : Codec (AccountBindingProof H) :=
  .record3 "id" "path" "proof" accountIdCodec pathCodec inclusionProofCodec AccountBindingProof.id AccountBindingProof.path
    AccountBindingProof.proof AccountBindingProof.mk

theorem lossless_treeHeadCodec : (treeHeadCodec : Codec (TreeHead H)).Lossless fun h => h.size < 2 ^ 64 ∧ True :=
  .record2 (by decide) (Codec.lossless_unsigned 64) lossless_hashCodec fun _ => rfl

theorem within_treeHeadCodec : (treeHeadCodec : Codec (TreeHead H)).Within fun h => h.size < 2 ^ 64 := by
  intro t h hr
  have hany : (hashCodec : Codec H).Within fun _ => True := fun _ _ _ => trivial
  obtain ⟨size, root, hsize, -, rfl⟩ := Codec.Within.record2 (Codec.within_unsigned 64) hany t h hr
  exact hsize

theorem lossless_inclusionProofCodec : (inclusionProofCodec : Codec (InclusionProof H)).Lossless fun p =>
    p.leafIndex < 2 ^ 64 ∧ p.treeSize < 2 ^ 64 ∧ ∀ h ∈ p.path, True :=
  .record3 (by decide) (Codec.lossless_unsigned 64) (Codec.lossless_unsigned 64) lossless_hashCodec.list fun _ => rfl

/-- A proof under a head whose size fits. -/
theorem fits_of_verify [DecidableEq H] {p : InclusionProof H} {payload : H} {head : TreeHead H} (h : p.verify payload head = true)
    (hsize : head.size < 2 ^ 64) : p.leafIndex < 2 ^ 64 ∧ p.treeSize < 2 ^ 64 ∧ ∀ h ∈ p.path, True := by
  unfold InclusionProof.verify at h
  split at h
  · cases h
  · rename_i hrange
    rw [not_or, not_not, not_le] at hrange
    exact ⟨by omega, by omega, fun _ _ => trivial⟩

/-- mirrors src/seal.rs:108-172 -/
def sealFields (s : Seal H) : List (String × Tree) :=
  [("ledger", ledgerIdCodec.write s.ledger), ("period", periodIdCodec.write s.period),
    ("first_index", (Codec.unsigned 64).option.write s.firstIndex), ("last_index", (Codec.unsigned 64).option.write s.lastIndex),
    ("entry_count", (Codec.unsigned 64).write s.entryCount), ("tree_head", treeHeadCodec.write s.treeHead),
    ("trial_balance", treeHeadCodec.write s.trialBalance), ("accounts", treeHeadCodec.write s.accounts),
    ("prev_seal", hashCodec.option.write s.prevSeal), ("seal_hash", hashCodec.write s.sealHash)]

variable [DecidableEq H]

/-- Read only with the hash of its fields. mirrors src/seal.rs:231-277 -/
def sealCodec : Codec (Seal H) where
  write s := .record (sealFields s)
  read t := do
    let ledger ← ledgerIdCodec.required "ledger" t
    let period ← periodIdCodec.required "period" t
    let firstIndex ← (Codec.unsigned 64).optional "first_index" t
    let lastIndex ← (Codec.unsigned 64).optional "last_index" t
    let entryCount ← (Codec.unsigned 64).required "entry_count" t
    let treeHead ← treeHeadCodec.required "tree_head" t
    let trialBalance ← treeHeadCodec.required "trial_balance" t
    let accounts ← treeHeadCodec.required "accounts" t
    let prevSeal ← hashCodec.optional "prev_seal" t
    let sealHash ← hashCodec.required "seal_hash" t
    let s : Seal H := ⟨⟨ledger, period, firstIndex, lastIndex, entryCount, treeHead, trialBalance, accounts, prevSeal⟩, sealHash⟩
    if s.isSelfConsistent then some s else none

/-- mirrors src/seal.rs:572-580 -/
def sealedBalanceCodec : Codec (SealedBalance H P) :=
  .record3 "seal" "balance" "binding" sealCodec balanceProofCodec bindingProofCodec SealedBalance.seal SealedBalance.balance
    SealedBalance.binding SealedBalance.mk

/-- **A seal is read back**, if it has the hash of its fields. -/
theorem lossless_sealCodec :
    (sealCodec : Codec (Seal H)).Lossless fun s => s.toSealBody.Fits ∧ s.isSelfConsistent = true := by
  rintro s ⟨hfits, hself⟩
  have hnodup : ((sealFields s).map Prod.fst).Nodup := by simp [sealFields]
  have hledger : ledgerIdCodec.required "ledger" (.record (sealFields s)) = some s.ledger :=
    Codec.required_record hnodup lossless_ledgerIdCodec trivial (by simp [sealFields])
  have hperiod : periodIdCodec.required "period" (.record (sealFields s)) = some s.period :=
    Codec.required_record hnodup lossless_periodIdCodec trivial (by simp [sealFields])
  have hfirst : (Codec.unsigned 64).optional "first_index" (.record (sealFields s)) = some s.firstIndex :=
    Codec.optional_record hnodup (Codec.lossless_unsigned 64) hfits.firstIndex (by simp [sealFields])
  have hlast : (Codec.unsigned 64).optional "last_index" (.record (sealFields s)) = some s.lastIndex :=
    Codec.optional_record hnodup (Codec.lossless_unsigned 64) hfits.lastIndex (by simp [sealFields])
  have hcount : (Codec.unsigned 64).required "entry_count" (.record (sealFields s)) = some s.entryCount :=
    Codec.required_record hnodup (Codec.lossless_unsigned 64) hfits.entryCount (by simp [sealFields])
  have hhead : treeHeadCodec.required "tree_head" (.record (sealFields s)) = some s.treeHead :=
    Codec.required_record hnodup lossless_treeHeadCodec ⟨hfits.treeHead, trivial⟩ (by simp [sealFields])
  have htrial : treeHeadCodec.required "trial_balance" (.record (sealFields s)) = some s.trialBalance :=
    Codec.required_record hnodup lossless_treeHeadCodec ⟨hfits.trialBalance, trivial⟩ (by simp [sealFields])
  have haccounts : treeHeadCodec.required "accounts" (.record (sealFields s)) = some s.accounts :=
    Codec.required_record hnodup lossless_treeHeadCodec ⟨hfits.accounts, trivial⟩ (by simp [sealFields])
  have hprev : hashCodec.optional "prev_seal" (.record (sealFields s)) = some s.prevSeal :=
    Codec.optional_record hnodup lossless_hashCodec (fun _ _ => trivial) (by simp [sealFields])
  have hhash : hashCodec.required "seal_hash" (.record (sealFields s)) = some s.sealHash :=
    Codec.required_record hnodup lossless_hashCodec trivial (by simp [sealFields])
  simp only [sealCodec, hledger, hperiod, hfirst, hlast, hcount, hhead, htrial, haccounts, hprev, hhash, Option.bind_eq_bind,
    Option.bind_some]
  exact if_pos hself

/-- What is read as a seal has numbers in range. -/
theorem within_sealCodec : (sealCodec : Codec (Seal H)).Within fun s => s.toSealBody.Fits := by
  intro t s h
  simp only [sealCodec, Option.bind_eq_bind, Option.bind_eq_some_iff] at h
  obtain ⟨ledger, -, period, -, first, hfirst, last, hlast, count, hcount, head, hhead, trial, htrial, accounts, haccounts, prev, -,
    hash, -, h⟩ := h
  split at h
  · cases h
    exact ⟨(Codec.within_unsigned 64).optional hfirst, (Codec.within_unsigned 64).optional hlast,
      (Codec.within_unsigned 64).required hcount, within_treeHeadCodec.required hhead, within_treeHeadCodec.required htrial,
      within_treeHeadCodec.required haccounts⟩
  · cases h

/-- **Evidence that verifies is read back**, where the path of its account is plain. -/
theorem sealedBalance_read {evidence : SealedBalance H P} (hfits : evidence.seal.toSealBody.Fits) (hv : evidence.verify = true)
    (hplain : evidence.binding.path.Plain) (hamounts : evidence.balance.balance.debits.minor ≠ i64Min ∧
      evidence.balance.balance.credits.minor ≠ i64Min) :
    sealedBalanceCodec.read (sealedBalanceCodec.write evidence) = some evidence := by
  have hparts := hv
  simp only [SealedBalance.verify, BalanceProof.verifyNaming, BalanceProof.verifyAgainst, BalanceProof.verify,
    AccountBindingProof.verify, Bool.and_eq_true, decide_eq_true_eq] at hparts
  obtain ⟨⟨⟨hself, hrow⟩, -⟩, -, hbinding⟩ := hparts
  have hbalance : (balanceProofCodec : Codec (BalanceProof H P)).Lossless fun p => True ∧
      (p.balance.debits.minor ≠ i64Min ∧ p.balance.credits.minor ≠ i64Min) ∧
      p.proof.leafIndex < 2 ^ 64 ∧ p.proof.treeSize < 2 ^ 64 ∧ ∀ h ∈ p.proof.path, True :=
    .record3 (by decide) lossless_balanceKeyCodec lossless_balanceCodec lossless_inclusionProofCodec fun _ => rfl
  have hnamed : (bindingProofCodec : Codec (AccountBindingProof H)).Lossless fun p => True ∧ p.path.Plain ∧
      p.proof.leafIndex < 2 ^ 64 ∧ p.proof.treeSize < 2 ^ 64 ∧ ∀ h ∈ p.proof.path, True :=
    .record3 (by decide) lossless_accountIdCodec lossless_pathCodec lossless_inclusionProofCodec fun _ => rfl
  exact Codec.Lossless.record3 (by decide) lossless_sealCodec hbalance hnamed (fun _ => rfl) evidence
    ⟨⟨hfits, hself⟩, ⟨trivial, hamounts, fits_of_verify hrow hfits.trialBalance⟩,
      ⟨trivial, hplain, fits_of_verify hbinding hfits.accounts⟩⟩

/-- The path in evidence that was read is plain. -/
theorem within_sealedBalanceCodec : (sealedBalanceCodec : Codec (SealedBalance H P)).Within fun evidence =>
    ∃ s balance binding, s.toSealBody.Fits ∧ True ∧ binding.path.Plain ∧ evidence = SealedBalance.mk s balance binding := by
  have hbinding : (bindingProofCodec : Codec (AccountBindingProof H)).Within fun p => p.path.Plain := by
    intro t p hr
    obtain ⟨-, path, -, -, hpath, -, rfl⟩ := Codec.Within.record3 (fun _ _ _ => trivial : accountIdCodec.Within fun _ => True)
      within_pathCodec (fun _ _ _ => trivial : (inclusionProofCodec : Codec (InclusionProof H)).Within fun _ => True) t p hr
    exact hpath
  exact Codec.Within.record3 within_sealCodec
    (fun _ _ _ => trivial : (balanceProofCodec : Codec (BalanceProof H P)).Within fun _ => True) hbinding

/-! ## What a recipient accepts -/

/-- The holder of a seal hash reads seals and a sealed balance, and accepts the balance. -/
structure AcceptedOnWire (hash : H) (seals sent : Tree) (evidence : SealedBalance H P) : Prop where
  chain : ∃ (ledger : LedgerId) (received : List (Seal H)) (chain : SealChain H), sealCodec.list.read seals = some received ∧
    SealChain.fromSeals ledger received = .ok chain ∧ chain.head = some hash ∧ evidence.seal ∈ chain.seals
  read : sealedBalanceCodec.read sent = some evidence
  verifies : evidence.verify = true

theorem AcceptedOnWire.accepted {hash : H} {seals sent : Tree} {evidence : SealedBalance H P}
    (h : AcceptedOnWire hash seals sent evidence) :
    (∃ chain, AcceptedBy hash chain evidence) ∧ evidence.binding.path.Plain := by
  obtain ⟨⟨ledger, received, chain, hread, hchain, hhash, hlisted⟩, hsent, hverifies⟩ := h
  obtain ⟨-, hseals, hv, -⟩ := SealChain.fromSeals_ok hchain
  have hfits : chain.Fits := by
    rw [SealChain.Fits, hseals]
    exact within_sealCodec.list seals received hread
  obtain ⟨s, balance, binding, -, -, hplain, rfl⟩ := within_sealedBalanceCodec sent evidence hsent
  exact ⟨⟨chain, ⟨hfits, hv, hhash⟩, hlisted, hverifies⟩, hplain⟩

/-! ## The result -/

omit [DecidableEq H] in
theorem closing_amounts {j : Journal H P} (hk : j.Kept) {date : Date} {closing : TrialBalance P}
    (hclosing : j.trialBalanceThroughDate date = .ok closing) {key : BalanceKey} {b : Balance P}
    (hrow : closing.get key = some b) : b.debits.minor ≠ i64Min ∧ b.credits.minor ≠ i64Min := by
  have hnonneg := hk.part_nonneg (List.filter_sublist : (through date j.entries).Sublist j.entries) hclosing key
  have hzero : closing.getOrZero key = b := by rw [TrialBalance.getOrZero, hrow, Option.getD_some]
  rw [hzero] at hnonneg
  have hdebits : 0 ≤ b.debits.minor := hnonneg .debit
  have hcredits : 0 ≤ b.credits.minor := hnonneg .credit
  unfold i64Min
  omega

/-- What a journal sends is accepted, where the path of the account is plain. -/
theorem acceptedOnWire_sent {j : Journal H P} (h : j.Audited) (hk : j.Kept) (hfits : j.seals.Fits) {hash : H}
    (hhash : j.seals.head = some hash) {evidence : SealedBalance H P} (hlisted : evidence.seal ∈ j.seals.seals)
    (hv : evidence.verify = true) (hplain : evidence.binding.path.Plain) {date : Date} {closing : TrialBalance P}
    (hclosing : j.trialBalanceThroughDate date = .ok closing) {key : BalanceKey}
    (hrow : closing.get key = some evidence.balance.balance) :
    AcceptedOnWire hash (sealCodec.list.write j.seals.seals) (sealedBalanceCodec.write evidence) evidence where
  chain := by
    have hread : sealCodec.list.read (sealCodec.list.write j.seals.seals) = some j.seals.seals :=
      lossless_sealCodec.list j.seals.seals fun x hx => ⟨hfits x hx, (h.backed x hx).self⟩
    exact ⟨j.ledger, j.seals.seals, j.seals, hread, SealChain.fromSeals_of_reachable h.pushed, hhash, hlisted⟩
  read := sealedBalance_read (hfits _ hlisted) hv hplain (closing_amounts hk hclosing hrow)
  verifies := hv

/-- **What is read and accepted is what the books say**, and all of it gets through whose
account has no separator in a segment of its path: what `prove_sealed_balance` proves is
accepted as it is sent exactly then. -/
theorem wire_audit_exact {ledger : LedgerId} {j : Journal H P} (hb : Binding H) (hj : (Journal.calls ledger).Reachable j)
    (hfits : j.seals.Fits) {hash : H} (hhash : j.seals.head = some hash) :
    (∀ {Q : Scale} (seals sent : Tree) (evidence : SealedBalance H Q), AcceptedOnWire hash seals sent evidence → P = Q) ∧
    (∀ (period : PeriodId) (key : BalanceKey) (balance : Balance P) (path : AccountPath),
      (∃ (seals sent : Tree) (evidence : SealedBalance H P), AcceptedOnWire hash seals sent evidence ∧
        evidence.seal.period = period ∧ evidence.balance.key = key ∧ evidence.balance.balance = balance ∧
        evidence.binding.path = path) ↔
      (∃ s q closing a, j.seals.get period = some s ∧ j.calendar.get period = some q ∧
        j.trialBalanceThroughDate q.end = .ok closing ∧ closing.get key = some balance ∧
        j.accounts.get key.account = some a ∧ a.path = path) ∧ path.Plain) ∧
    ∀ (period : PeriodId) (key : BalanceKey) (evidence : SealedBalance H P),
      j.proveSealedBalance period key = .ok (.proven evidence) →
        (AcceptedOnWire hash (sealCodec.list.write j.seals.seals) (sealedBalanceCodec.write evidence) evidence ↔
          evidence.binding.path.Plain) := by
  have haudited := Journal.audited_of_reachable hj
  have hk := Journal.kept_of_calls hj
  refine ⟨fun seals sent evidence h => ?_, fun period key balance path => ⟨?_, ?_⟩, fun period key evidence hp => ⟨?_, ?_⟩⟩
  · obtain ⟨⟨chain, hacc⟩, -⟩ := h.accepted
    exact (haudited.sound hb hfits hhash hacc).1
  · rintro ⟨seals, sent, evidence, h, rfl, rfl, rfl, rfl⟩
    obtain ⟨⟨chain, hacc⟩, hplain⟩ := h.accepted
    obtain ⟨-, q, closing, b, a, hs, hq, hclosing, hget, hdebits, hcredits, ha, hpath⟩ :=
      haudited.sound hb hfits hhash hacc
    obtain rfl : b = evidence.balance.balance := Balance.ext (Amount.ext hdebits) (Amount.ext hcredits)
    exact ⟨⟨_, q, closing, a, hs, hq, hclosing, hget, ha, hpath⟩, hplain⟩
  · rintro ⟨⟨s, q, closing, a, hs, hq, hclosing, hget, ha, rfl⟩, hplain⟩
    obtain ⟨hin, rfl⟩ := SealChain.mem_of_get hs
    obtain ⟨evidence, hv, rfl, hkey, rfl, hpath⟩ := (haudited.backed s hin).complete hb hq hclosing hget ha
    exact ⟨_, _, evidence, acceptedOnWire_sent haudited hk hfits hhash hin hv (hpath ▸ hplain) hclosing hget, rfl, hkey, rfl,
      hpath⟩
  · exact fun h => h.accepted.2
  · intro hplain
    obtain ⟨hin, hv, q, closing, -, hclosing, hrow⟩ := haudited.proven hp
    exact acceptedOnWire_sent haudited hk hfits hhash hin hv hplain hclosing hrow

/-! ## March, sent -/

/-- Not vacuous: the holder of the hash of March's seal reads and accepts ten euro on the debit side of cash. -/
theorem march_read : ∃ (hash : Framed) (seals sent : Tree) (evidence : SealedBalance Framed cents),
    Journal.framedBooks.seals.head = some hash ∧ AcceptedOnWire hash seals sent evidence ∧
    evidence.seal.period = march.id ∧ evidence.balance.key = SealedBalance.cashKey ∧
    evidence.balance.balance.debits = tenEuro ∧ evidence.binding.path = cash.path := by
  obtain ⟨s, closing, hseals, hfits, hperiod, -, -, haccounts, hget, hclosing, hrow⟩ := Journal.framedBooks_seal
  obtain ⟨hall, hhead⟩ := Journal.fits_of_singleton hseals hfits
  obtain ⟨-, hexact, -⟩ := wire_audit_exact binding_framed Journal.reachable_framedBooks hall hhead
  have hs : Journal.framedBooks.seals.get march.id = some s := by rw [SealChain.get, hseals]; simp [hperiod]
  have ha : Journal.framedBooks.accounts.get SealedBalance.cashKey.account = some cash := by
    rw [AccountRegistry.get, haccounts]
    rfl
  obtain ⟨seals, sent, evidence, h, hp, hk, hb, hpath⟩ := (hexact march.id SealedBalance.cashKey ⟨tenEuro, ⟨0, by decide⟩⟩
    cash.path).2 ⟨⟨s, _, closing, cash, hs, hget, hclosing, hrow, ha, rfl⟩, by decide⟩
  exact ⟨_, seals, sent, evidence, hhead, h, hp, hk, by rw [hb], hpath⟩

end

end DoubleEntry.L4
