import DoubleEntry.L3Ledger.Entry

/-!
# Period seals

A seal commits to three Merkle heads: the log, the closing trial balance and the
account bindings, and to the hash of its predecessor. `SealedBalance.assemble`
turns a seal, a trial balance and a registry into an answer about one balance.

For a seal built over a trial balance and a registry, the answer over the same
trial balance and any registry that grew from it is settled by the two of them
alone: `Answers` and `assemble_answers`.

**Assumptions.** None: what is said here is said of any hash. That a proof which verifies is of a
row that was sealed needs more, and is in `Disclosure` (`BalanceProof.row_of_verify`).

**Results.**
* `prove_none`, `prove_some`: a commitment proves its rows and nothing else.
* `assemble_answers`: the answer over what was sealed, for any registry that grew.
* `push_eq_ok`: what a chain takes.
-/
namespace DoubleEntry.L3

open DoubleEntry.Core DoubleEntry.L1 DoubleEntry.L2

/-! ## The commitment to a trial balance -/

section
variable {H : Type} [Blake3 H] {P : Scale}

/-- mirrors src/seal.rs:322-331 -/
def balanceLeaf (key : BalanceKey) (balance : Balance P) : H :=
  tagged Tag.trialBalanceV1 (writeU32 key.account.index ++ key.currency.asBytes ++
    writeU8 key.layer.discriminant ++ writeU8 P.val ++ writeI64 balance.debits.minor ++
    writeI64 balance.credits.minor)

/-- mirrors src/seal.rs:450-457 -/
structure BalanceProof (H : Type) (P : Scale) where
  key : BalanceKey
  balance : Balance P
  proof : InclusionProof H

/-- mirrors src/seal.rs:359-362 -/
structure TrialBalanceCommitment (H : Type) [Blake3 H] (P : Scale) where
  rows : List (BalanceKey × Balance P)
  log : MerkleLog H

namespace TrialBalanceCommitment

/-- One leaf per row, in the order of the trial balance. mirrors src/seal.rs:370-377 -/
def of (tb : TrialBalance P) : TrialBalanceCommitment H P :=
  ⟨tb.entries.entries, .fromLeaves (tb.entries.entries.map fun e => balanceLeaf e.1 e.2)⟩

/-- mirrors src/seal.rs:384-386 -/
def head (c : TrialBalanceCommitment H P) : TreeHead H := c.log.head

/-- mirrors src/seal.rs:412-421 -/
def prove (c : TrialBalanceCommitment H P) (key : BalanceKey) : Option (BalanceProof H P) :=
  match c.rows.findIdx? fun e => e.1 = key with
  | none => none
  | some index =>
    match c.rows[index]? with
    | none => none
    | some (key, balance) =>
      match c.log.inclusionProof index with
      | .error _ => none
      | .ok proof => some ⟨key, balance, proof⟩

end TrialBalanceCommitment

/-- mirrors src/seal.rs:310-312 -/
def trialBalanceHead (tb : TrialBalance P) : TreeHead H := (TrialBalanceCommitment.of tb).head

/-- mirrors src/seal.rs:466-469 -/
def BalanceProof.verify [DecidableEq H] (p : BalanceProof H P) (trialBalance : TreeHead H) : Bool :=
  p.proof.verify (balanceLeaf p.key p.balance) trialBalance

/-- A key without a row is not proven. -/
theorem prove_none {tb : TrialBalance P} {key : BalanceKey} (h : tb.get key = none) :
    (TrialBalanceCommitment.of tb : TrialBalanceCommitment H P).prove key = none := by
  have hn : tb.entries.entries.findIdx? (fun e => e.1 = key) = none := by
    refine List.findIdx?_eq_none_iff.2 fun e he => decide_eq_false fun hk => ?_
    have hrow : tb.get e.1 = some e.2 := OrdMap.mem_entries.1 he
    rw [hk, h] at hrow
    cases hrow
  simp only [TrialBalanceCommitment.prove, TrialBalanceCommitment.of, hn]

/-- **Rows are provable.** A row of the trial balance is proven, and the proof
verifies against the head. -/
theorem prove_some [DecidableEq H] {tb : TrialBalance P} {key : BalanceKey} {b : Balance P}
    (h : tb.get key = some b) :
    ∃ p, (TrialBalanceCommitment.of tb : TrialBalanceCommitment H P).prove key = some p ∧
      p.key = key ∧ p.balance = b ∧ p.verify (trialBalanceHead tb) = true := by
  have hmem : (key, b) ∈ tb.entries.entries := OrdMap.mem_entries.2 h
  obtain ⟨i, hi⟩ : ∃ i, tb.entries.entries.findIdx? (fun e => e.1 = key) = some i := by
    cases hf : tb.entries.entries.findIdx? (fun e => e.1 = key) with
    | none => exact absurd (List.findIdx?_eq_none_iff.1 hf _ hmem) (by simp)
    | some i => exact ⟨i, rfl⟩
  obtain ⟨hlt, hk, -⟩ := List.findIdx?_eq_some_iff_getElem.1 hi
  have hrow : tb.entries.entries[i]? = some (key, b) := by
    have hget : tb.get tb.entries.entries[i].1 = some tb.entries.entries[i].2 :=
      OrdMap.mem_entries.1 (List.getElem_mem hlt)
    have hk : tb.entries.entries[i].1 = key := of_decide_eq_true hk
    rw [hk, h] at hget
    have he : tb.entries.entries[i] = (key, b) := Prod.ext hk (Option.some.inj hget).symm
    rw [List.getElem?_eq_getElem hlt, he]
  have hleaf : (tb.entries.entries.map fun e => (balanceLeaf e.1 e.2 : H))[i]? = some (balanceLeaf key b) := by
    rw [List.getElem?_map, hrow, Option.map_some]
  rw [← MerkleLog.leaves_fromLeaves (tb.entries.entries.map fun e => (balanceLeaf e.1 e.2 : H))] at hleaf
  obtain ⟨hlt', -⟩ := List.getElem?_eq_some_iff.1 hleaf
  obtain ⟨p, hp, hv⟩ := MerkleLog.inclusionProofAt_verifies le_rfl hlt' hleaf
  refine ⟨⟨key, b, p⟩, ?_, rfl, rfl, ?_⟩
  · simp only [TrialBalanceCommitment.prove, TrialBalanceCommitment.of, hi, hrow, MerkleLog.inclusionProof,
      MerkleLog.len, hp]
  · rw [List.take_of_length_le le_rfl] at hv
    rw [BalanceProof.verify, trialBalanceHead, TrialBalanceCommitment.head, MerkleLog.head_eq]
    exact hv

end

/-! ## Seals -/

/-- mirrors src/seal.rs:71-85 -/
structure PeriodCoverage where
  firstIndex : Option Nat
  lastIndex : Option Nat
  entryCount : Nat
  deriving DecidableEq, Repr

/-- mirrors src/seal.rs:93-97 -/
def PeriodCoverage.empty : PeriodCoverage := ⟨none, none, 0⟩

/-- Every field of a seal but its own hash. mirrors src/seal.rs:113-178 -/
structure SealBody (H : Type) where
  ledger : LedgerId
  period : PeriodId
  firstIndex : Option Nat
  lastIndex : Option Nat
  entryCount : Nat
  treeHead : TreeHead H
  trialBalance : TreeHead H
  accounts : TreeHead H
  prevSeal : Option H
  deriving DecidableEq

/-- mirrors src/seal.rs:109-166 -/
structure Seal (H : Type) extends SealBody H where
  sealHash : H
  deriving DecidableEq

section
variable {H : Type} [Blake3 H] {P : Scale}

/-- mirrors src/seal.rs:295-315 -/
instance : Canonical (SealBody H) :=
  ⟨fun s => Canonical.encode s.ledger ++ Canonical.encode s.period ++ writeOption writeU64 s.firstIndex ++
    writeOption writeU64 s.lastIndex ++ writeU64 s.entryCount ++
    writeU64 s.treeHead.size ++ Blake3.asBytes s.treeHead.root ++
    writeU64 s.trialBalance.size ++ Blake3.asBytes s.trialBalance.root ++
    writeU64 s.accounts.size ++ Blake3.asBytes s.accounts.root ++ writeOption Blake3.asBytes s.prevSeal⟩

namespace Seal

/-- mirrors src/seal.rs:204-208 -/
def computeHash (s : SealBody H) : H := tagged Tag.sealV1 (Canonical.encode s)

/-- mirrors src/seal.rs:176-200 -/
def build (ledger : LedgerId) (period : PeriodId) (coverage : PeriodCoverage) (treeHead : TreeHead H)
    (trialBalance : TrialBalance P) (accounts : TreeHead H) (prevSeal : Option H) : Seal H :=
  let body : SealBody H :=
    ⟨ledger, period, coverage.firstIndex, coverage.lastIndex, coverage.entryCount, treeHead,
      trialBalanceHead trialBalance, accounts, prevSeal⟩
  ⟨body, computeHash body⟩

/-- mirrors src/seal.rs:212-214 -/
def isSelfConsistent [DecidableEq H] (s : Seal H) : Bool := computeHash s.toSealBody = s.sealHash

end Seal

end

/-! ## Sealed balances -/

/-- mirrors src/seal.rs:573-580 -/
structure SealedBalance (H : Type) (P : Scale) where
  «seal» : Seal H
  balance : BalanceProof H P
  binding : AccountBindingProof H

/-- mirrors src/seal.rs:512-526 -/
inductive SealedBalanceOutcome (H : Type) (P : Scale)
  | proven (balance : SealedBalance H P)
  | noRow
  | notYetRegistered

/-- mirrors src/seal.rs:664-697 -/
inductive SealedBalanceError
  | notSealed (period : PeriodId)
  | undefinedPeriod (period : PeriodId)
  | restated (period : PeriodId)
  | registryMismatch (period : PeriodId)
  deriving DecidableEq

section
variable {H : Type} [Blake3 H] [DecidableEq H] {P : Scale}

/-- mirrors src/seal.rs:479-481 -/
def BalanceProof.verifyAgainst (p : BalanceProof H P) (s : Seal H) : Bool :=
  s.isSelfConsistent && p.verify s.trialBalance

/-- mirrors src/seal.rs:491-495 -/
def BalanceProof.verifyNaming (p : BalanceProof H P) (binding : AccountBindingProof H) (s : Seal H) : Bool :=
  p.verifyAgainst s && decide (binding.id = p.key.account) && binding.verify s.accounts

namespace SealedBalance

/-- mirrors src/seal.rs:650-652 -/
def verify (b : SealedBalance H P) : Bool := b.balance.verifyNaming b.binding b.seal

/-- mirrors src/seal.rs:609-637 -/
def assemble (s : Seal H) (closing : TrialBalance P) (accounts : AccountRegistry) (key : BalanceKey) :
    Except SealedBalanceError (SealedBalanceOutcome H P) :=
  let commitment : TrialBalanceCommitment H P := .of closing
  if commitment.head ≠ s.trialBalance then .error (.restated s.period)
  else
    match accounts.proveBindingAt key.account s.accounts.size with
    | none => .ok .notYetRegistered
    | some binding =>
      if binding.verify s.accounts then
        match commitment.prove key with
        | some balance => .ok (.proven ⟨s, balance, binding⟩)
        | none => .ok .noRow
      else .error (.registryMismatch s.period)

/-- The answer about `key` under a seal `s`, when the period closed with `tb`
and `n` accounts were registered. -/
def Answers (s : Seal H) (tb : TrialBalance P) (n : Nat) (key : BalanceKey) :
    Except SealedBalanceError (SealedBalanceOutcome H P) → Prop
  | .ok .notYetRegistered => n ≤ key.account.index
  | .ok .noRow => key.account.index < n ∧ tb.get key = none
  | .ok (.proven p) =>
    p.seal = s ∧ p.verify = true ∧ p.balance.key = key ∧ key.account.index < n ∧ tb.get key = some p.balance.balance
  | .error _ => False

/-- **A seal answers for good.** Over the trial balance the seal was built from
and any registry that grew from the one it committed to. -/
theorem assemble_answers {s : Seal H} {tb : TrialBalance P} {r r' : AccountRegistry} (key : BalanceKey)
    (hs : s.isSelfConsistent = true) (htb : s.trialBalance = trialBalanceHead tb)
    (hacc : s.accounts = r.commitment) (hr : r.Grows r') :
    Answers s tb r.len key (assemble s tb r' key) := by
  have hsize : s.accounts.size = r.len := by rw [hacc, AccountRegistry.commitment_eq]
  have hhead : ¬ (TrialBalanceCommitment.of tb : TrialBalanceCommitment H P).head ≠ s.trialBalance :=
    not_not.2 htb.symm
  unfold assemble
  simp only [if_neg hhead, hsize]
  rcases lt_or_ge key.account.index r.len with hlt | hge
  · obtain ⟨binding, hb, hid, hv⟩ := AccountRegistry.proveBindingAt_verifies (H := H) hr hlt
    simp only [hb, hacc, hv, if_true]
    cases hrow : tb.get key with
    | none =>
      rw [prove_none hrow]
      exact ⟨hlt, hrow⟩
    | some b =>
      obtain ⟨p, hp, hkey, hbal, hpv⟩ := prove_some (H := H) hrow
      rw [hp]
      refine ⟨rfl, ?_, hkey, hlt, by rw [hbal]; exact hrow⟩
      simp only [verify, BalanceProof.verifyNaming, BalanceProof.verifyAgainst, hs, htb, hpv, hid, hkey, hacc, hv,
        decide_true, Bool.and_true]
  · rw [AccountRegistry.proveBindingAt_none hge]
    exact hge

end SealedBalance

end

/-! ## The chain -/

/-- mirrors src/seal.rs:702-768 -/
inductive SealChainError
  | tampered (period : PeriodId)
  | brokenChain (period : PeriodId)
  | foreignLedger (period : PeriodId) (expected found : LedgerId)
  | duplicatePeriod (period : PeriodId)
  | misplacedGenesis (period : PeriodId)
  | nonMonotonic (period : PeriodId)
  | shrunkenRegistry (period : PeriodId) (expected found : Nat)
  deriving DecidableEq

/-- The seals and the set of their periods. mirrors src/seal.rs:778-786 -/
structure SealChain (H : Type) where
  ledger : LedgerId
  seals : List (Seal H)
  periods : OrdMap PeriodId Unit
  seen : ∀ s ∈ seals, periods.contains s.period = true

section
variable {H : Type} [Blake3 H] [DecidableEq H]

namespace SealChain

/-- mirrors src/seal.rs:791-797 -/
def new (ledger : LedgerId) : SealChain H := ⟨ledger, [], .empty, by simp⟩

/-- mirrors src/seal.rs:826-828 -/
def head (c : SealChain H) : Option H := c.seals.getLast?.map (·.sealHash)

/-- mirrors src/seal.rs:845-888 -/
def checkLink (ledger : LedgerId) (seen : OrdMap PeriodId Unit) (previous : Option (Seal H)) (s : Seal H) :
    Except SealChainError Unit :=
  if s.isSelfConsistent = false then .error (.tampered s.period)
  else if s.ledger ≠ ledger then .error (.foreignLedger s.period ledger s.ledger)
  else if seen.contains s.period then .error (.duplicatePeriod s.period)
  else
    match previous, s.prevSeal with
    | none, none => .ok ()
    | some prev, some reference =>
      if prev.sealHash ≠ reference then .error (.brokenChain s.period)
      else if s.treeHead.size < prev.treeHead.size then .error (.nonMonotonic s.period)
      else if s.accounts.size < prev.accounts.size then
        .error (.shrunkenRegistry s.period prev.accounts.size s.accounts.size)
      else .ok ()
    | _, _ => .error (.misplacedGenesis s.period)

/-- The chain with one more seal. mirrors src/seal.rs:934-936 -/
def add (c : SealChain H) (s : Seal H) : SealChain H where
  ledger := c.ledger
  seals := c.seals ++ [s]
  periods := c.periods.insert s.period ()
  seen x hx := by
    rw [OrdMap.contains_iff]
    rcases List.mem_append.1 hx with hx | hx
    · obtain ⟨a, ha⟩ := OrdMap.contains_iff.1 (c.seen x hx)
      rw [OrdMap.get?_insert]
      split
      · exact ⟨(), rfl⟩
      · exact ⟨a, ha⟩
    · rw [List.mem_singleton.1 hx]
      exact ⟨(), OrdMap.get?_insert_self⟩

/-- mirrors src/seal.rs:895-900 -/
def push (c : SealChain H) (s : Seal H) : Except SealChainError (SealChain H) :=
  match checkLink c.ledger c.periods c.seals.getLast? s with
  | .error e => .error e
  | .ok () => .ok (c.add s)

/-- mirrors src/seal.rs:807-816 -/
def fromSeals (ledger : LedgerId) (seals : List (Seal H)) : Except SealChainError (SealChain H) :=
  seals.foldlM push (new ledger)

/-- mirrors src/seal.rs:944-946 -/
def get (c : SealChain H) (period : PeriodId) : Option (Seal H) := c.seals.find? fun s => s.period = period

omit [Blake3 H] [DecidableEq H] in
theorem get_eq_none {c : SealChain H} {period : PeriodId} :
    c.get period = none ↔ ∀ s ∈ c.seals, s.period ≠ period := by simp [get]

omit [Blake3 H] [DecidableEq H] in
theorem get_add {c : SealChain H} {s : Seal H} {period : PeriodId} :
    (c.add s).get period = (c.get period).or (if s.period = period then some s else none) := by
  unfold get add
  rw [List.find?_append]
  congr 1
  by_cases h : s.period = period <;> simp [h]

/-- A seal that is accepted is self-consistent, and the first one of its period. -/
theorem push_eq_ok {c c' : SealChain H} {s : Seal H} (h : c.push s = .ok c') :
    c' = c.add s ∧ s.isSelfConsistent = true ∧ c.get s.period = none := by
  unfold push at h
  split at h
  · cases h
  · rename_i hok
    cases h
    unfold checkLink at hok
    split at hok
    · cases hok
    · rename_i hself
      split at hok
      · cases hok
      · split at hok
        · cases hok
        · rename_i hnew
          refine ⟨rfl, by simpa using hself, get_eq_none.2 fun x hx e => hnew ?_⟩
          rw [← e]
          exact c.seen x hx

end SealChain

end

end DoubleEntry.L3
