import DoubleEntry.L2Merkle.Proofs
import DoubleEntry.L3Ledger.EntryEncoding
import DoubleEntry.L3Ledger.JournalRun

/-!
# What a disclosed balance proves

A seal over a trial balance and a registry commits to their rows and bindings. Leaves
determine what they stand for (`balanceLeaf_inj`, `accountBindingLeaf_inj`), so a pair of
proofs that verifies against the seal names a row and a binding that were there
(`verifyNaming_sound`), whoever made it.

`SealedBalance.assemble` has to tell from the commitments alone what changed since.
`Exact` lists the right answers. They are given unless the registry handed in has fewer
accounts than the seal committed to (`exact_iff`): then the account counts as not yet
registered.

**Assumptions.** `Binding`: no two payloads share a digest under a tag. Proofs may have any
scale and come from anyone.

**Results.**
* `BalanceProof.row_of_verify`, `AccountBindingProof.binding_of_verify`: one proof each.
* `verifyNaming_sound`: a pair of them.
* `verify_proveBindingAt`: a commitment is met exactly by a registry with its first bindings.
* `exact_iff`, `truncated_registry`: when `assemble` answers right, and where it does not.
-/
namespace DoubleEntry.L3

open DoubleEntry.Core DoubleEntry.L1 DoubleEntry.L2

variable {H : Type} [Blake3 H] {P Q : Scale}

/-! ## Leaves -/

/-- A leaf determines the key, the scale and both totals. -/
theorem balanceLeaf_inj (hb : Binding H) {k k' : BalanceKey} {b : Balance P} {b' : Balance Q}
    (h : (balanceLeaf k b : H) = balanceLeaf k' b') :
    k = k' ∧ P = Q ∧ b.debits.minor = b'.debits.minor ∧ b.credits.minor = b'.credits.minor := by
  have h := hb.tagged _ _ _ h
  have hP : P.val < 256 := by omega
  have hQ : Q.val < 256 := by omega
  simp only [List.append_assoc] at h
  obtain ⟨haccount, h⟩ := selfDelimiting_leBytes 4 _ _ _ _ k.account.fits k'.account.fits h
  obtain ⟨hcurrency, h⟩ := selfDelimiting_currency _ _ _ _ trivial trivial h
  obtain ⟨hlayer, h⟩ := selfDelimiting_writeU8 _ _ _ _ k.layer.discriminant_lt k'.layer.discriminant_lt h
  obtain ⟨hscale, h⟩ := selfDelimiting_writeU8 _ _ _ _ hP hQ h
  obtain ⟨hdebits, h⟩ := selfDelimiting_writeI64 _ _ _ _ b.debits.fits b'.debits.fits h
  have hcredits := selfDelimiting_writeI64.injective b.credits.fits b'.credits.fits h
  refine ⟨?_, Fin.ext hscale, hdebits, hcredits⟩
  cases k
  cases k'
  simp only [BalanceKey.mk.injEq]
  exact ⟨AccountId.ext haccount, hcurrency, Layer.discriminant_injective hlayer⟩

theorem length_segment_le {segments : List String} : ∀ {position : Nat}, checkSegments position segments = .ok () →
    ∀ s ∈ segments, s.toList.length ≤ maxSegmentLen := by
  induction segments with
  | nil => exact fun _ s hs => (List.not_mem_nil hs).elim
  | cons seg segments ih =>
    intro position h s hs
    simp only [checkSegments] at h
    split at h
    · cases h
    · rename_i hseg
      rcases List.mem_cons.1 hs with rfl | hs
      · unfold checkSegment at hseg
        split at hseg
        · cases hseg
        · split at hseg
          · cases hseg
          · omega
      · exact ih h s hs

theorem selfDelimiting_accountPath : SelfDelimiting (fun _ => True) (Canonical.encode : AccountPath → Bytes) := by
  refine (selfDelimiting_writeSeq selfDelimiting_writeStr).comp (k := AccountPath.segments) (fun p _ => ?_) fun a b h => ?_
  · have hchecked := p.checked
    unfold AccountPath.check at hchecked
    split at hchecked
    · cases hchecked
    · split at hchecked
      · cases hchecked
      · rename_i hdepth
        unfold maxDepth at hdepth
        refine ⟨by omega, fun s hs => ?_⟩
        have hle := length_segment_le hchecked s hs
        have hutf8 := length_utf8_le s
        unfold maxSegmentLen at hle
        omega
  · cases a
    cases b
    simpa using h

/-- A leaf determines the handle and the path. -/
theorem accountBindingLeaf_inj (hb : Binding H) {id id' : AccountId} {path path' : AccountPath}
    (h : (accountBindingLeaf id path : H) = accountBindingLeaf id' path') : id = id' ∧ path = path' := by
  obtain ⟨hid, h⟩ := selfDelimiting_leBytes 4 _ _ _ _ id.fits id'.fits (hb.tagged _ _ _ h)
  exact ⟨AccountId.ext hid, selfDelimiting_accountPath.injective trivial trivial h⟩

/-! ## Heads -/

/-- The leaves of a trial balance, in its order. -/
def balanceLeaves (tb : TrialBalance P) : List H := tb.entries.entries.map fun e => balanceLeaf e.1 e.2

theorem trialBalanceHead_eq (tb : TrialBalance P) :
    (trialBalanceHead tb : TreeHead H) = ⟨(balanceLeaves tb : List H).length, mth (balanceLeaves tb)⟩ := by
  rw [trialBalanceHead, TrialBalanceCommitment.head, MerkleLog.head_eq, TrialBalanceCommitment.of,
    MerkleLog.leaves_fromLeaves]
  rfl

theorem eq_of_trialBalanceHead (hb : Binding H) {tb tb' : TrialBalance P}
    (h : (trialBalanceHead tb : TreeHead H) = trialBalanceHead tb') : tb = tb' := by
  rw [trialBalanceHead_eq, trialBalanceHead_eq] at h
  have hleaves : (balanceLeaves tb : List H) = balanceLeaves tb' := eq_of_head hb.collisionFree h
  have hrows : tb.entries.entries = tb'.entries.entries := by
    refine List.map_injective_iff.2 (fun e e' he => ?_) hleaves
    obtain ⟨hkey, -, hdebits, hcredits⟩ := balanceLeaf_inj hb he
    exact Prod.ext hkey (Balance.ext (Amount.ext hdebits) (Amount.ext hcredits))
  refine TrialBalance.ext_get fun key => ?_
  unfold TrialBalance.get OrdMap.get?
  rw [hrows]

/-- Registries whose accounts have the same leaves have the same paths. -/
theorem paths_of_bindingLeaves (hb : Binding H) {l l' : List Account}
    (h : (bindingLeaves l : List H) = bindingLeaves l') : l.map Account.path = l'.map Account.path := by
  have hpaths : ∀ ps ps' : List (AccountPath × Nat),
      ps.map (fun e => (accountBindingLeaf (.ofPosition e.2) e.1 : H)) =
        ps'.map (fun e => accountBindingLeaf (.ofPosition e.2) e.1) → ps.map Prod.fst = ps'.map Prod.fst := by
    intro ps
    induction ps with
    | nil => intro ps' he; simpa using he
    | cons p ps ih =>
      intro ps' he
      cases ps' with
      | nil => simp at he
      | cons p' ps' =>
        simp only [List.map_cons, List.cons.injEq] at he ⊢
        exact ⟨(accountBindingLeaf_inj hb he.1).2, ih ps' he.2⟩
  have hfst := hpaths _ _ h
  rwa [List.zipIdx_map_fst, List.zipIdx_map_fst] at hfst

variable [DecidableEq H]

/-! ## Soundness -/

/-- A balance proof that verifies against the head of a trial balance shows a row of it. -/
theorem BalanceProof.row_of_verify (hb : Binding H) {tb : TrialBalance P} {p : BalanceProof H Q}
    (h : p.verify (trialBalanceHead tb) = true) : P = Q ∧ ∃ b, tb.get p.key = some b ∧
      b.debits.minor = p.balance.debits.minor ∧ b.credits.minor = p.balance.credits.minor := by
  unfold BalanceProof.verify at h
  rw [trialBalanceHead_eq] at h
  obtain ⟨-, hleaf, -⟩ := InclusionProof.path_of_verify hb.collisionFree h
  obtain ⟨row, hrow, heq⟩ := List.mem_map.1 (List.mem_of_getElem? hleaf)
  obtain ⟨hkey, hscale, hdebits, hcredits⟩ := balanceLeaf_inj hb heq
  refine ⟨hscale, row.2, ?_, hdebits, hcredits⟩
  rw [← hkey]
  exact OrdMap.mem_entries.1 hrow

/-- A binding proof that verifies against a registry's commitment shows a binding of it. -/
theorem AccountBindingProof.binding_of_verify (hb : Binding H) {r : AccountRegistry} {p : AccountBindingProof H}
    (h : p.verify r.commitment = true) : ∃ a, r.get p.id = some a ∧ a.path = p.path := by
  rw [AccountBindingProof.verify, AccountRegistry.commitment_eq, Bool.and_eq_true, decide_eq_true_eq] at h
  obtain ⟨hindex, h⟩ := h
  rw [← show (bindingLeaves r.accounts : List H).length = r.len from length_bindingLeaves _] at h
  obtain ⟨-, hleaf, -⟩ := InclusionProof.path_of_verify hb.collisionFree h
  rw [hindex] at hleaf
  obtain ⟨hlt, -⟩ := List.getElem?_eq_some_iff.1 hleaf
  rw [length_bindingLeaves] at hlt
  have hget := List.getElem?_eq_getElem hlt
  rw [getElem?_bindingLeaves hget, Option.some.injEq] at hleaf
  exact ⟨_, hget, (accountBindingLeaf_inj hb hleaf).2⟩

/-- **Selective disclosure is sound.** Proofs for which `verify_naming` against the seal of a
trial balance and a registry is true show a row of that trial balance, at its scale, and
the path the registry bound its handle to. -/
theorem verifyNaming_sound (hb : Binding H) {ledger : LedgerId} {period : PeriodId} {coverage : PeriodCoverage}
    {treeHead : TreeHead H} {tb : TrialBalance P} {r : AccountRegistry} {prevSeal : Option H} {p : BalanceProof H Q}
    {binding : AccountBindingProof H}
    (h : p.verifyNaming binding (.build ledger period coverage treeHead tb r.commitment prevSeal) = true) :
    (P = Q ∧ ∃ b, tb.get p.key = some b ∧ b.debits.minor = p.balance.debits.minor ∧
      b.credits.minor = p.balance.credits.minor) ∧
    ∃ a, r.get p.key.account = some a ∧ a.path = binding.path := by
  simp only [BalanceProof.verifyNaming, BalanceProof.verifyAgainst, Bool.and_eq_true, decide_eq_true_eq] at h
  obtain ⟨⟨⟨-, hrow⟩, hid⟩, hbinding⟩ := h
  refine ⟨BalanceProof.row_of_verify hb hrow, ?_⟩
  rw [← hid]
  exact AccountBindingProof.binding_of_verify hb hbinding

/-! ## The answer of `assemble` -/

section
variable {r r' : AccountRegistry} {id : AccountId}

omit [DecidableEq H] in
/-- A handle below the size is proven in the tree of the first bindings. -/
theorem proveBindingAt_eq {size : Nat} (hid : id.index < size) (hsize : size ≤ r.len) : ∃ a, r.get id = some a ∧
    (bindingLeaves (r.accounts.take size) : List H)[id.index]? = some (accountBindingLeaf id a.path) ∧
    (r.proveBindingAt id size : Option (AccountBindingProof H)) =
      some ⟨id, a.path, id.index, size, merkle.auditPath id.index (bindingLeaves (r.accounts.take size))⟩ := by
  have hlt : id.index < r.accounts.length := hid.trans_le hsize
  have hle : size ≤ r.accounts.length := hsize
  have hget : r.accounts[id.index]? = some r.accounts[id.index] := List.getElem?_eq_getElem hlt
  have htake : (r.accounts.take size)[id.index]? = some r.accounts[id.index] := by
    rw [List.getElem?_take, if_pos hid, hget]
  have hlen : (bindingLeaves (r.accounts.take size) : List H).length = size := by
    rw [length_bindingLeaves, List.length_take]
    omega
  refine ⟨r.accounts[id.index], hget, getElem?_bindingLeaves htake, ?_⟩
  unfold AccountRegistry.proveBindingAt
  rw [if_neg (by omega), show r.get id = some r.accounts[id.index] from hget]
  simp only [MerkleLog.inclusionProof, MerkleLog.inclusionProofAt, MerkleLog.len, MerkleLog.leaves_fromLeaves, hlen]
  rw [if_neg (by omega), if_neg (by omega), List.take_of_length_le hlen.le]

/-- The proof verifies against an earlier commitment exactly when its bindings are still the first ones. -/
theorem verify_proveBindingAt (hb : Binding H) (hid : id.index < r.len) (hlen : r.len ≤ r'.len)
    {p : AccountBindingProof H} (hp : r'.proveBindingAt id r.len = some p) :
    p.verify r.commitment = true ↔ r.Grows r' := by
  constructor
  · intro hv
    obtain ⟨a, -, hleaf, hproof⟩ := proveBindingAt_eq (H := H) hid hlen
    rw [hp, Option.some.injEq] at hproof
    subst hproof
    have htake : (bindingLeaves (r'.accounts.take r.len) : List H).length = r.len := by
      rw [length_bindingLeaves, List.length_take]
      exact min_eq_left hlen
    rw [AccountBindingProof.verify, AccountRegistry.commitment_eq, decide_eq_true rfl, Bool.true_and] at hv
    have hsize : (⟨r.len, mth (bindingLeaves r.accounts)⟩ : TreeHead H).size =
        (bindingLeaves (r'.accounts.take r.len) : List H).length := htake.symm
    have hhead := (InclusionProof.verify_honest hleaf hsize).1 (by rw [htake]; exact hv)
    have hleaves : (bindingLeaves r.accounts : List H) = bindingLeaves (r'.accounts.take r.len) := by
      refine eq_of_head hb.collisionFree (TreeHead.mk.injEq .. ▸ ⟨?_, hhead⟩)
      rw [htake, length_bindingLeaves]
      rfl
    have hpaths := paths_of_bindingLeaves hb hleaves
    rw [AccountRegistry.Grows, hpaths, List.map_take]
    exact List.take_prefix _ _
  · intro hgrows
    obtain ⟨p', hp', -, hv⟩ := AccountRegistry.proveBindingAt_verifies (H := H) hgrows hid
    rw [hp, Option.some.injEq] at hp'
    rw [hp']
    exact hv

end

namespace SealedBalance

/-- The right answers about `key` under the seal `s` of `tb` and `r`, for whatever `tb'` and `r'` are handed in. -/
structure Exact (s : Seal H) (tb tb' : TrialBalance P) (r r' : AccountRegistry) (key : BalanceKey) : Prop where
  restated : assemble s tb' r' key = .error (.restated s.period) ↔ tb' ≠ tb
  mismatch : tb' = tb → key.account.index < r.len →
    (assemble s tb' r' key = .error (.registryMismatch s.period) ↔ ¬ r.Grows r')
  proven : tb' = tb → key.account.index < r.len → r.Grows r' → ∀ b, tb.get key = some b → ∃ p,
    assemble s tb' r' key = .ok (.proven p) ∧ p.verify = true ∧ p.seal = s ∧ p.balance.key = key ∧ p.balance.balance = b
  noRow : tb' = tb → key.account.index < r.len → r.Grows r' → tb.get key = none → assemble s tb' r' key = .ok .noRow
  notYetRegistered : assemble s tb' r' key = .ok .notYetRegistered → r.len ≤ key.account.index

/-- The seal of `tb` and `r`. -/
structure SealOf (s : Seal H) (tb : TrialBalance P) (r : AccountRegistry) : Prop where
  self : s.isSelfConsistent = true
  trialBalance : s.trialBalance = trialBalanceHead tb
  accounts : s.accounts = r.commitment

theorem sealOf_build (ledger : LedgerId) (period : PeriodId) (coverage : PeriodCoverage) (treeHead : TreeHead H)
    (tb : TrialBalance P) (r : AccountRegistry) (prevSeal : Option H) :
    SealOf (.build ledger period coverage treeHead tb r.commitment prevSeal) tb r := ⟨decide_eq_true rfl, rfl, rfl⟩

variable {s : Seal H} {tb tb' : TrialBalance P} {r r' : AccountRegistry} {key : BalanceKey}

theorem assemble_restated (hb : Binding H) (hs : SealOf s tb r) (h : tb' ≠ tb) :
    assemble s tb' r' key = .error (.restated s.period) := by
  have hhead : (TrialBalanceCommitment.of tb' : TrialBalanceCommitment H P).head ≠ s.trialBalance := by
    rw [hs.trialBalance]
    exact fun he => h (eq_of_trialBalanceHead hb he)
  unfold assemble
  rw [if_pos hhead]

theorem assemble_none (hs : SealOf s tb r)
    (h : (r'.proveBindingAt key.account r.len : Option (AccountBindingProof H)) = none) :
    assemble s tb r' key = .ok .notYetRegistered := by
  have hhead : ¬ (TrialBalanceCommitment.of tb : TrialBalanceCommitment H P).head ≠ s.trialBalance :=
    not_not.2 hs.trialBalance.symm
  have hsize : s.accounts.size = r.len := by rw [hs.accounts, AccountRegistry.commitment_eq]
  unfold assemble
  simp only [if_neg hhead, hsize, h]

theorem assemble_some (hs : SealOf s tb r) {binding : AccountBindingProof H}
    (h : r'.proveBindingAt key.account r.len = some binding) : assemble s tb r' key =
      if binding.verify r.commitment then
        .ok (((TrialBalanceCommitment.of tb).prove key).elim .noRow fun balance => .proven ⟨s, balance, binding⟩)
      else .error (.registryMismatch s.period) := by
  have hhead : ¬ (TrialBalanceCommitment.of tb : TrialBalanceCommitment H P).head ≠ s.trialBalance :=
    not_not.2 hs.trialBalance.symm
  have hsize : (r.commitment : TreeHead H).size = r.len := by rw [AccountRegistry.commitment_eq]
  unfold assemble
  simp only [if_neg hhead, hs.accounts, hsize, h]
  cases (TrialBalanceCommitment.of tb : TrialBalanceCommitment H P).prove key <;> rfl

/-- A registry with fewer accounts has no binding to show. -/
theorem assemble_short (hs : SealOf s tb r) (h : r'.len < r.len) :
    assemble s tb r' key = .ok .notYetRegistered := by
  apply assemble_none hs
  rw [AccountRegistry.proveBindingAt, if_pos (.inl h)]

/-- A registry with enough accounts is told from the commitment. -/
theorem assemble_mismatch (hb : Binding H) (hs : SealOf s tb r) (hid : key.account.index < r.len)
    (hlen : r.len ≤ r'.len) (h : ¬ r.Grows r') : assemble s tb r' key = .error (.registryMismatch s.period) := by
  obtain ⟨a, -, -, hp⟩ := proveBindingAt_eq (H := H) hid hlen
  rw [assemble_some hs hp, if_neg (mt (verify_proveBindingAt hb hid hlen hp).1 h)]

theorem assemble_ne_restated (hs : SealOf s tb r) : assemble s tb r' key ≠ .error (.restated s.period) := by
  cases hp : (r'.proveBindingAt key.account r.len : Option (AccountBindingProof H)) with
  | none => simp [assemble_none hs hp]
  | some binding =>
    rw [assemble_some hs hp]
    split <;> simp

/-- A registry with enough accounts is not short of one the seal committed to. -/
theorem len_le_of_notYetRegistered (hs : SealOf s tb r) (hlen : key.account.index < r.len → r.len ≤ r'.len)
    (h : assemble s tb r' key = .ok .notYetRegistered) : r.len ≤ key.account.index := by
  by_contra hid
  obtain ⟨a, -, -, hp⟩ := proveBindingAt_eq (H := H) (not_le.1 hid) (hlen (not_le.1 hid))
  rw [assemble_some hs hp] at h
  split at h
  · cases hrow : (TrialBalanceCommitment.of tb : TrialBalanceCommitment H P).prove key <;> simp [hrow] at h
  · cases h

/-- A registry that grew answers for every account the seal committed to. -/
theorem assemble_grown (hs : SealOf s tb r) (hid : key.account.index < r.len) (hg : r.Grows r') :
    (tb.get key = none ∧ assemble s tb r' key = .ok .noRow) ∨
    ∃ p, tb.get key = some p.balance.balance ∧ assemble s tb r' key = .ok (.proven p) ∧ p.verify = true ∧ p.seal = s ∧
      p.balance.key = key := by
  have ha : Answers s tb r.len key (assemble s tb r' key) := assemble_answers key hs.self hs.trialBalance hs.accounts hg
  cases hout : assemble s tb r' key with
  | error e => rw [hout] at ha; exact ha.elim
  | ok outcome =>
    rw [hout] at ha
    cases outcome with
    | notYetRegistered => exact absurd hid (not_lt.2 ha)
    | noRow => exact .inl ⟨ha.2, rfl⟩
    | proven p =>
      obtain ⟨hseal, hv, hkey, -, hget⟩ := ha
      exact .inr ⟨p, hget, rfl, hv, hseal, hkey⟩

theorem exact_restated (hb : Binding H) (hs : SealOf s tb r) (h : tb' ≠ tb) : Exact s tb tb' r r' key := by
  have hres : assemble s tb' r' key = .error (.restated s.period) := assemble_restated hb hs h
  refine ⟨iff_of_true hres h, fun heq => absurd heq h, fun heq => absurd heq h, fun heq => absurd heq h, fun hout => ?_⟩
  rw [hres] at hout
  cases hout

theorem exact_same (hb : Binding H) (hs : SealOf s tb r) (hlen : key.account.index < r.len → r.len ≤ r'.len) :
    Exact s tb tb r r' key where
  restated := iff_of_false (assemble_ne_restated hs) fun h => h rfl
  mismatch _ hid := by
    refine ⟨fun h hg => ?_, assemble_mismatch hb hs hid (hlen hid)⟩
    rcases assemble_grown hs hid hg with ⟨-, hout⟩ | ⟨p, -, hout, -⟩
    · rw [h] at hout; cases hout
    · rw [h] at hout; cases hout
  proven _ hid hg b hrow := by
    rcases assemble_grown hs hid hg with ⟨hnone, -⟩ | ⟨p, hget, hout, hv, hseal, hkey⟩
    · rw [hrow] at hnone; cases hnone
    · rw [hrow, Option.some.injEq] at hget
      exact ⟨p, hout, hv, hseal, hkey, hget.symm⟩
  noRow _ hid hg hrow := by
    rcases assemble_grown hs hid hg with ⟨-, hout⟩ | ⟨p, hget, -⟩
    · exact hout
    · rw [hrow] at hget; cases hget
  notYetRegistered h := len_le_of_notYetRegistered hs hlen h

/-- **When `assemble` answers right.** For a seal built over `tb` and `r`: exactly unless the
same balances come with a registry of fewer accounts, and the account is one of those
the seal committed to. -/
theorem exact_iff (hb : Binding H) (ledger : LedgerId) (period : PeriodId) (coverage : PeriodCoverage)
    (treeHead : TreeHead H) (prevSeal : Option H) :
    Exact (.build ledger period coverage treeHead tb r.commitment prevSeal) tb tb' r r' key ↔
      (tb' = tb → key.account.index < r.len → r.len ≤ r'.len) := by
  have hs := sealOf_build ledger period coverage treeHead tb r prevSeal
  generalize Seal.build ledger period coverage treeHead tb r.commitment prevSeal = s at hs ⊢
  constructor
  · intro h heq hid
    by_contra hlen
    subst heq
    have hle := h.notYetRegistered (assemble_short hs (not_le.1 hlen))
    omega
  · intro hlen
    by_cases heq : tb' = tb
    · subst heq
      exact exact_same hb hs (hlen rfl)
    · exact exact_restated hb hs heq

/-- Cash, with the sale of March. -/
def cashKey : BalanceKey := ⟨cashId, .eur, .settled⟩

/-- The seal of the balances and accounts of March. -/
def marchBooks : Seal Framed :=
  .build books march.id .empty ⟨0, emptyRoot⟩ Journal.marchClosing.balances Journal.marchClosing.accounts.commitment none

theorem sealOf_marchBooks : SealOf marchBooks Journal.marchClosing.balances Journal.marchClosing.accounts :=
  sealOf_build _ _ _ _ _ _ _

set_option maxRecDepth 10000 in
theorem march_cash : Journal.marchClosing.accounts.len = 2 ∧
    (Journal.marchClosing.balances.get cashKey).isSome = true := by decide

/-- Not vacuous: the proofs of the cash balance verify, and show its row and its path. -/
theorem march_cash_disclosed : ∃ (p : BalanceProof Framed cents) (binding : AccountBindingProof Framed),
    p.key = cashKey ∧ p.verifyNaming binding marchBooks = true ∧
    ((cents = cents ∧ ∃ b, Journal.marchClosing.balances.get p.key = some b ∧ b.debits.minor = p.balance.debits.minor ∧
      b.credits.minor = p.balance.credits.minor) ∧
    ∃ a, Journal.marchClosing.accounts.get p.key.account = some a ∧ a.path = binding.path) := by
  obtain ⟨hlen, hrow⟩ := march_cash
  obtain ⟨b, hb⟩ := Option.isSome_iff_exists.1 hrow
  have hid : cashKey.account.index < Journal.marchClosing.accounts.len := by rw [hlen]; decide
  obtain ⟨binding, -, hbid, hbv⟩ := AccountRegistry.proveBindingAt_verifies (H := Framed)
    (AccountRegistry.Grows.refl Journal.marchClosing.accounts) hid
  obtain ⟨p, -, hkey, -, hpv⟩ := prove_some (H := Framed) hb
  have hv : p.verifyNaming binding marchBooks = true := by
    simp only [BalanceProof.verifyNaming, BalanceProof.verifyAgainst, sealOf_marchBooks.self,
      sealOf_marchBooks.trialBalance, sealOf_marchBooks.accounts, hpv, hbid, hkey, hbv, decide_true, Bool.and_true]
  exact ⟨p, binding, hkey, hv, verifyNaming_sound binding_framed hv⟩

/-- Not vacuous: over the registry that was sealed. -/
theorem march_exact : Exact marchBooks Journal.marchClosing.balances Journal.marchClosing.balances
    Journal.marchClosing.accounts Journal.marchClosing.accounts cashKey :=
  (exact_iff binding_framed books march.id .empty ⟨0, emptyRoot⟩ none).2 fun _ _ => le_rfl

/-- Only the first of the two accounts. -/
def cashOnly : AccountRegistry := ((Journal.new books : Journal Preimage cents).after (.register cash)).accounts

set_option maxRecDepth 10000 in
/-- **A truncated registry goes unnoticed.** Asked about the cash account with the balances that were
sealed and a registry that lost an account, the answer is that cash was not registered yet. -/
theorem truncated_registry : cashKey.account.index < Journal.marchClosing.accounts.len ∧
    assemble marchBooks Journal.marchClosing.balances cashOnly cashKey = .ok .notYetRegistered ∧
    ¬ Exact marchBooks Journal.marchClosing.balances Journal.marchClosing.balances Journal.marchClosing.accounts cashOnly
      cashKey := by
  obtain ⟨hlen, -⟩ := march_cash
  have hid : cashKey.account.index < Journal.marchClosing.accounts.len := by rw [hlen]; decide
  have hshort : cashOnly.len < Journal.marchClosing.accounts.len := by rw [hlen]; decide
  have hout : assemble marchBooks Journal.marchClosing.balances cashOnly cashKey = .ok .notYetRegistered :=
    assemble_short sealOf_marchBooks hshort
  exact ⟨hid, hout, fun h => absurd hid (not_lt.2 (h.notYetRegistered hout))⟩

end SealedBalance

end DoubleEntry.L3
