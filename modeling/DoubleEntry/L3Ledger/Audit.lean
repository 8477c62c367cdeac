import DoubleEntry.L3Ledger.Commitments
import DoubleEntry.L3Ledger.ContentHash
import DoubleEntry.L3Ledger.Disclosure
import DoubleEntry.L3Ledger.Sealing

/-!
# What the hash of the last seal gives an auditor

An auditor who holds one published seal hash is shown a chain of seals that ends in it,
and evidence under one of the seals: a sealed balance, or an entry with an inclusion
proof. All of it may come from an adversary (`AcceptedBy`, `EntryAcceptedBy`).

The chain is that of the journal (`seals_of_head`), and every seal of a journal is still
backed by its log, its closing balances and its accounts (`Backed`). So a sealed balance is
accepted exactly when it is what the books closed the period at, under the path of the
account (`audit_exact`); and an entry is accepted exactly when its content is on file at
that position of the log, below the head of the seal (`entry_audit_exact`).

**Assumptions.** `Binding`: no collisions under a tag. `SealChain.Fits`: the counters of the
seals are in range of a `u64`. The journal is reached by ten calls (`Call`), for entries by
operations on sealed entries and calls on what the journal lends (`bookkeeping`).

**Results.**
* `Backed.later`: what a seal committed to is in the books of every later state.
* `Backed.sound`, `Backed.complete`: evidence under a backed seal, both ways.
* `audit_exact`, `entry_audit_exact`: what the holder of the hash accepts is what is there.
-/
namespace DoubleEntry.L3

open DoubleEntry.Core DoubleEntry.L1 DoubleEntry.L2

variable {H : Type} [Blake3 H] [DecidableEq H] {P Q : Scale}

/-! ## What is accepted -/

/-- A chain shown to the holder of a seal hash. -/
structure ShownFor (hash : H) (chain : SealChain H) : Prop where
  fits : chain.Fits
  verifies : chain.verify = .ok ()
  head : chain.head = some hash

/-- A sealed balance under one of its seals. -/
structure AcceptedBy (hash : H) (chain : SealChain H) (evidence : SealedBalance H Q) : Prop where
  shown : ShownFor hash chain
  listed : evidence.seal ∈ chain.seals
  verifies : evidence.verify = true

/-- An entry, sent as a draft, with a proof under the tree head of one of its seals. -/
structure EntryAcceptedBy (hash : H) (chain : SealChain H) (s : Seal H) (proof : InclusionProof H)
    (e : Entry H .draft Q) : Prop where
  shown : ShownFor hash chain
  listed : s ∈ chain.seals
  fits : e.postings.length < 2 ^ 64
  verifies : proof.verify e.digest s.treeHead = true

/-- Two chains shown for one hash hold the same seals. -/
theorem ShownFor.seals_eq (hb : Binding H) {hash : H} {chain chain' : SealChain H} (h : ShownFor hash chain)
    (h' : ShownFor hash chain') : chain.seals = chain'.seals :=
  SealChain.seals_of_head hb h.fits h'.fits h.verifies h'.verifies (h.head.trans h'.head.symm)

omit [DecidableEq H] in
/-- A grown registry keeps the path of a handle. -/
theorem AccountRegistry.Grows.get {r r' : AccountRegistry} (h : r.Grows r') {id : AccountId} {a : Account}
    (ha : r.get id = some a) : ∃ a', r'.get id = some a' ∧ a'.path = a.path := by
  obtain ⟨more, hmore⟩ := h
  have hpath : (r.accounts.map Account.path)[id.index]? = some a.path := by
    rw [List.getElem?_map, show r.accounts[id.index]? = some a from ha, Option.map_some]
  have hlater : (r'.accounts.map Account.path)[id.index]? = some a.path := by
    rw [← hmore, List.getElem?_append_left (List.getElem?_eq_some_iff.1 hpath).1, hpath]
  rw [List.getElem?_map, Option.map_eq_some_iff] at hlater
  exact hlater

namespace SealChain

omit [Blake3 H] [DecidableEq H] in
theorem mem_of_get {c : SealChain H} {period : PeriodId} {s : Seal H} (h : c.get period = some s) :
    s ∈ c.seals ∧ s.period = period :=
  ⟨List.mem_of_find?_eq_some h, by simpa using List.find?_some (show c.seals.find? _ = some s from h)⟩

/-- A chain made by pushes holds one seal a period. -/
theorem get_of_mem {ledger : LedgerId} {c : SealChain H} (h : (pushes ledger).Reachable c) {s : Seal H}
    (hs : s ∈ c.seals) : c.get s.period = some s := by
  refine LTS.Inductive.reachable (T := pushes ledger) (I := fun c => ∀ s ∈ c.seals, c.get s.period = some s)
    ⟨?_, ?_⟩ h s hs
  · rintro _ rfl s hs
    exact (List.not_mem_nil hs).elim
  · rintro c x c' hc rfl s hs
    unfold offer at hs ⊢
    cases hp : c.push x with
    | error e =>
      rw [hp] at hs
      exact hc s hs
    | ok c' =>
      obtain ⟨rfl, -, hnew⟩ := push_eq_ok hp
      rw [hp] at hs
      simp only at hs ⊢
      rw [get_add]
      rcases List.mem_append.1 (show s ∈ c.seals ++ [x] from hs) with hs | hs
      · rw [hc s hs, Option.some_or]
      · rw [List.mem_singleton.1 hs, hnew, Option.none_or, if_pos rfl]

end SealChain

namespace Journal

/-! ## Seals are backed by the books -/

/-- What a seal committed to is in the books as they are now: the log at its head, the balances
its period closed at, and the accounts it counted. -/
structure Backed (j : Journal H P) (s : Seal H) : Prop where
  self : s.isSelfConsistent = true
  log : j.headAt s.treeHead.size = .ok s.treeHead
  accounts : ∃ r : AccountRegistry, r.Grows j.accounts ∧ s.accounts = r.commitment
  closing : ∃ q closing, j.calendar.get s.period = some q ∧ (∃ d ∈ j.calendar.sealedThrough, q.end ≤ d) ∧
    j.trialBalanceThroughDate q.end = .ok closing ∧ s.trialBalance = trialBalanceHead closing ∧
    ∀ key b, closing.get key = some b → key.account.index < s.accounts.size

theorem Backed.later {j j' : Journal H P} {s : Seal H} (h : j.Backed s) (hext : Extends j j')
    (hlog : j.log.leaves <+: j'.log.leaves) : j'.Backed s where
  self := h.self
  log := headAt_stays hlog h.log
  accounts := by
    obtain ⟨r, hr, hs⟩ := h.accounts
    exact ⟨r, hr.trans hext.accounts, hs⟩
  closing := by
    obtain ⟨q, closing, hq, ⟨d, hd, hle⟩, hclosing, hs, hrows⟩ := h.closing
    obtain ⟨q', hq', -, hend⟩ := hext.ranges _ _ hq
    obtain ⟨d', hd', hle'⟩ := hext.watermark d hd
    obtain ⟨later, hlater, hafter⟩ := hext.entries
    refine ⟨q', closing, hq', ⟨d', hd', hend ▸ hle.trans hle'⟩, ?_, hs, hrows⟩
    -- what is booked since lies after the watermark, and so after the period
    rw [hend, trialBalanceThroughDate, hlater]
    exact (closingBalance_append fun e he => hle.trans_lt (hafter e he d hd)).trans hclosing

theorem backed_after {j : Journal H P} (hlog : j.Logged) (hreg : j.Registered) (h : ∀ s ∈ j.seals.seals, j.Backed s)
    (k : Call H P) : ∀ s ∈ (j.after k).seals.seals, (j.after k).Backed s := by
  have hleaves : j.log.leaves <+: (j.after k).log.leaves := mutate_log hlog (.call k)
  have heff := j.after_effect k
  generalize j.after k = j' at heff hleaves
  have hold : ∀ s ∈ j.seals.seals, j'.Backed s := fun s hs => (h s hs).later heff.extends hleaves
  cases heff with
  | data => exact hold
  | recorded => exact hold
  | defined => exact hold
  | moved => exact hold
  | @sealed id q closing sealable closed pushed =>
    intro s hs
    rcases List.mem_append.1 (show s ∈ j.seals.seals ++ [j.buildSeal q closing id] from hs) with hs | hs
    · exact hold s hs
    · obtain rfl := List.mem_singleton.1 hs
      obtain ⟨-, -, -, hafter⟩ := PeriodCalendar.checkSealable_eq_ok.1 sealable
      refine ⟨decide_eq_true rfl, headAt_head j.log, ⟨j.accounts, .refl _, rfl⟩, { q with state := .sealed }, closing,
        PeriodCalendar.get_store.trans (if_pos rfl), ⟨q.end, PeriodCalendar.markSealedThrough_of_after rfl hafter, le_rfl⟩,
        closed, rfl, fun key b hb => ?_⟩
      obtain ⟨e, he, p, hp, rfl⟩ := exists_posting_of_row closed hb
      rw [(size_buildSeal hlog q closing id).2]
      exact hreg e he p hp

/-- What runs of calls keep. -/
structure Audited (j : Journal H P) : Prop where
  logged : j.Logged
  registered : j.Registered
  backed : ∀ s ∈ j.seals.seals, j.Backed s
  pushed : (SealChain.pushes j.ledger).Reachable j.seals

theorem audited_of_reachable {ledger : LedgerId} {j : Journal H P} (hj : (calls ledger).Reachable j) : j.Audited := by
  refine LTS.Inductive.reachable (T := calls ledger) ⟨?_, ?_⟩ hj
  · rintro _ ⟨policy, rfl⟩
    exact ⟨rfl, fun e he => (List.not_mem_nil he).elim, fun s hs => (List.not_mem_nil hs).elim,
      LTS.Reachable.of_init (T := SealChain.pushes ledger) rfl⟩
  · rintro j k j' hj rfl
    refine ⟨mutate_logged hj.logged (.call k), (registered_stable ledger).step j k _ hj.registered rfl,
      backed_after hj.logged hj.registered hj.backed k, ?_⟩
    have heff := j.after_effect k
    generalize j.after k = j' at heff
    cases heff with
    | data => exact hj.pushed
    | recorded => exact hj.pushed
    | defined => exact hj.pushed
    | moved => exact hj.pushed
    | @sealed id q closing _ _ pushed =>
      refine hj.pushed.step (l := j.buildSeal q closing id) ?_
      show j.seals.add (j.buildSeal q closing id) = j.seals.offer (j.buildSeal q closing id)
      rw [SealChain.offer, pushed]

/-! ## Sealed balances -/

theorem Audited.shown {j : Journal H P} (h : j.Audited) (hfits : j.seals.Fits) {hash : H}
    (hhash : j.seals.head = some hash) : ShownFor hash j.seals :=
  ⟨hfits, (SealChain.verify_of_reachable h.pushed).2, hhash⟩

/-- Evidence that verifies under a backed seal shows a row of the closing balances, and the path of its account. -/
theorem Backed.sound (hb : Binding H) {j : Journal H P} {evidence : SealedBalance H Q} (h : j.Backed evidence.seal)
    (hv : evidence.verify = true) : P = Q ∧ ∃ q closing b a, j.calendar.get evidence.seal.period = some q ∧
      j.trialBalanceThroughDate q.end = .ok closing ∧ closing.get evidence.balance.key = some b ∧
      b.debits.minor = evidence.balance.balance.debits.minor ∧
      b.credits.minor = evidence.balance.balance.credits.minor ∧
      j.accounts.get evidence.balance.key.account = some a ∧ a.path = evidence.binding.path := by
  simp only [SealedBalance.verify, BalanceProof.verifyNaming, BalanceProof.verifyAgainst, Bool.and_eq_true,
    decide_eq_true_eq] at hv
  obtain ⟨⟨⟨-, hrow⟩, hid⟩, hbinding⟩ := hv
  obtain ⟨q, closing, hq, -, hclosing, hs, -⟩ := h.closing
  obtain ⟨r, hr, hs'⟩ := h.accounts
  rw [hs] at hrow
  rw [hs'] at hbinding
  obtain ⟨hscale, b, hget, hdebits, hcredits⟩ := BalanceProof.row_of_verify hb hrow
  obtain ⟨a, ha, hpath⟩ := AccountBindingProof.binding_of_verify hb hbinding
  obtain ⟨a', ha', hpath'⟩ := hr.get ha
  exact ⟨hscale, q, closing, b, a', hq, hclosing, hget, hdebits, hcredits, hid ▸ ha', hpath'.trans hpath⟩

/-- A row of the closing balances of a backed seal has evidence that verifies. -/
theorem Backed.complete (hb : Binding H) {j : Journal H P} {s : Seal H} (h : j.Backed s) {q : Period}
    {closing : TrialBalance P} {key : BalanceKey} {b : Balance P} {a : Account}
    (hq : j.calendar.get s.period = some q) (hclosing : j.trialBalanceThroughDate q.end = .ok closing)
    (hrow : closing.get key = some b) (ha : j.accounts.get key.account = some a) :
    ∃ evidence : SealedBalance H P, evidence.verify = true ∧ evidence.seal = s ∧ evidence.balance.key = key ∧
      evidence.balance.balance = b ∧ evidence.binding.path = a.path := by
  obtain ⟨q', closing', hq', -, hclosing', hs, hrows⟩ := h.closing
  obtain rfl : q = q' := by simpa [hq] using hq'
  obtain rfl : closing = closing' := by simpa [hclosing] using hclosing'
  obtain ⟨r, hr, hs'⟩ := h.accounts
  have hsize : s.accounts.size = r.len := by rw [hs', AccountRegistry.commitment_eq]
  have hanswers := SealedBalance.assemble_answers key h.self hs hs' hr
  rcases SealedBalance.assemble_grown ⟨h.self, hs, hs'⟩ (hsize ▸ hrows key b hrow) hr with
    ⟨hnone, -⟩ | ⟨evidence, hget, hout, hv, hseal, hkey⟩
  · rw [hrow] at hnone
    cases hnone
  · refine ⟨evidence, hv, hseal, hkey, by rw [hrow] at hget; exact (Option.some.inj hget).symm, ?_⟩
    -- the path is the one of the account, as any evidence shows it
    obtain ⟨-, -, -, -, a', -, -, -, -, -, ha', hpath⟩ := (hseal ▸ h : j.Backed evidence.seal).sound hb hv
    rw [hkey, ha] at ha'
    rw [← hpath, Option.some.inj ha']

/-- What `prove_sealed_balance` proves is evidence under a seal of the chain. -/
theorem Audited.proven {j : Journal H P} (h : j.Audited) {period : PeriodId} {key : BalanceKey}
    {evidence : SealedBalance H P} (hp : j.proveSealedBalance period key = .ok (.proven evidence)) :
    evidence.seal ∈ j.seals.seals ∧ evidence.verify = true ∧ ∃ q closing, j.calendar.get evidence.seal.period = some q ∧
      j.trialBalanceThroughDate q.end = .ok closing ∧ closing.get key = some evidence.balance.balance := by
  unfold proveSealedBalance at hp
  cases hs : j.seals.get period with
  | none =>
    rw [hs] at hp
    cases hp
  | some s =>
    have hin := (SealChain.mem_of_get hs).1
    obtain ⟨q, closing, hq, -, hclosing, htrial, -⟩ := (h.backed s hin).closing
    obtain ⟨r, hr, hacc⟩ := (h.backed s hin).accounts
    simp only [hs, hq, hclosing, mapError_eq_ok] at hp
    have hanswers := SealedBalance.assemble_answers key (h.backed s hin).self htrial hacc hr
    rw [hp] at hanswers
    obtain ⟨rfl, hv, -, -, hrow⟩ := hanswers
    exact ⟨hin, hv, q, closing, hq, hclosing, hrow⟩

/-- What is accepted is what the books say. -/
theorem Audited.sound (hb : Binding H) {j : Journal H P} (h : j.Audited) (hfits : j.seals.Fits) {hash : H}
    (hhash : j.seals.head = some hash) {chain : SealChain H} {evidence : SealedBalance H Q}
    (hacc : AcceptedBy hash chain evidence) : P = Q ∧ ∃ q closing b a,
      j.seals.get evidence.seal.period = some evidence.seal ∧ j.calendar.get evidence.seal.period = some q ∧
      j.trialBalanceThroughDate q.end = .ok closing ∧ closing.get evidence.balance.key = some b ∧
      b.debits.minor = evidence.balance.balance.debits.minor ∧
      b.credits.minor = evidence.balance.balance.credits.minor ∧
      j.accounts.get evidence.balance.key.account = some a ∧ a.path = evidence.binding.path := by
  have hlisted : evidence.seal ∈ j.seals.seals := hacc.shown.seals_eq hb (h.shown hfits hhash) ▸ hacc.listed
  obtain ⟨hscale, q, closing, b, a, hrest⟩ := (h.backed _ hlisted).sound hb hacc.verifies
  exact ⟨hscale, q, closing, b, a, SealChain.get_of_mem h.pushed hlisted, hrest⟩

/-- **The hash of the last seal pins the closing balances.** Whoever holds it accepts a balance
of an account for a period exactly when the period is sealed, the books closed it at that
balance, and still do, and the account has that path. -/
theorem audit_exact {ledger : LedgerId} {j : Journal H P} (hb : Binding H) (hj : (calls ledger).Reachable j)
    (hfits : j.seals.Fits) {hash : H} (hhash : j.seals.head = some hash) :
    (∀ {Q : Scale} (chain : SealChain H) (evidence : SealedBalance H Q), AcceptedBy hash chain evidence → P = Q) ∧
    ∀ (period : PeriodId) (key : BalanceKey) (balance : Balance P) (path : AccountPath),
      (∃ (chain : SealChain H) (evidence : SealedBalance H P), AcceptedBy hash chain evidence ∧
        evidence.seal.period = period ∧ evidence.balance.key = key ∧ evidence.balance.balance = balance ∧
        evidence.binding.path = path) ↔
      ∃ s q closing a, j.seals.get period = some s ∧ j.calendar.get period = some q ∧
        j.trialBalanceThroughDate q.end = .ok closing ∧ closing.get key = some balance ∧
        j.accounts.get key.account = some a ∧ a.path = path := by
  have haudited := audited_of_reachable hj
  refine ⟨fun chain evidence h => (haudited.sound hb hfits hhash h).1, fun period key balance path => ⟨?_, ?_⟩⟩
  · rintro ⟨chain, evidence, h, rfl, rfl, rfl, rfl⟩
    obtain ⟨-, q, closing, b, a, hs, hq, hclosing, hget, hdebits, hcredits, ha, hpath⟩ := haudited.sound hb hfits hhash h
    obtain rfl : b = evidence.balance.balance := Balance.ext (Amount.ext hdebits) (Amount.ext hcredits)
    exact ⟨_, q, closing, a, hs, hq, hclosing, hget, ha, hpath⟩
  · rintro ⟨s, q, closing, a, hs, hq, hclosing, hget, ha, rfl⟩
    obtain ⟨hin, rfl⟩ := SealChain.mem_of_get hs
    obtain ⟨evidence, hv, hseal, hkey, hbalance, hpath⟩ := (haudited.backed s hin).complete hb hq hclosing hget ha
    exact ⟨j.seals, evidence, ⟨haudited.shown hfits hhash, hseal ▸ hin, hv⟩, by rw [hseal], hkey, hbalance, hpath⟩

/-! ## Entries -/

theorem sealsCommit_operate {j : Journal H P} (h : j.SealsCommit) (hj : j.Logged) {o : Operation H P} (ho : j.Borrows o) :
    (j.operate o).SealsCommit := by
  cases o with
  | mutate m => exact h.mutate hj m
  | accountsMut accounts =>
    obtain ⟨ks, rfl⟩ := ho
    have hgrows := AccountRegistry.grows_of_run (AccountRegistry.run_afterAll j.accounts ks)
    exact fun s hs => ⟨(h s hs).1, headAt_stays (bindingLog_grows hgrows) (h s hs).2⟩
  | calendarMut calendar => exact h
  | withPolicy policy => exact h

theorem sealsCommit_of_reachable {ledger : LedgerId} {j : Journal H P} (hj : (bookkeeping ledger).Reachable j) :
    j.Kept ∧ j.SealsCommit := by
  refine LTS.Inductive.reachable (T := bookkeeping ledger) (I := fun j => j.Kept ∧ j.SealsCommit) ⟨?_, ?_⟩ hj
  · rintro _ rfl
    exact ⟨kept_new ledger, fun s hs => (List.not_mem_nil hs).elim⟩
  · rintro j o j' ⟨hk, hc⟩ st
    obtain ⟨hs, ho⟩ := LTS.restrict_step.1 st
    obtain ⟨rfl, hseals⟩ := LTS.restrict_step.1 hs
    exact ⟨hk.operate hseals, sealsCommit_operate hc hk.posted.logged ho⟩

omit [DecidableEq H] in
/-- A head that the log recomputes is that of its first leaves. -/
theorem headAt_leaves {log : MerkleLog H} {h : TreeHead H} (hh : log.headAt h.size = .ok h) :
    h.size ≤ log.leaves.length ∧ h = ⟨(log.leaves.take h.size).length, mth (log.leaves.take h.size)⟩ := by
  unfold MerkleLog.headAt MerkleLog.rootAt at hh
  by_cases hlt : log.leaves.length < h.size
  · rw [if_pos hlt] at hh
    cases hh
  · rw [if_neg hlt] at hh
    have hle : h.size ≤ log.leaves.length := not_lt.1 hlt
    refine ⟨hle, ?_⟩
    rw [List.length_take, min_eq_left hle]
    exact (Except.ok.inj hh).symm

omit [DecidableEq H] in
/-- Entries whose hashes are on file have the content on file. -/
theorem content_of_leaf (hb : Binding H) {j : Journal H P} (hk : j.Kept) {e : Entry H .draft Q}
    (hlen : e.postings.length < 2 ^ 64) {index : Nat} : j.log.leaves[index]? = some e.digest ↔
      ∃ recorded, j.entries[index]? = some recorded ∧ e.content = recorded.content := by
  rw [hk.posted.logged, List.getElem?_map, Option.map_eq_some_iff]
  refine exists_congr fun recorded => and_congr_right fun hrec => ?_
  obtain ⟨draft, ctx, hseal⟩ := hk.fromSeal recorded (List.mem_of_getElem? hrec)
  have hshort := (Entry.length_of_seal hseal).2
  have hlen' : recorded.postings.length < 2 ^ 64 := by
    unfold maxPostings at hshort
    omega
  have hiff := Entry.digest_eq_iff hb hlen hlen'
  exact ⟨fun h => hiff.1 h.symm, fun h => (hiff.2 h).symm⟩

/-- **The hash of the last seal pins the entries.** Whoever holds it accepts an entry at a
position under the seal of a period exactly when the period is sealed, the log was longer than
that when it was, and the content of the entry is the one on file there. -/
theorem entry_audit_exact {ledger : LedgerId} {j : Journal H P} (hb : Binding H)
    (hj : (bookkeeping ledger).Reachable j) (hfits : j.seals.Fits) {hash : H} (hhash : j.seals.head = some hash)
    {e : Entry H .draft Q} (hlen : e.postings.length < 2 ^ 64) (period : PeriodId) (index : Nat) :
    (∃ (chain : SealChain H) (s : Seal H) (proof : InclusionProof H), EntryAcceptedBy hash chain s proof e ∧
      s.period = period ∧ proof.leafIndex = index) ↔
    ∃ s recorded, j.seals.get period = some s ∧ index < s.treeHead.size ∧ j.entries[index]? = some recorded ∧
      e.content = recorded.content := by
  obtain ⟨hk, hcommit⟩ := sealsCommit_of_reachable hj
  have hchained := (chained_of_reachable hj).2
  have hshown : ShownFor hash j.seals := ⟨hfits, (SealChain.verify_of_reachable hchained.pushed).2, hhash⟩
  constructor
  · rintro ⟨chain, s, proof, h, rfl, rfl⟩
    have hin : s ∈ j.seals.seals := h.shown.seals_eq hb hshown ▸ h.listed
    obtain ⟨hle, hhead⟩ := headAt_leaves (hcommit s hin).1
    have hv := h.verifies
    rw [hhead] at hv
    obtain ⟨-, hleaf, -⟩ := InclusionProof.path_of_verify hb.collisionFree hv
    have hlt : proof.leafIndex < s.treeHead.size := by
      have := (List.getElem?_eq_some_iff.1 hleaf).1
      rw [List.length_take] at this
      omega
    rw [List.getElem?_take, if_pos hlt] at hleaf
    obtain ⟨recorded, hrec, hcontent⟩ := (content_of_leaf hb hk hlen).1 hleaf
    exact ⟨s, recorded, SealChain.get_of_mem hchained.pushed hin, hlt, hrec, hcontent⟩
  · rintro ⟨s, recorded, hs, hlt, hrec, hcontent⟩
    obtain ⟨hin, hperiod⟩ := SealChain.mem_of_get hs
    obtain ⟨hle, hhead⟩ := headAt_leaves (hcommit s hin).1
    have hleaf := (content_of_leaf hb hk hlen).2 ⟨recorded, hrec, hcontent⟩
    obtain ⟨proof, hp, hv⟩ := MerkleLog.inclusionProofAt_verifies hle hlt hleaf
    rw [MerkleLog.inclusionProofAt, if_neg (by omega), if_neg (by omega)] at hp
    have hindex : proof.leafIndex = index := by rw [← Except.ok.inj hp]
    refine ⟨j.seals, s, proof, ⟨hshown, hin, hlen, ?_⟩, hperiod, hindex⟩
    rw [hhead, List.length_take, min_eq_left hle]
    exact hv

/-! ## March, sealed -/

/-- The sale of March. -/
def framedDraft : Entry Framed .draft cents :=
  ((Entry.new saleOfMarch.id saleOfMarch.idempotencyKey march.end).post (.debit cashId tenEuro .eur)).post
    (.credit salesId tenEuro .eur)

/-- Two accounts, the sale, and March closing. -/
def framedClosing : Journal Framed cents :=
  ((new books).withPolicy .permissive).afterAll
    [.register cash, .register sales, .definePeriod march, .record framedDraft, .transitionPeriod march.id .closing]

def framedBooks : Journal Framed cents := framedClosing.after (.sealPeriod march.id)

theorem reachable_framedBooks : (calls books).Reachable framedBooks :=
  (reachable_afterAll books .permissive _).step rfl

theorem booked_framedClosing : (bookkeeping books).Reachable framedClosing :=
  ⟨new books, _, rfl, run_bookkeeping books (new books)
    [.register cash, .register sales, .definePeriod march, .record framedDraft, .transitionPeriod march.id .closing]⟩

theorem booked_framedBooks : (bookkeeping books).Reachable framedBooks :=
  ⟨new books, _, rfl, run_bookkeeping books (new books)
    [.register cash, .register sales, .definePeriod march, .record framedDraft, .transitionPeriod march.id .closing,
      .sealPeriod march.id]⟩

set_option maxRecDepth 10000 in
theorem framedClosing_due : framedClosing.calendar.checkSealable march.id = .ok { march with state := .closing } ∧
    framedClosing.entries = [framedDraft.withState .balanced] ∧ framedClosing.accounts.accounts = [cash, sales] ∧
    framedClosing.seals.seals = [] ∧
    (framedClosing.trialBalanceThroughDate march.end).toOption.map (fun tb =>
      (tb.entries.entries.length, tb.get SealedBalance.cashKey)) =
        some (2, some ⟨tenEuro, ⟨0, by decide⟩⟩) := by decide

/-- The seal of March is the only one, and it counts one entry and two accounts. -/
theorem framedBooks_seal : ∃ s closing, framedBooks.seals.seals = [s] ∧ s.toSealBody.Fits ∧ s.period = march.id ∧
    s.treeHead.size = 1 ∧ framedBooks.entries = [framedDraft.withState .balanced] ∧
    framedBooks.accounts.accounts = [cash, sales] ∧
    framedBooks.calendar.get march.id = some { march with state := .sealed } ∧
    framedBooks.trialBalanceThroughDate march.end = .ok closing ∧
    closing.get SealedBalance.cashKey = some ⟨tenEuro, ⟨0, by decide⟩⟩ := by
  obtain ⟨hdue, hentries, haccounts, hseals, hrows⟩ := framedClosing_due
  obtain ⟨hk, hc⟩ := chained_of_reachable booked_framedClosing
  obtain ⟨closing, hclosing, -, hseal⟩ := sealPeriod_of_sealable hc hk hdue
  have hclosing : framedClosing.trialBalanceThroughDate march.end = .ok closing := hclosing
  rw [hclosing] at hrows
  obtain ⟨hlen, hrow⟩ := Prod.mk.injEq .. ▸ Option.some.inj hrows
  obtain ⟨hsize, hsize'⟩ := size_buildSeal hk.posted.logged { march with state := .closing } closing march.id
  have hbooks : framedBooks = _ := congrArg Prod.snd hseal
  have hcoverage : coverageOf framedClosing.entries march.start march.end = ⟨some 0, some 0, 1⟩ := by
    rw [hentries]
    decide
  have hheads : (trialBalanceHead closing : TreeHead Framed).size = 2 := by
    rw [trialBalanceHead_eq]
    exact (List.length_map _).trans hlen
  refine ⟨framedClosing.buildSeal { march with state := .closing } closing march.id, closing, ?_, ⟨?_, ?_, ?_, ?_, ?_, ?_⟩,
    rfl, by rw [hsize, hentries]; rfl, by rw [hbooks]; exact hentries, by rw [hbooks]; exact haccounts, ?_, ?_, hrow⟩
  · rw [hbooks]
    show framedClosing.seals.seals ++ _ = _
    rw [hseals, List.nil_append]
  · rw [show (framedClosing.buildSeal _ closing march.id).firstIndex = some 0 from congrArg (·.firstIndex) hcoverage]
    decide
  · rw [show (framedClosing.buildSeal _ closing march.id).lastIndex = some 0 from congrArg (·.lastIndex) hcoverage]
    decide
  · rw [show (framedClosing.buildSeal _ closing march.id).entryCount = 1 from congrArg (·.entryCount) hcoverage]
    decide
  · rw [hsize, hentries]
    decide
  · rw [show (framedClosing.buildSeal _ closing march.id).trialBalance.size = 2 from hheads]
    decide
  · rw [hsize', AccountRegistry.len, haccounts]
    decide
  · rw [hbooks]
    exact PeriodCalendar.get_store.trans (if_pos rfl)
  · rw [hbooks]
    exact hclosing

theorem fits_of_singleton {chain : SealChain Framed} {s : Seal Framed} (h : chain.seals = [s]) (hs : s.toSealBody.Fits) :
    chain.Fits ∧ chain.head = some s.sealHash := by
  refine ⟨fun x hx => ?_, by rw [SealChain.head, h]; rfl⟩
  rw [h] at hx
  rw [List.mem_singleton.1 hx]
  exact hs

/-- Not vacuous: the holder of the hash of March's seal accepts ten euro on the debit side of cash. -/
theorem march_audited : ∃ (hash : Framed) (chain : SealChain Framed) (evidence : SealedBalance Framed cents),
    framedBooks.seals.head = some hash ∧ AcceptedBy hash chain evidence ∧ evidence.seal.period = march.id ∧
    evidence.balance.key = SealedBalance.cashKey ∧ evidence.balance.balance.debits = tenEuro ∧
    evidence.binding.path = cash.path := by
  obtain ⟨s, closing, hseals, hfits, hperiod, -, -, haccounts, hget, hclosing, hrow⟩ := framedBooks_seal
  obtain ⟨hall, hhead⟩ := fits_of_singleton hseals hfits
  obtain ⟨-, hexact⟩ := audit_exact binding_framed reachable_framedBooks hall hhead
  have hs : framedBooks.seals.get march.id = some s := by rw [SealChain.get, hseals]; simp [hperiod]
  have ha : framedBooks.accounts.get SealedBalance.cashKey.account = some cash := by
    rw [AccountRegistry.get, haccounts]
    rfl
  obtain ⟨chain, evidence, h, hp, hk, hb, hpath⟩ := (hexact march.id SealedBalance.cashKey ⟨tenEuro, ⟨0, by decide⟩⟩
    cash.path).2 ⟨s, _, closing, cash, hs, hget, hclosing, hrow, ha, rfl⟩
  exact ⟨_, chain, evidence, hhead, h, hp, hk, by rw [hb], hpath⟩

/-- Not vacuous: and it accepts the sale of March, as the first entry. -/
theorem march_entry_audited : ∃ (hash : Framed) (chain : SealChain Framed) (s : Seal Framed)
    (proof : InclusionProof Framed), framedBooks.seals.head = some hash ∧
    EntryAcceptedBy hash chain s proof framedDraft ∧ s.period = march.id ∧ proof.leafIndex = 0 := by
  obtain ⟨s, closing, hseals, hfits, hperiod, hsize, hentries, -⟩ := framedBooks_seal
  obtain ⟨hall, hhead⟩ := fits_of_singleton hseals hfits
  have hs : framedBooks.seals.get march.id = some s := by rw [SealChain.get, hseals]; simp [hperiod]
  obtain ⟨chain, s', proof, h, hp, hindex⟩ := (entry_audit_exact binding_framed booked_framedBooks hall hhead
    (show framedDraft.postings.length < 2 ^ 64 by decide) march.id 0).2
    ⟨s, framedDraft.withState .balanced, hs, by rw [hsize]; decide, by rw [hentries]; rfl, rfl⟩
  exact ⟨_, chain, s', proof, hhead, h, hp, hindex⟩

end Journal

end DoubleEntry.L3
