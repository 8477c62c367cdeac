import DoubleEntry.L3Ledger.Corrections
import DoubleEntry.L3Ledger.Representation

/-!
# Balance limits

The limits of an entry are checked on the balances it would leave, once for each key
it touches. So an account whose limit is set before it is posted to satisfies it in
every state (`limited_of_run`), and the check does not see the order of the postings
(`refusedForLimit_perm`): only a reversal, whose postings have to line up with those
of its original, can be refused for something else instead.

**Assumptions.** Operations on sealed entries. For the first part the account has no postings
when its limit is set, and the limit is not changed afterwards (`KeepsLimit`).

**Results.**
* `checkLimitsLoop_cases`: the loop permits every limit the postings touch, or names one.
* `limited_of_run`, `refusedForLimit_perm`, and both in `limits_kept`.
* `takenBack_reordered`: the reversal for which the order matters.
-/
namespace DoubleEntry.L3.Journal

open DoubleEntry.Core DoubleEntry.L1

variable {H : Type} [Blake3 H] {P : Scale}

/-! ## The check -/

omit [Blake3 H] in
/-- Every limit the postings touch. -/
def Permitted (accounts : AccountRegistry) (after : TrialBalance P) (postings : List (Posting P)) : Prop :=
  ∀ p ∈ postings, (accounts.limitOf p.account).permits (after.getOrZero p.key) = true

omit [Blake3 H] in
/-- The loop passes the keys it has not seen. -/
theorem checkLimitsLoop_cases (accounts : AccountRegistry) (after : TrialBalance P) (postings : List (Posting P)) :
    ∀ checked : List BalanceKey,
      (∀ key ∈ checked, (accounts.limitOf key.account).permits (after.getOrZero key) = true) →
      (checkLimitsLoop (H := H) accounts after checked postings = .ok () ∧ Permitted accounts after postings) ∨
      ∃ account currency layer limit net, checkLimitsLoop (H := H) accounts after checked postings =
        .error (.limitBreached account currency layer limit net P.val) ∧ ¬ Permitted accounts after postings := by
  induction postings with
  | nil => exact fun checked _ => .inl ⟨rfl, fun p hp => absurd hp List.not_mem_nil⟩
  | cons p postings ih =>
    intro checked hchecked
    have hcons : Permitted accounts after (p :: postings) ↔
        (accounts.limitOf p.account).permits (after.getOrZero p.key) = true ∧ Permitted accounts after postings := by
      simp [Permitted]
    unfold checkLimitsLoop
    simp only
    by_cases hmem : p.key ∈ checked
    · have hp : (accounts.limitOf p.account).permits (after.getOrZero p.key) = true := hchecked p.key hmem
      simp only [hmem, if_true, hcons, hp, true_and]
      exact ih checked hchecked
    · by_cases hp : (accounts.limitOf p.key.account).permits (after.getOrZero p.key) = true
      · have hp' : (accounts.limitOf p.account).permits (after.getOrZero p.key) = true := hp
        simp only [hmem, if_false, hp, if_true, hcons, hp', true_and]
        refine ih (p.key :: checked) fun key hkey => ?_
        rcases List.mem_cons.1 hkey with rfl | hkey
        · exact hp
        · exact hchecked key hkey
      · simp only [hmem, if_false, hp]
        exact .inr ⟨_, _, _, _, _, rfl, fun h => hp (hcons.1 h).1⟩

theorem checkLimits_cases (j : Journal H P) (entry : Entry H .balanced P) (after : TrialBalance P) :
    (j.checkLimits entry after = .ok () ∧ Permitted j.accounts after entry.postings) ∨
    ∃ account currency layer limit net, j.checkLimits entry after =
      .error (.limitBreached account currency layer limit net P.val) ∧ ¬ Permitted j.accounts after entry.postings :=
  checkLimitsLoop_cases _ _ _ [] fun _ h => absurd h List.not_mem_nil

/-! ## Runs -/

/-- The account keeps its limit, and its balances are within it. -/
def Limited (a : AccountId) (limit : BalanceLimit) (j : Journal H P) : Prop :=
  j.accounts.limitOf a = limit ∧ ∀ key : BalanceKey, key.account = a → limit.permits (j.balances.getOrZero key) = true

theorem permits_zero (limit : BalanceLimit) : limit.permits (Balance.zero : Balance P) = true := by
  cases limit <;> simp [BalanceLimit.permits, Balance.zero]

theorem limited_of_unposted {j : Journal H P} (hj : j.Posted) {a : AccountId}
    (hnone : ∀ e ∈ j.entries, ∀ p ∈ e.postings, p.account ≠ a) : Limited a (j.accounts.limitOf a) j := by
  refine ⟨rfl, fun key hkey => ?_⟩
  have hrow : j.balances.get key = none := by
    have hiff := (totals_of_applyAll hj.folded).row key
    rw [← Option.not_isSome_iff_eq_none, hiff]
    intro ⟨p, hp, hk⟩
    obtain ⟨e, he, hpe⟩ := List.mem_flatMap.1 hp
    exact hnone e he p hpe (by rw [← hkey, ← hk]; rfl)
  rw [TrialBalance.getOrZero, hrow]
  exact permits_zero _

theorem Limited.store {j : Journal H P} {a : AccountId} {limit : BalanceLimit} (h : Limited a limit j)
    {e : Entry H .balanced P} {b : TrialBalance P} (hacc : Accepted j e b) : Limited a limit (j.store e b) := by
  refine ⟨h.1, fun key hkey => ?_⟩
  show limit.permits (b.getOrZero key) = true
  by_cases htouch : Touches e.postings key
  · obtain ⟨p, hp, rfl⟩ := htouch
    rcases checkLimits_cases j e b with ⟨-, hpermitted⟩ | ⟨account, currency, layer, limit', net, herr, -⟩
    · have hlimit : j.accounts.limitOf p.account = limit := by
        rw [show p.account = a from hkey]
        exact h.1
      rw [← hlimit]
      exact hpermitted p hp
    · rw [hacc.limits] at herr
      cases herr
  · have hkeep := (TrialBalance.get_of_applyAll hacc.applied key).2.2 htouch
    rw [TrialBalance.getOrZero, hkeep]
    exact h.2 key hkey

variable [DecidableEq H]

/-- The limit of an account is not changed. -/
def KeepsLimit (a : AccountId) (j : Journal H P) (o : Operation H P) : Prop :=
  (j.operate o).accounts.limitOf a = j.accounts.limitOf a

theorem Limited.operate {j : Journal H P} (hj : j.Posted) {a : AccountId} {limit : BalanceLimit} (h : Limited a limit j)
    {o : Operation H P} (hs : ∀ e ∈ j.offered o, Short e) (hkeep : KeepsLimit a j o) : Limited a limit (j.operate o) := by
  rcases operate_short hj hs with hsame | ⟨new, happ, -⟩
  · refine ⟨hkeep.trans h.1, ?_⟩
    rw [hsame.balances]
    exact h.2
  · exact happ.keepsAll h fun _ _ _ hk hacc => hk.store hacc

/-- **Limits hold in every state** of a run that does not change them, from a state
without postings on the account. -/
theorem limited_of_run {ledger : LedgerId} {a : AccountId} {j j' : Journal H P} {os : List (Operation H P)}
    (hj : (sealedOperations ledger).Reachable j) (hnone : ∀ e ∈ j.entries, ∀ p ∈ e.postings, p.account ≠ a)
    (r : ((sealedOperations ledger).restrict (KeepsLimit a)).Run j os j') : Limited a (j.accounts.limitOf a) j' := by
  have hstable : ((sealedOperations ledger).restrict (KeepsLimit a)).Stable fun k : Journal H P =>
      k.Kept ∧ Limited a (j.accounts.limitOf a) k := by
    intro k o k' hk st
    obtain ⟨⟨rfl, hs⟩, hkeep⟩ := st
    have hshort : ∀ e ∈ k.offered o, Short e := fun e he => (hs e he).postable.2
    exact ⟨hk.1.operate hs, hk.2.operate hk.1.posted hshort hkeep⟩
  have hkept := kept_of_reachable hj
  exact (hstable.run r ⟨hkept, limited_of_unposted hkept.posted hnone⟩).2

/-! ## The order of the postings -/

/-- What is recorded is refused for a limit. -/
def RefusedForLimit (j : Journal H P) (e : Entry H .balanced P) : Prop :=
  ∃ account currency layer limit net, j.recordValidated e = .error (.limitBreached account currency layer limit net P.val)

omit [DecidableEq H] in
theorem checkReversal_error {j : Journal H P} {e : Entry H .balanced P} {original : EntryId} {err : JournalError H}
    (h : j.checkReversal e original = .error err) : ∀ account currency layer limit net scale,
    err ≠ .limitBreached account currency layer limit net scale := by
  intro account currency layer limit net scale he
  subst he
  unfold checkReversal at h
  split at h
  · cases h
  · split at h
    · cases h
    · split at h
      · cases h
      · split at h <;> cases h

omit [DecidableEq H] in
/-- Only the last check of `accept` names a limit. -/
theorem accept_eq_limitBreached {j : Journal H P} {e : Entry H .balanced P} {account : AccountId} {currency : Currency}
    {layer : Layer} {limit : BalanceLimit} {net : Int} {scale : Nat} :
    j.accept e = .error (.limitBreached account currency layer limit net scale) ↔ j.byId.get? e.id = none ∧
      (∀ original, e.reverses = some original → j.checkReversal e original = .ok ()) ∧
      ∃ b, j.balances.applyAll e.postings = .ok b ∧
        j.checkLimits e b = .error (.limitBreached account currency layer limit net scale) := by
  unfold accept
  by_cases hid : (j.byId.contains e.id) = true
  · obtain ⟨i, hi⟩ := OrdMap.contains_iff.1 hid
    simp [hid, hi]
  · have hnone : j.byId.get? e.id = none := by simpa [OrdMap.contains] using hid
    have hrest : ((j.balances.applyAll e.postings).mapError JournalError.money >>= fun tb =>
        (j.checkLimits e tb >>= fun _ => Except.ok tb)) =
          .error (.limitBreached account currency layer limit net scale) ↔
        ∃ b, j.balances.applyAll e.postings = .ok b ∧
          j.checkLimits e b = .error (.limitBreached account currency layer limit net scale) := by
      simp only [bind_eq_error, mapError_eq_error, mapError_eq_ok, reduceCtorEq, and_false, exists_false, false_or, or_false]
    rw [if_neg hid]
    cases ho : e.reverses with
    | none =>
      simp only [hnone, reduceCtorEq, false_implies, implies_true, true_and]
      exact hrest
    | some original =>
      simp only [hnone, true_and, Option.some.injEq, forall_eq', ← hrest]
      cases hrev : j.checkReversal e original with
      | error err =>
        have hne := checkReversal_error hrev account currency layer limit net scale
        simp [bind, Except.bind, hne]
      | ok u => simp [bind, Except.bind]

/-- Refused: everything else in order, and a limit broken by the balances it would leave. -/
theorem refusedForLimit_iff {j : Journal H P} {e : Entry H .balanced P} : j.RefusedForLimit e ↔
    j.byKey.get? e.idempotencyKey = none ∧ j.byId.get? e.id = none ∧
      (∀ original, e.reverses = some original → j.checkReversal e original = .ok ()) ∧
      ∃ b, j.balances.applyAll e.postings = .ok b ∧ ¬ Permitted j.accounts b e.postings := by
  have hrecord : ∀ {account currency layer limit net},
      j.recordValidated e = .error (.limitBreached account currency layer limit net P.val) ↔
        j.byKey.get? e.idempotencyKey = none ∧ j.accept e = .error (.limitBreached account currency layer limit net P.val) := by
    intro account currency layer limit net
    unfold recordValidated
    cases hr : j.replay e.idempotencyKey e.contentHash with
    | some outcome =>
      have hkey : j.byKey.get? e.idempotencyKey ≠ none := fun hk => by
        rw [replay_eq_none.2 hk] at hr
        cases hr
      unfold replay at hr
      split at hr
      · cases hr
      · split at hr
        all_goals
          cases hr
          simp [Except.map, hkey]
    | none =>
      rw [replay_eq_none.1 hr]
      cases j.accept e <;> simp
  constructor
  · intro ⟨account, currency, layer, limit, net, h⟩
    obtain ⟨hkey, hacc⟩ := hrecord.1 h
    obtain ⟨hid, hrev, b, hb, hcheck⟩ := accept_eq_limitBreached.1 hacc
    refine ⟨hkey, hid, hrev, b, hb, fun hp => ?_⟩
    rcases j.checkLimits_cases e b with ⟨hok, -⟩ | ⟨_, _, _, _, _, -, hnot⟩
    · rw [hok] at hcheck
      cases hcheck
    · exact hnot hp
  · intro ⟨hkey, hid, hrev, b, hb, hlimit⟩
    rcases j.checkLimits_cases e b with ⟨-, hp⟩ | ⟨account, currency, layer, limit, net, herr, -⟩
    · exact absurd hp hlimit
    · exact ⟨account, currency, layer, limit, net, hrecord.2 ⟨hkey, accept_eq_limitBreached.2 ⟨hid, hrev, b, hb, herr⟩⟩⟩

omit [DecidableEq H] in
/-- The balances an entry would leave, whatever the order of its postings. -/
theorem applyAll_perm {j : Journal H P} (hj : j.Kept) {ps qs : List (Posting P)} {b : TrialBalance P}
    (hp : ps.Perm qs) (hpos : ∀ p ∈ ps, 0 < p.amount.minor) (h : j.balances.applyAll ps = .ok b) :
    j.balances.applyAll qs = .ok b := by
  have happ : ∀ l, TrialBalance.new.applyAll (postingsOf j.entries ++ l) = j.balances.applyAll l := fun l => by
    rw [TrialBalance.applyAll_append, hj.posted.folded]
    rfl
  have hnonneg : ∀ p ∈ postingsOf j.entries ++ qs, 0 ≤ p.amount.minor := by
    intro p hm
    rcases List.mem_append.1 hm with hm | hm
    · obtain ⟨e, he, hpe⟩ := List.mem_flatMap.1 hm
      exact ((hj.fromSeal e he).postable.1 p hpe).le
    · exact (hpos p (hp.mem_iff.2 hm)).le
  rw [← happ] at h ⊢
  exact applyAll_of_totals hnonneg ((totals_of_applyAll h).perm (hp.append_left _))

omit [DecidableEq H] in
theorem accept_eq_reversal {j : Journal H P} {e : Entry H .balanced P} {original : EntryId} {err : JournalError H}
    (hid : j.byId.get? e.id = none) (ho : e.reverses = some original) (h : j.checkReversal e original = .error err) :
    j.accept e = .error err := by
  have hcontains : j.byId.contains e.id = false := by simp [OrdMap.contains, hid]
  unfold accept
  simp only [hcontains, Bool.false_eq_true, if_false, ho, h]
  rfl

omit [DecidableEq H] in
/-- Of the reversal checks only the last one sees the postings. -/
theorem checkReversal_reordered {j : Journal H P} {e : Entry H .balanced P} {original : EntryId}
    (h : j.checkReversal e original = .ok ()) (ps : List (Posting P)) :
    j.checkReversal { e with postings := ps } original = .ok () ∨
      j.checkReversal { e with postings := ps } original = .error (.notAnInversion original) := by
  obtain ⟨t, ht, hreversed, hplain, -⟩ := checkReversal_spec.1 h
  simp only [checkReversal, ht, hreversed, hplain, Option.isSome_none, Bool.false_eq_true, if_false]
  split
  · exact .inl rfl
  · exact .inr rfl

/-- **The order of the postings does not decide on a limit**: with its postings in
another order the entry is refused for a limit too, or, a reversal that no longer
lines up with its original, as no inversion. -/
theorem refusedForLimit_perm {j : Journal H P} (hj : j.Kept) {e : Entry H .balanced P}
    (hpos : ∀ p ∈ e.postings, 0 < p.amount.minor) {ps : List (Posting P)} (hp : e.postings.Perm ps)
    (h : j.RefusedForLimit e) : j.RefusedForLimit { e with postings := ps } ∨
      ∃ original, e.reverses = some original ∧
        j.recordValidated { e with postings := ps } = .error (.notAnInversion original) := by
  obtain ⟨hkey, hid, hrev, b, hb, hlimit⟩ := refusedForLimit_iff.1 h
  by_cases hall : ∀ original, e.reverses = some original → j.checkReversal { e with postings := ps } original = .ok ()
  · left
    refine refusedForLimit_iff.2 ⟨hkey, hid, hall, b, applyAll_perm hj hp hpos hb, fun hperm => hlimit fun p hm => ?_⟩
    exact hperm p (hp.mem_iff.1 hm)
  · right
    push Not at hall
    obtain ⟨original, ho, hne⟩ := hall
    have hnot := (checkReversal_reordered (hrev original ho) ps).resolve_left hne
    refine ⟨original, ho, ?_⟩
    unfold recordValidated
    rw [replay_eq_none.2 hkey, accept_eq_reversal (e := { e with postings := ps }) hid ho hnot]

/-- **Balance limits.** An account that has its limit before it is posted to, and keeps
it, is within it in every state, on every key; and no order of an entry's postings gets
around a limit. -/
theorem limits_kept (ledger : LedgerId) :
    (∀ {a : AccountId} {j j' : Journal H P} {os : List (Operation H P)}, (sealedOperations ledger).Reachable j →
      (∀ e ∈ j.entries, ∀ p ∈ e.postings, p.account ≠ a) →
      ((sealedOperations ledger).restrict (KeepsLimit a)).Run j os j' → Limited a (j.accounts.limitOf a) j') ∧
    ∀ {j : Journal H P} {e : Entry H .balanced P} {ps : List (Posting P)}, (sealedOperations ledger).Reachable j →
      FromSeal e → e.postings.Perm ps → j.RefusedForLimit e → j.RefusedForLimit { e with postings := ps } ∨
        ∃ original, e.reverses = some original ∧
          j.recordValidated { e with postings := ps } = .error (.notAnInversion original) :=
  ⟨fun hj hnone r => limited_of_run hj hnone r,
    fun hj he hp h => refusedForLimit_perm (kept_of_reachable hj) he.postable.1 hp h⟩

/-! ## Cash that may not be overdrawn -/

/-- Ten euro paid out. -/
def payout : Entry Preimage .draft cents :=
  ((Entry.new ⟨⟨4, by decide⟩⟩ ⟨[4], rfl⟩ march.end).post (.debit salesId tenEuro .eur)).post (.credit cashId tenEuro .eur)

def limitSet : Journal Preimage cents := (new books).afterAll (marchDefined ++ [.setLimit cashId .noCreditBalance])

/-- The sale of March, paid out. -/
def paidOut : Journal Preimage cents := limitSet.afterAll [.record saleOfMarch, .record payout]

/-- The draft that takes the sale back once it was paid out. -/
def takeBack : Entry Preimage .draft cents :=
  (saleOfMarch.withState .balanced).reverse (sale ⟨5, by decide⟩ march.end).id (sale ⟨5, by decide⟩ march.end).idempotencyKey
    march.end

/-- The sale taken back. -/
def takenBack : Entry Preimage .balanced cents := takeBack.withState .balanced

theorem reachable_limitSet : (sealedOperations books).Reachable limitSet := ⟨_, _, rfl, run_sealedCalls books _ _⟩

set_option maxRecDepth 10000 in
/-- Not vacuous: cash is within its limit once the sale is paid out. -/
theorem paidOut_limited : paidOut.entries.length = 2 ∧ Limited cashId (limitSet.accounts.limitOf cashId) paidOut := by
  have hrun : ((sealedOperations books).restrict (KeepsLimit cashId)).Run limitSet
      [.mutate (.call (.record saleOfMarch)), .mutate (.call (.record payout))] paidOut := by
    refine .cons ⟨⟨rfl, fromSeal_call limitSet (.record saleOfMarch)⟩, ?_⟩
      (.cons ⟨⟨rfl, fromSeal_call (limitSet.after (.record saleOfMarch)) (.record payout)⟩, ?_⟩ (.nil _))
    · show (limitSet.after (.record saleOfMarch)).accounts.limitOf cashId = limitSet.accounts.limitOf cashId
      decide
    · show ((limitSet.after (.record saleOfMarch)).after (.record payout)).accounts.limitOf cashId =
        (limitSet.after (.record saleOfMarch)).accounts.limitOf cashId
      decide
  refine ⟨by decide, (limits_kept books).1 reachable_limitSet ?_ hrun⟩
  have hnil : limitSet.entries.length = 0 := by decide
  rw [List.length_eq_zero_iff.1 hnil]
  exact fun e he => absurd he List.not_mem_nil

set_option maxRecDepth 10000 in
/-- **A reversal is told by its order first.** In order it is refused for the limit of
cash, in another order as no inversion. -/
theorem takenBack_reordered : (sealedOperations books).Reachable paidOut ∧ FromSeal takenBack ∧
    paidOut.RefusedForLimit takenBack ∧
    ¬ paidOut.RefusedForLimit { takenBack with postings := takenBack.postings.reverse } := by
  refine ⟨reachable_limitSet.run (run_sealedCalls books _ _), ⟨takeBack, paidOut.context, toOption_eq_some.1 (by decide)⟩,
    ⟨cashId, .eur, .settled, .noCreditBalance, -1000, error?_eq_some.1 (by decide)⟩, fun h => ?_⟩
  obtain ⟨account, currency, layer, limit, net, hlimit⟩ := h
  have hnot : paidOut.recordValidated { takenBack with postings := takenBack.postings.reverse } =
      .error (.notAnInversion saleOfMarch.id) := error?_eq_some.1 (by decide)
  rw [hnot] at hlimit
  cases hlimit

end DoubleEntry.L3.Journal
